import PhpGraft.Fault
import PhpGraft.Name
import PhpGraft.Token

/-!
Lexing loses nothing: each rule says how many characters belong to the token besides its first,
and the token takes exactly these.
-/
namespace PhpGraft.Lexer

/-- Outside of `<?php … ?>`, or inside. -/
inductive Mode where
  | html | code
  deriving DecidableEq, Repr

def Mode.after (m : Mode) : TokenKind → Mode
  | .openTag => code
  | .closeTag => html
  | _ => m

/-- The characters of an open tag after its first: `<?=`, or `<?php` with the line break or the
single white-space character behind it. -/
def openTag? : Char → Text → Option Nat
  | '<', '?' :: '=' :: _ => some 2
  | '<', t =>
    if Text.lower (t.take 4) = "?php" then
      match t.drop 4 with
      | [] => some 4
      | '\r' :: '\n' :: _ => some 6
      | c :: _ => if isSpace c then some 5 else none
    else none
  | _, _ => none

def htmlSize : Text → Nat
  | [] => 0
  | c :: t => if (openTag? c t).isSome then 0 else htmlSize t + 1

def lineBreakSize : Text → Nat
  | '\r' :: '\n' :: _ => 2
  | '\n' :: _ => 1
  | _ => 0

/-- A line comment ends before the line break or before `?>`. -/
def lineCommentSize : Text → Nat
  | [] => 0
  | '\n' :: _ => 0
  | '?' :: '>' :: _ => 0
  | _ :: t => lineCommentSize t + 1

/-- Up to and including the first `*/`. -/
def commentSize? : Text → Option Nat
  | [] => none
  | '*' :: '/' :: _ => some 2
  | _ :: t => (commentSize? t).map (· + 1)

/-- Up to and including the closing quote; a backslash hides the character after it. -/
def quotedSize? (quote : Char) : Text → Option Nat
  | [] => none
  | '\\' :: [] => none
  | '\\' :: _ :: t => (quotedSize? quote t).map (· + 2)
  | c :: t => if c = quote then some 1 else (quotedSize? quote t).map (· + 1)

def startsName (t : Text) : Bool := t.head?.any isNameStart

def numberSize : Text → Nat
  | [] => 0
  | c :: t =>
    if c.isAlphanum || c == '_' || (c == '.' && t.head?.any Char.isDigit) then numberSize t + 1
    else 0

/-- Name characters, and backslashes in front of a name. -/
def nameSize : Text → Nat
  | [] => 0
  | c :: t => if isNameChar c || (c == '\\' && startsName t) then nameSize t + 1 else 0

def isIndent (c : Char) : Bool := c == ' ' || c == '\t'

/-- The line that starts here closes the heredoc with this label. -/
def closesHeredoc (label t : Text) : Bool :=
  match Text.dropPrefix? (t.dropWhile isIndent) label with
  | some rest => !rest.head?.any isNameChar
  | none => false

/-- Up to and including the closing label. -/
def heredocBody? (label : Text) (lineStart : Bool) (t : Text) : Option Nat :=
  if lineStart && closesHeredoc label t then
    some ((t.takeWhile isIndent).length + label.length)
  else match t with
    | [] => none
    | c :: t => (heredocBody? label (c == '\n') t).map (· + 1)

/-- What follows `<<<`: a label, quoted or not, and lines up to the one that closes it. -/
def heredocSize (t : Text) : Except Fault Nat :=
  let indent := (t.takeWhile isIndent).length
  let quote := (t.drop indent).head?.filter fun c => c == '\'' || c == '"'
  let opening := indent + quote.toList.length
  let label := (t.drop opening).takeWhile isNameChar
  let rest := t.drop (opening + label.length)
  if label.isEmpty then .error .invalidHeredocLabel
  else if quote.isSome && rest.head? != quote then .error .unterminatedHeredocLabel
  else match heredocBody? label false rest with
    | some n => .ok (opening + label.length + n)
    | none => .error .unterminatedHeredoc

/-- The kind of the token that starts with `c`, and how many characters of `t` belong to it. -/
def scanCode (c : Char) (t : Text) : Except Fault (TokenKind × Nat) :=
  if c = '?' ∧ t.startsWith ['>'] then .ok (.closeTag, 1 + lineBreakSize (t.drop 1))
  else if isSpace c then .ok (.whitespace, (t.takeWhile isSpace).length)
  else if c = '/' ∧ t.startsWith ['*'] then
    match commentSize? (t.drop 1) with
    | some n =>
      let doc := t.startsWith ['*', '*'] && (t.drop 2).head?.any isSpace
      .ok (if doc then .docComment else .blockComment, 1 + n)
    | none => .error .unterminatedComment
  else if (c = '/' ∧ t.startsWith ['/']) ∨ (c = '#' ∧ !t.startsWith ['[']) then
    .ok (.lineComment, lineCommentSize t)
  else if c = '$' ∧ startsName t then .ok (.var, (t.takeWhile isNameChar).length)
  else if c = '<' ∧ t.startsWith ['<', '<'] then
    (heredocSize (t.drop 2)).map fun n => (.heredoc, 2 + n)
  else if c = '\'' ∨ c = '"' ∨ c = '\x60' then
    match quotedSize? c t with
    | some n => .ok (.string, n)
    | none => .error .unterminatedString
  else if c.isDigit then .ok (.number, numberSize t)
  else if isNameStart c ∨ (c = '\\' ∧ startsName t) then .ok (.name, nameSize t)
  else .ok (.punct, 0)

def scanHtml (c : Char) (t : Text) : TokenKind × Nat :=
  match openTag? c t with
  | some n => (.openTag, n)
  | none => (.inlineHtml, htmlSize t)

def scan : Mode → Char → Text → Except Fault (TokenKind × Nat)
  | .html, c, t => .ok (scanHtml c t)
  | .code, c, t => scanCode c t

/-- The tokens of a text that begins at position `p`; a fault is reported where its token starts. -/
def run (m : Mode) (p : Position) : Text → Except ParseError (List Token)
  | [] => .ok []
  | c :: t =>
    match scan m c t with
    | .error fault => .error ⟨fault, p⟩
    | .ok (kind, n) =>
      let text := c :: t.take n
      match run (m.after kind) (text.foldl Position.next p) (t.drop n) with
      | .error e => .error e
      | .ok ts => .ok (⟨kind, text⟩ :: ts)
termination_by t => t.length
decreasing_by simp only [List.length_drop, List.length_cons]; omega

end PhpGraft.Lexer

namespace PhpGraft

/-- The tokens of a whole file, which begins outside of code. -/
def lex (source : Text) : Except ParseError (List Token) := Lexer.run .html .start source

/-- The tokens of a fragment of code without open tag. -/
def lexCode (code : Text) : Except ParseError (List Token) := Lexer.run .code .start code

end PhpGraft
