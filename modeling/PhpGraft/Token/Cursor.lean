import PhpGraft.Token.Lexer

/-!
Lexing with a cursor that counts bytes. Some rules search for characters and some for bytes, and a
cursor that stands inside a character cannot be read from. There is no answer where that happens,
and none where a loop would never end.
-/
namespace PhpGraft

namespace Text

/-- The first `n` bytes; nothing when byte `n` is inside a character or past the end. -/
def takeBytes? (n : Nat) (t : Text) : Option Text :=
  (t.dropBytes? n).map fun rest => t.take (t.length - rest.length)

/-- The byte where the first rest of the text with property `p` begins. -/
def seek? (p : Text → Bool) : Text → Option Nat
  | [] => none
  | c :: t => if p (c :: t) then some 0 else (seek? p t).map (c.utf8Size + ·)

/-- How many bytes the characters at the start with property `p` take. -/
def spanBytes (p : Char → Bool) (t : Text) : Nat :=
  (t.seek? fun rest => !rest.head?.any p).getD t.byteSize

end Text

/-- A text, for what moves over it byte by byte. -/
abbrev Cursor := Text

namespace Cursor

/-- The byte is a character of ASCII, with property `p`. -/
def isByte (p : Char → Bool) (b : UInt8) : Bool := b < 128 && p (Char.ofNat b.toNat)

def lowerByte (b : UInt8) : UInt8 := if isByte Char.isUpper b then b + 32 else b

/-- A line break or one white-space character, as part of the open tag in front of it. -/
def tagBreak? : List UInt8 → Option Nat
  | [] => some 0
  | b :: bs =>
    if isByte (· == '\r') b && bs.head?.any (isByte (· == '\n')) then some 2
    else if isByte isSpace b then some 1
    else none

/-- The size of the open tag that these bytes start with. -/
def openTagSize? (bytes : List UInt8) : Option Nat :=
  if (Text.bytes "<?=").isPrefixOf bytes then some 3
  else if bytes.length < 5 || (bytes.take 5).map lowerByte != Text.bytes "<?php" then none
  else (tagBreak? (bytes.drop 5)).map (5 + ·)

def opensTag (t : Text) : Bool := t.startsWith ['<', '?'] && (openTagSize? t.bytes).isSome

def html (s : Text) (start : Nat) : Option (TokenKind × Nat) := do
  let rest ← s.dropBytes? start
  match openTagSize? rest.bytes with
  | some n => return (.openTag, start + n)
  | none =>
    match rest.seek? opensTag with
    | some n => return (.inlineHtml, start + n)
    | none => return (.inlineHtml, s.byteSize)

def closeTag (s : Text) (start : Nat) : Option Nat := do
  let behind ← s.dropBytes? (start + 2)
  return start + 2 + Lexer.lineBreakSize behind

/-- The comment that starts here has white space behind `/**`. -/
def isDoc (rest : Text) : Option Bool :=
  if rest.startsWith ['/', '*', '*'] then (rest.dropBytes? 3).map (·.head?.any isSpace) else some false

/-- `none` inside, if the comment is not closed. -/
def comment (s : Text) (start : Nat) : Option (Option (TokenKind × Nat)) := do
  let rest ← s.dropBytes? start
  let doc ← isDoc rest
  let inside ← rest.dropBytes? 2
  return (inside.seek? (·.startsWith ['*', '/'])).map fun n =>
    (if doc then .docComment else .blockComment, start + (n + 4))

def lineComment (s : Text) (start : Nat) : Option Nat := do
  let rest ← s.dropBytes? start
  let lineStop := (rest.seek? (·.startsWith ['\n'])).getD rest.byteSize
  let line ← rest.takeBytes? lineStop
  return start + (line.seek? (·.startsWith ['?', '>'])).getD lineStop

def eatName (s : Text) (pos : Nat) : Option Nat := do
  let rest ← s.dropBytes? pos
  return pos + rest.spanBytes isNameChar

/-- `c` stands here, in front of a name. -/
def leadsName (c : Char) (rest : Text) : Option Bool :=
  if rest.startsWith [c] then (rest.dropBytes? 1).map Lexer.startsName else some false

def nameParts (s : Cursor) (pos : Nat) : Option Nat := do
  let stop ← eatName s pos
  let rest ← s.dropBytes? stop
  if ← leadsName '\\' rest then s |>.nameParts (stop + 1) else return stop
partial_fixpoint

def name (s : Text) (start : Nat) : Option Nat := do
  let rest ← s.dropBytes? start
  nameParts s (if rest.startsWith ['\\'] then start + 1 else start)

/-- Letters, digits, underscores and dots in front of a digit. -/
def numberBytes : List UInt8 → Nat
  | [] => 0
  | b :: bs =>
    if isByte Char.isAlphanum b || isByte (· == '_') b ||
        (isByte (· == '.') b && bs.head?.any (isByte Char.isDigit)) then numberBytes bs + 1
    else 0

/-- Up to and including the closing quote. A backslash hides the byte after it, even if there is
none, and even if that byte is the first of many of one character. -/
def quotedBytes? (quote : UInt8) : List UInt8 → Option Nat
  | [] => none
  | b :: bs =>
    if isByte (· == '\\') b then
      match bs with
      | [] => none
      | _ :: bs => (quotedBytes? quote bs).map (· + 2)
    else if b = quote then some 1
    else (quotedBytes? quote bs).map (· + 1)

/-- From the start of a line on, up to and including the closing label. -/
def heredocLines (s : Cursor) (label : Text) (pos : Nat) : Option (Except Fault Nat) := do
  let rest ← s.dropBytes? pos
  let lineStop := (rest.seek? (·.startsWith ['\n'])).getD rest.byteSize
  let line ← rest.takeBytes? lineStop
  let body : Text := line.dropWhile Lexer.isIndent
  if (body.dropPrefix? label).any (!·.head?.any isNameChar) then
    return .ok (pos + (line.byteSize - body.byteSize) + label.byteSize)
  else if lineStop = rest.byteSize then return .error .unterminatedHeredoc
  else s |>.heredocLines label (pos + (lineStop + 1))
partial_fixpoint

def heredoc (s : Text) (start : Nat) : Option (Except Fault Nat) := do
  let rest ← s.dropBytes? (start + 3)
  let pos := start + 3 + (rest.byteSize - Text.byteSize (rest.dropWhile Lexer.isIndent))
  let rest ← s.dropBytes? pos
  let quote := rest.head?.filter fun c => c == '\'' || c == '"'
  let labelStart := pos + quote.toList.length
  let labelStop ← eatName s labelStart
  let label ← (← s.dropBytes? labelStart).takeBytes? (labelStop - labelStart)
  let rest ← s.dropBytes? labelStop
  if label.isEmpty then return .error .invalidHeredocLabel
  else if quote.isSome && rest.head? != quote then return .error .unterminatedHeredocLabel
  else
    let pos := labelStop + quote.toList.length
    let rest ← s.dropBytes? pos
    match rest.seek? (·.startsWith ['\n']) with
    | some n => heredocLines s label (pos + (n + 1))
    | none => return .error .unterminatedHeredoc

/-- The kind of the token at `start`, and the byte after its last. -/
def code (s : Text) (start : Nat) : Option (Except Fault (TokenKind × Nat)) := do
  let rest ← s.dropBytes? start
  let c ← rest.head?
  if rest.startsWith ['?', '>'] then return .ok (.closeTag, ← closeTag s start)
  else if isSpace c then return .ok (.whitespace, start + rest.spanBytes isSpace)
  else if rest.startsWith ['/', '*'] then
    match ← comment s start with
    | some token => return .ok token
    | none => return .error .unterminatedComment
  else if rest.startsWith ['/', '/'] || (c == '#' && !rest.startsWith ['#', '[']) then
    return .ok (.lineComment, ← lineComment s start)
  else if ← leadsName '$' rest then return .ok (.var, ← eatName s (start + 1))
  else if rest.startsWith ['<', '<', '<'] then
    return (← heredoc s start).map fun stop => (.heredoc, stop)
  else if c == '\'' || c == '"' || c == '\x60' then
    match quotedBytes? c.toUInt8 (s.bytes.drop (start + 1)) with
    | some n => return .ok (.string, start + (n + 1))
    | none => return .error .unterminatedString
  else if c.isDigit then return .ok (.number, start + numberBytes (s.bytes.drop start))
  else if isNameStart c || (← leadsName '\\' rest) then return .ok (.name, ← name s start)
  else return .ok (.punct, start + c.utf8Size)

def scan (s : Text) : Lexer.Mode → Nat → Option (Except Fault (TokenKind × Nat))
  | .html, start => (html s start).map .ok
  | .code, start => code s start

end Cursor

/-- A token by its bytes: from `start` up to but not including `stop`. -/
structure Mark where
  kind : TokenKind
  start : Nat
  stop : Nat
  deriving DecidableEq, Repr

namespace Cursor

def run (s : Cursor) (m : Lexer.Mode) (pos : Nat) : Option (Except ParseError (List Mark)) := do
  if pos < s.byteSize then
    match ← scan s m pos with
    | .error fault => return .error ⟨fault, .ofByte s pos⟩
    | .ok (kind, stop) =>
      match ← (s |>.run (m.after kind) stop) with
      | .error e => return .error e
      | .ok marks => return .ok (⟨kind, pos, stop⟩ :: marks)
  else return .ok []
partial_fixpoint

/-- The tokens of a whole file. -/
def lex (s : Text) : Option (Except ParseError (List Mark)) := run s .html 0

/-- The tokens of a fragment of code. -/
def lexCode (s : Text) : Option (Except ParseError (List Mark)) := run s .code 0

end Cursor
end PhpGraft
