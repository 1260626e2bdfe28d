import PhpGraft.Text

/-!
What can be wrong with source text, and where. Lines and columns count from one; a column counts
characters.
-/
namespace PhpGraft

structure Position where
  line : Nat
  column : Nat
  deriving DecidableEq, Repr

namespace Position

def start : Position := ⟨1, 1⟩

def next (p : Position) (c : Char) : Position :=
  if c = '\n' then ⟨p.line + 1, 1⟩ else ⟨p.line, p.column + 1⟩

/-- Where reading goes on after the text `t`. -/
def after (t : Text) : Position := t.foldl next start

/-- The position of byte `n`, or the end of the text if no character begins there. -/
def ofByte (source : Text) (n : Nat) : Position :=
  after (match source.dropBytes? n with
    | some rest => source.take (source.length - rest.length)
    | none => source)

def describe (p : Position) (message : Text) : Text :=
  s!"line {p.line}, column {p.column}: ".toList ++ message

end Position

inductive Bracket where
  | round | square | curly
  deriving DecidableEq, Repr

namespace Bracket

def opener : Bracket → Char
  | round => '('
  | square => '['
  | curly => '{'

def closer : Bracket → Char
  | round => ')'
  | square => ']'
  | curly => '}'

end Bracket

inductive Fault where
  | unterminatedComment
  | unterminatedString
  | invalidHeredocLabel
  | unterminatedHeredocLabel
  | unterminatedHeredoc
  | missingOpenTag
  | nestedNamespace
  | missingNamespaceBody
  | missingClassBody
  | unexpectedClassName
  | unexpectedClassToken
  | missingMethodName
  | missingParameters
  | missingMethodBody
  | missingSemicolon
  | unclosed (opened : Bracket)
  | unexpected (closed : Bracket)
  | mismatched (opened closed : Bracket)
  deriving DecidableEq, Repr

def Fault.message : Fault → Text
  | unterminatedComment => "unterminated comment"
  | unterminatedString => "unterminated string literal"
  | invalidHeredocLabel => "invalid heredoc label"
  | unterminatedHeredocLabel => "unterminated heredoc label"
  | unterminatedHeredoc => "unterminated heredoc"
  | missingOpenTag => "expected `<?php` open tag"
  | nestedNamespace => "namespace declarations cannot be nested"
  | missingNamespaceBody => "expected `;` or `\x7b` after namespace name"
  | missingClassBody => "expected `\x7b` after class header"
  | unexpectedClassName => "unexpected name in class header"
  | unexpectedClassToken => "unexpected token in class header"
  | missingMethodName => "expected method name"
  | missingParameters => "expected `(` after method name"
  | missingMethodBody => "expected method body or `;`"
  | missingSemicolon => "expected `;` at the end of the statement"
  | unclosed opened => "unclosed `" ++ [opened.opener] ++ "`"
  | unexpected closed => "unexpected `" ++ [closed.closer] ++ "`"
  | mismatched opened closed =>
    "mismatched `" ++ [closed.closer] ++ "`, expected `" ++ [opened.closer] ++
      "` to close `" ++ [opened.opener] ++ "`"

structure ParseError where
  fault : Fault
  position : Position
  deriving DecidableEq, Repr

def ParseError.message (e : ParseError) : Text := e.position.describe e.fault.message

end PhpGraft
