import PhpGraft.Text

/-!
Tokens carry their text, so a list of tokens spells the text it was read from.
-/
namespace PhpGraft

inductive TokenKind where
  | inlineHtml | openTag | closeTag
  | whitespace | lineComment | blockComment | docComment
  | var | name | number | string | heredoc | punct
  deriving DecidableEq, Repr

namespace TokenKind

def isComment : TokenKind → Bool
  | lineComment | blockComment | docComment => true
  | _ => false

def isTrivia (k : TokenKind) : Bool := k == whitespace || k.isComment

/-- What surrounds code: tags, and the text outside of them. -/
def isOutside : TokenKind → Bool
  | inlineHtml | openTag | closeTag => true
  | _ => false

def isCode (k : TokenKind) : Bool := !k.isTrivia && !k.isOutside

end TokenKind

structure Token where
  kind : TokenKind
  text : Text
  deriving DecidableEq, Repr

namespace Token

def spell (ts : List Token) : Text := ts.flatMap text

/-- First byte of each token and the one after its last, counted from `start`. -/
def byteSpans (start : Nat) : List Token → List (Nat × Nat)
  | [] => []
  | t :: ts => (start, start + t.text.byteSize) :: byteSpans (start + t.text.byteSize) ts

end Token

/-- The tokens of a file or fragment, addressed by their index. -/
abbrev Tokens := Array Token

/-- The tokens from index `start` up to but not including `stop`. -/
structure Span where
  start : Nat
  stop : Nat
  deriving DecidableEq, Repr

namespace Tokens

def kind? (ts : Tokens) (i : Nat) : Option TokenKind := ts[i]?.map Token.kind

def text (ts : Tokens) (i : Nat) : Text := (ts[i]?.map Token.text).getD []

def between (ts : Tokens) (start stop : Nat) : Text := Token.spell (ts.extract start stop).toList

def slice (ts : Tokens) (s : Span) : Text := ts.between s.start s.stop

def source (ts : Tokens) : Text := Token.spell ts.toList

def isName (ts : Tokens) (i : Nat) : Bool := ts.kind? i == some .name

def isKeyword (ts : Tokens) (i : Nat) (keyword : Text) : Bool :=
  ts.isName i && (ts.text i).lower == keyword

def isOneOf (ts : Tokens) (i : Nat) (keywords : List Text) : Bool :=
  keywords.any (ts.isKeyword i)

def isPunct (ts : Tokens) (i : Nat) (c : Char) : Bool := ts[i]? == some ⟨.punct, [c]⟩

def isComment (ts : Tokens) (i : Nat) : Bool := (ts.kind? i).any TokenKind.isComment

def isCode (ts : Tokens) (i : Nat) : Bool := (ts.kind? i).any TokenKind.isCode

end Tokens
end PhpGraft
