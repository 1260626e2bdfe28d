import PhpGraft.Style
import PhpGraft.Token.Lexer

/-!
Moving code and comments to another indentation. A line that starts inside a quoted string belongs
to the value of the string and stays as it is.
-/
namespace PhpGraft

/-- A line without its break, and whether it starts and ends inside a quoted string. -/
structure Line where
  text : Text
  starts : Bool
  ends : Bool
  deriving DecidableEq, Repr

namespace Line

/-- Each character with whether it belongs to a quoted string. -/
def quotedChars (code : Text) : List (Char × Bool) :=
  match lexCode code with
  | .ok ts => ts.flatMap fun t => t.text.map (·, t.kind == .string)
  | .error _ => code.map (·, false)

def split (starts : Bool) : List (Char × Bool) → List Line
  | [] => [⟨[], starts, false⟩]
  | ('\n', quoted) :: cs => ⟨[], starts, quoted⟩ :: split quoted cs
  | (c, _) :: cs =>
    match split starts cs with
    | [] => []
    | l :: ls => { l with text := c :: l.text } :: ls

def ofCode (code : Text) : List Line := split false (quotedChars code)

/-- Bytes of white space that the line starts with. -/
def indent (l : Line) : Nat := l.text.byteSize - l.text.trimStart.byteSize

/-- The white space that the lines have in common, blank and quoted ones apart. -/
def commonIndent (ls : List Line) : Nat :=
  (((ls.filter fun l => !l.starts && !l.text.isBlank).map indent).min?).getD 0

def trimmed (l : Line) : Text := if l.ends then l.text else l.text.trimEnd

end Line

/-- The first line loses the white space in front of it, the others exchange what they have in
common of it for `indent`; line breaks outside of strings become `newline`. -/
def reindent (code indent newline : Text) : Text :=
  match Line.ofCode code.trim with
  | [] => []
  | first :: rest =>
    let common := Line.commonIndent rest
    let moved (l : Line) : Text :=
      if l.starts then '\n' :: l.trimmed
      else if l.trimmed.isBlank then newline
      else newline ++ indent ++ (l.trimmed.dropBytes? common).getD l.trimmed.trimStart
    first.trimmed.trimStart ++ rest.flatMap moved

/-- The lines of a comment, with their asterisks one to the right of `indent`. -/
def reindentComment (comment indent newline : Text) : Text :=
  match (comment.trim.splitOn '\n').map Text.trim with
  | [] => []
  | first :: rest =>
    first ++ rest.flatMap fun l => newline ++ indent ++ (if l.startsWith ['*'] then [' '] else []) ++ l

end PhpGraft
