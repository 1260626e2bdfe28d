import PhpGraft.Text

/-!
How generated code is laid out.
-/
namespace PhpGraft

inductive LineEnding where
  | lf | crlf
  deriving DecidableEq, Repr

namespace LineEnding

def text : LineEnding → Text
  | lf => ['\n']
  | crlf => ['\r', '\n']

def word : LineEnding → Text
  | lf => "lf"
  | crlf => "crlf"

def ofWord? (t : Text) : Option LineEnding := [lf, crlf].find? (·.word == t)

/-- The ending of the first line, if the text has a line break. -/
def detect? : Text → Option LineEnding
  | [] => none
  | '\n' :: _ => some lf
  | '\r' :: '\n' :: _ => some crlf
  | _ :: t => detect? t

end LineEnding

structure Style where
  /-- One level of indentation. -/
  indent : Text := "    "
  finalNewline : Bool := false
  lineEnding : LineEnding := .lf
  deriving DecidableEq, Repr

namespace Style

def newline (s : Style) : Text := s.lineEnding.text

def newlines (s : Style) (count : Nat) : Text := s.newline.times count

def indentation (s : Style) (level : Nat) : Text := s.indent.times level

/-- Line breaks as in the given file, if it has any. -/
def matching (s : Style) (source : Text) : Style :=
  { s with lineEnding := (LineEnding.detect? source).getD s.lineEnding }

end Style
end PhpGraft
