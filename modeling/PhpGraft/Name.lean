import PhpGraft.Text

/-!
Identifiers and namespace-qualified names.
-/
namespace PhpGraft

/-- Underscore, ASCII letters and every character beyond ASCII. -/
def isNameStart (c : Char) : Bool := c == '_' || c.isAlpha || 128 ≤ c.toNat

def isNameChar (c : Char) : Bool := isNameStart c || c.isDigit

namespace Name

def isIdentifier : Text → Bool
  | [] => false
  | c :: t => isNameStart c && t.all isNameChar

def withoutRoot (t : Text) : Text := (t.dropPrefix? ['\\']).getD t

/-- Identifiers with backslashes between them, perhaps with one in front: `Foo\Bar`, `\Foo\Bar`. -/
def isQualified (t : Text) : Bool := ((withoutRoot t).splitOn '\\').all isIdentifier

/-- The identifier after the last backslash. -/
def short (t : Text) : Text := ((t.splitOn '\\').getLast?).getD t

/-- `name` as seen from outside `scope`. -/
def qualify (scope : Option Text) (name : Text) : Text :=
  match scope with
  | some (c :: s) => (c :: s).dropWhile (· == '\\') ++ '\\' :: name
  | _ => name

/-- Without white space around it and without leading backslashes. -/
def normalize (t : Text) : Text := t.trim.dropWhile (· == '\\')

end Name
end PhpGraft
