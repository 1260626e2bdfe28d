import PhpGraft.Text

/-!
Paths as they are spelled. Empty parts and the part `.` say nothing, but for `.` in front.
-/
namespace PhpGraft.Path

def isAbsolute (p : Text) : Bool := p.head? == some '/'

def join (base p : Text) : Text :=
  if isAbsolute p || base.isEmpty then p
  else if base.getLast? == some '/' then base ++ p
  else base ++ '/' :: p

/-- The parts that say something, each with the number of characters up to its end. -/
def partsFrom (start : Nat) : List Text → List (Text × Nat)
  | [] => []
  | p :: ps =>
    let stop := start + p.length
    if p = [] ∨ (p = ['.'] ∧ 0 < start) then partsFrom (stop + 1) ps
    else (p, stop) :: partsFrom (stop + 1) ps

/-- The parts of a path, its root being one of them. -/
def parts (p : Text) : List (Text × Nat) :=
  if isAbsolute p then (['/'], 1) :: partsFrom 1 ((p.drop 1).splitOn '/')
  else partsFrom 0 (p.splitOn '/')

/-- What the path says but for its last part; the root and the empty path have no parent. -/
def parent? (p : Text) : Option Text :=
  match (parts p).reverse with
  | [] => none
  | [(part, _)] => if part = ['/'] then none else some []
  | _ :: (_, stop) :: _ => some (p.take stop)

/-- The name of the file or directory. -/
def fileName? (p : Text) : Option Text :=
  match (parts p).getLast? with
  | some (part, _) => if part = ['/'] ∨ part = ['.'] ∨ part = ['.', '.'] then none else some part
  | none => none

/-- What follows the last dot of the name, unless the name starts with that dot. -/
def extension? (p : Text) : Option Text :=
  (fileName? p).bind fun name =>
    match (name.splitOn '.').reverse with
    | e :: s :: rest => if s = [] ∧ rest = [] then none else some e
    | _ => none

/-- The path, its parent, the parent's parent and so on. -/
def ancestorsFrom (fuel : Nat) (p : Text) : List Text :=
  match fuel with
  | 0 => [p]
  | fuel + 1 =>
    match parent? p with
    | some q => p :: ancestorsFrom fuel q
    | none => [p]

def ancestors (p : Text) : List Text := ancestorsFrom (p.length + 1) p

end PhpGraft.Path
