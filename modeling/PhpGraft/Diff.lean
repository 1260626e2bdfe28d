import PhpGraft.Diff.Script

/-!
Unified diffs of a file before and after editing, with counts of the lines that changed.
-/
namespace PhpGraft.Diff

/-- A text as its lines, each with the line break that ends it. -/
def linesFrom (line : Text) : Text → List Text
  | [] => if line.isEmpty then [] else [line.reverse]
  | '\r' :: '\n' :: t => ('\n' :: '\r' :: line).reverse :: linesFrom [] t
  | c :: t =>
    if c = '\n' ∨ c = '\r' then (c :: line).reverse :: linesFrom [] t
    else linesFrom (c :: line) t

def lines (t : Text) : List Text := linesFrom [] t

/-- Lines that are kept, or that are exchanged for others. -/
inductive Block where
  | kept (old new size : Nat)
  | changed (deleted? inserted? : Option Run)
  deriving DecidableEq, Repr

namespace Block

def joinRuns (r : Run) : Option Run → Run
  | some s => { r with size := r.size + s.size }
  | none => r

/-- Runs that follow each other make one block if all of them are kept or none is. -/
def ofRuns : List Run → List Block
  | [] => []
  | r :: rs =>
    match r.tag, ofRuns rs with
    | .equal, kept _ _ size :: bs => kept r.old r.new (r.size + size) :: bs
    | .equal, bs => kept r.old r.new r.size :: bs
    | .delete, changed d? i? :: bs => changed (joinRuns r d?) i? :: bs
    | .delete, bs => changed r none :: bs
    | .insert, changed d? i? :: bs => changed d? (joinRuns r i?) :: bs
    | .insert, bs => changed none r :: bs

/-- Start and size of the lines in the old text. -/
def oldRange : Block → Nat × Nat
  | kept old _ size => (old, size)
  | changed (some d) _ => (d.old, d.size)
  | changed none (some i) => (i.old, 0)
  | changed none none => (0, 0)

def newRange : Block → Nat × Nat
  | kept _ new size => (new, size)
  | changed _ (some i) => (i.new, i.size)
  | changed (some d) none => (d.new, 0)
  | changed none none => (0, 0)

/-- The last `n` lines of a block that is kept. -/
def last (n : Nat) : Block → Block
  | kept old new size => kept (old + (size - n)) (new + (size - n)) (min size n)
  | b => b

/-- The first `n` lines of a block that is kept. -/
def first (n : Nat) : Block → Block
  | kept old new size => kept old new (min size n)
  | b => b

/-- Splits the blocks at those that keep more than `2 * n` lines. -/
def groups (n : Nat) : List Block → List (List Block)
  | [] => [[]]
  | b :: bs =>
    let gs := groups n bs
    let extended := match gs with
      | g :: gs => (b :: g) :: gs
      | [] => [[b]]
    match b with
    | kept _ _ size =>
      if 2 * n < size then
        match gs with
        | g :: gs => [b.first n] :: (b.last n :: g) :: gs
        | [] => [[b.first n]]
      else extended
    | _ => extended

def isKept : Block → Bool
  | kept .. => true
  | _ => false

/-- The groups of a diff with `n` lines of context. -/
def hunks (n : Nat) (bs : List Block) : List (List Block) :=
  let bs := match bs with
    | b :: bs => b.last n :: bs
    | [] => []
  let bs := match bs.reverse with
    | b :: bs => (b.first n :: bs).reverse
    | [] => []
  let gs := groups n bs
  match gs.getLast? with
  | some [] => gs.dropLast
  | some [b] => if b.isKept then gs.dropLast else gs
  | _ => gs

end Block

def range (start stop : Nat) : Text :=
  let size := stop - start
  if size = 1 then (toString (start + 1)).toList
  else if size = 0 then s!"{start},0".toList
  else s!"{start + 1},{size}".toList

def printLine (sign : Char) (line : Text) : Text :=
  let ended := line.getLast?.any fun c => c == '\n' || c == '\r'
  sign :: line ++ (if ended then [] else "\n\\ No newline at end of file\n")

def printLines (sign : Char) (ls : List Text) (r : Nat × Nat) : Text :=
  ((ls.drop r.1).take r.2).flatMap (printLine sign)

def Block.print (old new : List Text) (b : Block) : Text :=
  match b with
  | .kept .. => printLines ' ' old b.oldRange
  | .changed .. => printLines '-' old b.oldRange ++ printLines '+' new b.newRange

def printHunk (old new : List Text) (bs : List Block) : Text :=
  let body := bs.flatMap (Block.print old new)
  if body.isEmpty then []
  else
    let span (f : Block → Nat × Nat) : Text :=
      range ((bs.head?.map f).getD (0, 0)).1 ((bs.getLast?.map fun b => (f b).1 + (f b).2).getD 0)
    "@@ -" ++ span Block.oldRange ++ " +" ++ span Block.newRange ++ " @@\n" ++ body

structure Stats where
  files : Nat := 0
  added : Nat := 0
  removed : Nat := 0
  deriving DecidableEq, Repr

namespace Stats

def isEmpty (s : Stats) : Bool := s.files == 0

def add (s t : Stats) : Stats := ⟨s.files + t.files, s.added + t.added, s.removed + t.removed⟩

def print (s : Stats) : Text :=
  let plural := if s.files = 1 then "" else "s"
  s!"{s.files} file{plural} changed, {s.added} insertions(+), {s.removed} deletions(-)".toList

end Stats

end PhpGraft.Diff

namespace PhpGraft

structure FileDiff where
  text : Text
  stats : Diff.Stats
  deriving Repr

open Diff in
/-- The diff of a file with this many unchanged lines around each change; it is empty for a file
that did not change. -/
def FileDiff.ofTexts (path old new : Text) (context : Nat) : FileDiff :=
  let olds := lines old
  let news := lines new
  let runs := script olds news
  let size (tag : Tag) : Nat := (runs.filter (·.tag == tag)).foldr (fun r n => r.size + n) 0
  if size .insert = 0 ∧ size .delete = 0 then ⟨[], {}⟩
  else
    let hunks := Block.hunks context (Block.ofRuns runs)
    ⟨"--- a/" ++ path ++ "\n+++ b/" ++ path ++ "\n" ++ hunks.flatMap (printHunk olds news),
      ⟨1, size .insert, size .delete⟩⟩

end PhpGraft
