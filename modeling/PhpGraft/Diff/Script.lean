import PhpGraft.Text

/-!
The difference of two lists of lines as a script of runs that are kept, deleted or inserted. The
search meets in the middle of a shortest script; runs are then moved up and down to where they join
others of their kind.
-/
namespace PhpGraft.Diff

inductive Tag where
  | equal | delete | insert
  deriving DecidableEq, Repr

/-- `size` lines from `old` on in the old list, or from `new` on in the new one, or in both. -/
structure Run where
  tag : Tag
  old : Nat
  new : Nat
  size : Nat
  deriving DecidableEq, Repr

/-- The lists that are compared. -/
structure Lines where
  old : Array Text
  new : Array Text

namespace Lines

/-- How many lines from `i` and `j` on agree, at most `fuel`. -/
def agreeDown (l : Lines) (i j fuel : Nat) : Nat :=
  match fuel with
  | 0 => 0
  | fuel + 1 =>
    if l.old[i]? == l.new[j]? then agreeDown l (i + 1) (j + 1) fuel + 1 else 0

/-- How many lines before `i` and `j` agree, at most `fuel`. -/
def agreeUp (l : Lines) (i j fuel : Nat) : Nat :=
  match fuel with
  | 0 => 0
  | fuel + 1 =>
    if l.old[i - 1]? == l.new[j - 1]? then agreeUp l (i - 1) (j - 1) fuel + 1 else 0

/-- Length of what the ranges `a..b` and `c..d` have in common in front. -/
def lead (l : Lines) (a b c d : Nat) : Nat := l.agreeDown a c (min (b - a) (d - c))

/-- Length of what they have in common at their ends. -/
def trail (l : Lines) (a b c d : Nat) : Nat := l.agreeUp b d (min (b - a) (d - c))

end Lines

/-- Furthest reach on each diagonal, which counts from `-offset` on. -/
structure Frontier where
  offset : Nat
  reach : Array Nat

namespace Frontier

def init (n : Nat) : Frontier := ⟨n, Array.replicate (2 * n + 1) 0⟩

def get (f : Frontier) (k : Int) : Nat := f.reach.getD (k + f.offset).toNat 0

def set (f : Frontier) (k : Int) (x : Nat) : Frontier :=
  { f with reach := f.reach.setIfInBounds (k + f.offset).toNat x }

/-- Where diagonal `k` is entered in round `d`. -/
def enter (f : Frontier) (d : Nat) (k : Int) : Nat :=
  if k = -d ∨ (k ≠ d ∧ f.get (k - 1) < f.get (k + 1)) then f.get (k + 1) else f.get (k - 1) + 1

end Frontier

/-- The ranges under comparison: `a..b` of the old lines, `c..d` of the new ones. -/
structure Box where
  a : Nat
  b : Nat
  c : Nat
  d : Nat

namespace Box

def height (x : Box) : Nat := x.b - x.a

def width (x : Box) : Nat := x.d - x.c

/-- The diagonal that ends in the far corner. -/
def delta (x : Box) : Int := (x.height : Int) - x.width

def size (x : Box) : Nat := x.height + x.width

/-- One forward round on the diagonals `k`, `k - 2` and so on, `count` of them; a point where the
backward frontier is met ends it. -/
def forward (l : Lines) (x : Box) (round : Nat) (back : Frontier) (count : Nat) (k : Int)
    (front : Frontier) : Frontier × Option (Nat × Nat) :=
  match count with
  | 0 => (front, none)
  | count + 1 =>
    let i := front.enter round k
    let j := ((i : Int) - k).toNat
    let snake :=
      if i < x.height ∧ j < x.width then l.lead (x.a + i) x.b (x.c + j) x.d else 0
    let front := front.set k (i + snake)
    if x.delta % 2 ≠ 0 ∧ (k - x.delta).natAbs + 1 ≤ round ∧
        x.height ≤ i + snake + back.get (x.delta - k) then
      (front, some (x.a + i, x.c + j))
    else forward l x round back count (k - 2) front

def backward (l : Lines) (x : Box) (round : Nat) (front : Frontier) (count : Nat) (k : Int)
    (back : Frontier) : Frontier × Option (Nat × Nat) :=
  match count with
  | 0 => (back, none)
  | count + 1 =>
    let i := back.enter round k
    let j := ((i : Int) - k).toNat
    let snake :=
      if i < x.height ∧ j < x.width then
        l.trail x.a (x.a + x.height - i) x.c (x.c + x.width - j)
      else 0
    let back := back.set k (i + snake)
    if x.delta % 2 = 0 ∧ (k - x.delta).natAbs ≤ round ∧
        x.height ≤ i + snake + front.get (x.delta - k) then
      (back, some (x.a + x.height - (i + snake), x.c + x.width - (j + snake)))
    else backward l x round front count (k - 2) back

/-- Where to split the box: a point on a shortest script, found from both corners in turn. -/
def middle? (l : Lines) (x : Box) (fuel round : Nat) (front back : Frontier) :
    Option (Nat × Nat) :=
  match fuel with
  | 0 => none
  | fuel + 1 =>
    let (front, met?) := forward l x round back (round + 1) round front
    match met? with
    | some p => some p
    | none =>
      let (back, met?) := backward l x round front (round + 1) round back
      match met? with
      | some p => some p
      | none => middle? l x fuel (round + 1) front back

/-- The upper left and the lower right part of a box that is split at a point inside of it; the
box as a whole has no middle if the point leaves one part as large as the box. -/
def split? (l : Lines) (x : Box) : Option (Nat × Nat) :=
  let rounds := (x.size + 1) / 2 + 1
  (middle? l x rounds 0 (.init (x.size + 2)) (.init (x.size + 2))).filter fun (i, j) =>
    x.a ≤ i && i ≤ x.b && x.c ≤ j && j ≤ x.d && !(i == x.a && j == x.c) && !(i == x.b && j == x.d)

end Box

def Run.nonempty (r : Run) : List Run := if r.size = 0 then [] else [r]

/-- The runs of a box: what its ends have in common, and between them the runs of its two parts. -/
def search (l : Lines) (x : Box) : List Run :=
  let p := l.lead x.a x.b x.c x.d
  let a := x.a + p
  let c := x.c + p
  let s := l.trail a x.b c x.d
  let b := x.b - s
  let d := x.d - s
  let inner : List Run :=
    if a = b ∨ c = d then
      (Run.mk .delete a c (b - a)).nonempty ++ (Run.mk .insert a c (d - c)).nonempty
    else match h : Box.split? l ⟨a, b, c, d⟩ with
      | none => [⟨.delete, a, c, b - a⟩, ⟨.insert, b, c, d - c⟩]
      | some (i, j) =>
        have : (i - a) + (j - c) < (x.b - x.a) + (x.d - x.c) ∧
            (b - i) + (d - j) < (x.b - x.a) + (x.d - x.c) := by
          simp only [Box.split?, Option.filter_eq_some_iff, Bool.and_eq_true,
            decide_eq_true_eq, Bool.not_eq_true', Bool.and_eq_false_iff, beq_eq_false_iff_ne] at h
          omega
        search l ⟨a, i, c, j⟩ ++ search l ⟨i, b, j, d⟩
  (Run.mk .equal x.a x.c p).nonempty ++ inner ++ (Run.mk .equal b d s).nonempty
termination_by (x.b - x.a) + (x.d - x.c)
decreasing_by all_goals simp only [p, a, c, s, b, d] at *; omega

/-- The lines of runs, with one more for each run. -/
def weight (rs : List Run) : Nat := rs.foldr (fun r n => r.size + 1 + n) 0

/-- A run that is being moved, the runs before it, nearest first, and the runs after it. -/
structure Moving where
  before : List Run
  run : Run
  after : List Run

namespace Moving

/-- Moves the run up: over lines kept that end as the run does, over runs of the other kind, and
into a run of its own kind. -/
def up (l : Lines) (m : Moving) : Moving :=
  match _h : m.before with
  | [] => m
  | p :: before =>
    if p.tag = .equal then
      let k :=
        if m.run.tag = .delete then 0
        else l.trail p.old (p.old + p.size) m.run.new (m.run.new + m.run.size)
      if _ : k = 0 then m
      else
        let run := { m.run with old := m.run.old - k, new := m.run.new - k }
        let after := match m.after with
          | q :: after =>
            if q.tag = .equal then
              { q with old := q.old - k, new := q.new - k, size := q.size + k } :: after
            else ⟨.equal, p.old + p.size - k, m.run.new + m.run.size - k, k⟩ :: m.after
          | [] => [⟨.equal, p.old + p.size - k, m.run.new + m.run.size - k, k⟩]
        if _ : p.size ≤ k then up l ⟨before, run, after⟩
        else up l ⟨{ p with size := p.size - k } :: before, run, after⟩
    else if p.tag ≠ m.run.tag then up l ⟨before, m.run, p :: m.after⟩
    else up l ⟨before, { p with size := p.size + m.run.size }, m.after⟩
termination_by weight m.before
decreasing_by all_goals (simp only [_h, weight, List.foldr_cons]; omega)

/-- Moves the run down, likewise. -/
def down (l : Lines) (m : Moving) : Moving :=
  match _h : m.after with
  | [] => m
  | q :: after =>
    if q.tag = .equal then
      let k :=
        if m.run.tag = .delete then 0
        else l.lead q.old (q.old + q.size) m.run.new (m.run.new + m.run.size)
      if _ : k = 0 then m
      else
        let run := { m.run with old := m.run.old + k, new := m.run.new + k }
        let before := match m.before with
          | p :: before =>
            if p.tag = .equal then { p with size := p.size + k } :: before
            else ⟨.equal, q.old, m.run.new, k⟩ :: m.before
          | [] => [⟨.equal, q.old, m.run.new, k⟩]
        if _ : q.size ≤ k then down l ⟨before, run, after⟩
        else
          down l ⟨before, run,
            { q with old := q.old + k, new := q.new + k, size := q.size - k } :: after⟩
    else if q.tag ≠ m.run.tag then down l ⟨q :: m.before, m.run, after⟩
    else down l ⟨m.before, { m.run with size := m.run.size + q.size }, after⟩
termination_by weight m.after
decreasing_by all_goals (simp only [_h, weight, List.foldr_cons]; omega)

def ofTag (tag : Tag) (rs : List Run) : Nat := rs.countP (·.tag == tag)

theorem up_tag (l : Lines) (m : Moving) : (m.up l).run.tag = m.run.tag := by
  fun_induction up l m <;> grind

theorem up_after (l : Lines) (m : Moving) (h : m.run.tag ≠ .equal) :
    ofTag m.run.tag (m.up l).after = ofTag m.run.tag m.after := by
  fun_induction up l m <;> grind [ofTag]

theorem down_after (l : Lines) (m : Moving) (h : m.run.tag ≠ .equal) :
    ofTag m.run.tag (m.down l).after ≤ ofTag m.run.tag m.after := by
  fun_induction down l m <;> grind [ofTag]

end Moving

/-- Moves every run of a kind up and then down, one after the other. -/
def settle (l : Lines) (tag : Tag) (done : List Run) (runs : List Run) : List Run :=
  match runs with
  | [] => done.reverse
  | r :: rs =>
    if _ : r.tag = tag ∧ tag ≠ .equal then
      let m := (Moving.up l ⟨done, r, rs⟩).down l
      settle l tag (m.run :: m.before) m.after
    else settle l tag (r :: done) rs
termination_by (Moving.ofTag tag runs, runs.length)
decreasing_by
  · have h : (Moving.mk done r rs).run.tag ≠ .equal := by simp_all
    have := Moving.up_after l ⟨done, r, rs⟩ h
    have := Moving.down_after l (Moving.up l ⟨done, r, rs⟩) (by rw [Moving.up_tag]; exact h)
    rw [Moving.up_tag] at this
    simp_all only [Moving.ofTag, List.countP_cons_of_pos, beq_self_eq_true]
    exact Prod.Lex.left _ _ (by omega)
  · simp only [Moving.ofTag, List.countP_cons, List.length_cons]
    split
    · exact Prod.Lex.left _ _ (by omega)
    · exact Prod.Lex.right _ (by omega)

/-- The script that turns the old lines into the new ones. -/
def script (old new : List Text) : List Run :=
  let l : Lines := ⟨old.toArray, new.toArray⟩
  let runs := search l ⟨0, old.length, 0, new.length⟩
  settle l .insert [] (settle l .delete [] runs)

end PhpGraft.Diff
