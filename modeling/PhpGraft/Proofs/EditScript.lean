import PhpGraft.Diff

/-!
What an edit script deletes and inserts. The search for a script deletes and inserts nothing
exactly when the lines it compares agree, and moving runs about changes no count. As the lines of a
text put together are the text, a diff is empty exactly when the two texts are equal.
-/
namespace PhpGraft.Diff

/-! ### Lines that agree -/

namespace Lines

variable {l : Lines}

/-- The `n` lines from `i` on in the old list are those from `j` on in the new one. -/
def Agree (l : Lines) (i j n : Nat) : Prop := ∀ k < n, l.old[i + k]? = l.new[j + k]?

theorem agree_zero (i j : Nat) : l.Agree i j 0 := by
  intro k hk
  omega

theorem agree_add {i j m n : Nat} :
    l.Agree i j (m + n) ↔ l.Agree i j m ∧ l.Agree (i + m) (j + m) n := by
  constructor
  · intro h
    constructor
    · intro k hk
      exact h k (by omega)
    · intro k hk
      simpa only [Nat.add_assoc] using h (m + k) (by omega)
  · intro ⟨hm, hn⟩ k hk
    by_cases h : k < m
    · exact hm k h
    · have := hn (k - m) (by omega)
      rwa [show i + m + (k - m) = i + k by omega, show j + m + (k - m) = j + k by omega] at this

theorem agreeDown_le (i j fuel : Nat) : l.agreeDown i j fuel ≤ fuel := by
  fun_induction agreeDown l i j fuel <;> omega

theorem agree_agreeDown (i j fuel : Nat) : l.Agree i j (l.agreeDown i j fuel) := by
  fun_induction agreeDown l i j fuel with
  | case1 => exact agree_zero _ _
  | case2 i j fuel heq ih =>
    rw [Nat.add_comm, agree_add]
    constructor
    · intro k hk
      simpa [show k = 0 by omega] using heq
    · exact ih
  | case3 => exact agree_zero _ _

theorem Agree.agreeDown_eq {i j fuel : Nat} (h : l.Agree i j fuel) :
    l.agreeDown i j fuel = fuel := by
  induction fuel generalizing i j with
  | zero => simp [agreeDown]
  | succ fuel ih =>
    rw [Nat.add_comm, agree_add] at h
    have heq := h.1 0 (by omega)
    simp only [Nat.add_zero] at heq
    simp [agreeDown, heq, ih h.2]

theorem agreeUp_le (i j fuel : Nat) : l.agreeUp i j fuel ≤ fuel := by
  fun_induction agreeUp l i j fuel <;> omega

theorem agree_agreeUp {i j fuel : Nat} (hi : fuel ≤ i) (hj : fuel ≤ j) :
    l.Agree (i - l.agreeUp i j fuel) (j - l.agreeUp i j fuel) (l.agreeUp i j fuel) := by
  fun_induction agreeUp l i j fuel with
  | case1 => exact agree_zero _ _
  | case2 i j fuel heq ih =>
    have hle := agreeUp_le (l := l) (i - 1) (j - 1) fuel
    have ih := ih (by omega) (by omega)
    rw [agree_add, show i - (l.agreeUp (i - 1) (j - 1) fuel + 1)
      = i - 1 - l.agreeUp (i - 1) (j - 1) fuel by omega,
      show j - (l.agreeUp (i - 1) (j - 1) fuel + 1)
      = j - 1 - l.agreeUp (i - 1) (j - 1) fuel by omega]
    constructor
    · exact ih
    · intro k hk
      simpa [show k = 0 by omega, Nat.sub_add_cancel, show l.agreeUp (i - 1) (j - 1) fuel ≤ i - 1 by
        omega, show l.agreeUp (i - 1) (j - 1) fuel ≤ j - 1 by omega] using heq
  | case3 => exact agree_zero _ _

end Lines

/-! ### How many lines of a kind runs have -/

/-- The number of lines in the runs of a kind. -/
def total (tag : Tag) (rs : List Run) : Nat :=
  (rs.filter (·.tag == tag)).foldr (fun r n => r.size + n) 0

section Total

variable {tag : Tag} {r : Run} {rs ss : List Run}

@[simp] theorem total_nil : total tag [] = 0 := by simp [total]

@[simp] theorem total_cons :
    total tag (r :: rs) = (if r.tag = tag then r.size else 0) + total tag rs := by
  by_cases h : r.tag = tag <;> simp [total, h]

@[simp] theorem total_append : total tag (rs ++ ss) = total tag rs + total tag ss := by
  induction rs with
  | nil => simp
  | cons r rs ih => simp [ih, Nat.add_assoc]

@[simp] theorem total_reverse : total tag rs.reverse = total tag rs := by
  induction rs with
  | nil => simp
  | cons r rs ih => simp [ih, Nat.add_comm]

@[simp] theorem total_nonempty :
    total tag r.nonempty = if r.tag = tag then r.size else 0 := by
  unfold Run.nonempty
  split <;> simp_all

end Total

/-! ### Moving keeps the counts -/

namespace Moving

variable {l : Lines} {tag : Tag}

/-- The number of lines of a kind in a run that is being moved and in those around it. -/
def total (tag : Tag) (m : Moving) : Nat :=
  Diff.total tag m.before + Diff.total tag [m.run] + Diff.total tag m.after

theorem total_up (h : tag ≠ .equal) (m : Moving) : (m.up l).total tag = m.total tag := by
  fun_induction up l m <;> grind [total, total_cons, total_nil]

theorem total_down (h : tag ≠ .equal) (m : Moving) : (m.down l).total tag = m.total tag := by
  fun_induction down l m <;> grind [total, total_cons, total_nil]

end Moving

variable {l : Lines}

theorem total_settle {tag kind : Tag} (h : tag ≠ .equal) (done runs : List Run) :
    total tag (settle l kind done runs) = total tag done + total tag runs := by
  fun_induction settle l kind done runs with
  | case1 => simp
  | case2 done r rs _ m ih =>
    have hm : m.total tag = (Moving.mk done r rs).total tag := by
      rw [Moving.total_down h, Moving.total_up h]
    simp only [Moving.total, total_cons, total_nil] at hm
    simp only [ih, total_cons]
    omega
  | case3 done r rs _ ih =>
    simp only [ih, total_cons]
    omega

/-! ### Boxes that hold the same lines -/

namespace Box

variable {x : Box}

structure Ordered (x : Box) : Prop where
  rows : x.a ≤ x.b
  columns : x.c ≤ x.d

/-- The two ranges of a box hold the same lines. -/
def Same (l : Lines) (x : Box) : Prop := x.height = x.width ∧ l.Agree x.a x.c x.height

theorem same_empty (a c : Nat) : (Box.mk a a c c).Same l := by
  simp only [Same, height, width, Nat.sub_self, true_and]
  apply Lines.agree_zero

/-- The parts of a box that is split at a point inside of it hold the same lines together. -/
theorem same_of_parts {a b c d i j : Nat} (ha : a ≤ i) (hb : i ≤ b) (hc : c ≤ j) (hd : j ≤ d)
    (h : (Box.mk a i c j).Same l) (h' : (Box.mk i b j d).Same l) : (Box.mk a b c d).Same l := by
  simp only [Same, height, width] at *
  constructor
  · omega
  · rw [show b - a = i - a + (b - i) by omega, Lines.agree_add,
      show a + (i - a) = i by omega, show c + (i - a) = j by omega]
    exact ⟨h.2, h'.2⟩

/-- A box without what its ranges have in common in front. -/
def withoutLead (l : Lines) (x : Box) : Box :=
  let p := l.lead x.a x.b x.c x.d
  ⟨x.a + p, x.b, x.c + p, x.d⟩

/-- A box without what its ranges have in common at their ends. -/
def withoutTrail (l : Lines) (x : Box) : Box :=
  let s := l.trail x.a x.b x.c x.d
  ⟨x.a, x.b - s, x.c, x.d - s⟩

theorem lead_le (l : Lines) (x : Box) : l.lead x.a x.b x.c x.d ≤ min (x.b - x.a) (x.d - x.c) :=
  Lines.agreeDown_le ..

theorem trail_le (l : Lines) (x : Box) : l.trail x.a x.b x.c x.d ≤ min (x.b - x.a) (x.d - x.c) :=
  Lines.agreeUp_le ..

theorem Ordered.withoutLead (hx : x.Ordered) : (x.withoutLead l).Ordered := by
  obtain ⟨hab, hcd⟩ := hx
  have hle := x.lead_le l
  constructor <;> simp only [Box.withoutLead] <;> omega

theorem Ordered.withoutTrail (hx : x.Ordered) : (x.withoutTrail l).Ordered := by
  obtain ⟨hab, hcd⟩ := hx
  have hle := x.trail_le l
  constructor <;> simp only [Box.withoutTrail] <;> omega

theorem Same.of_withoutLead (hx : x.Ordered) (h : (x.withoutLead l).Same l) : x.Same l := by
  obtain ⟨hab, hcd⟩ := hx
  have hle := x.lead_le l
  have front : l.Agree x.a x.c (l.lead x.a x.b x.c x.d) := Lines.agree_agreeDown _ _ _
  apply same_of_parts (by omega) (by omega) (by omega) (by omega) _ h
  simpa [Same, height, width] using front

theorem Same.of_withoutTrail (hx : x.Ordered) (h : (x.withoutTrail l).Same l) : x.Same l := by
  obtain ⟨hab, hcd⟩ := hx
  have hle := x.trail_le l
  have back : l.Agree (x.b - l.trail x.a x.b x.c x.d) (x.d - l.trail x.a x.b x.c x.d)
      (l.trail x.a x.b x.c x.d) := Lines.agree_agreeUp (by omega) (by omega)
  apply same_of_parts (by omega) (by omega) (by omega) (by omega) h
  simp only [Same, height, width]
  constructor
  · omega
  · rwa [Nat.sub_sub_self (by omega)]

/-- Ranges with the same lines have all of them in common in front. -/
theorem Same.lead_eq (h : x.Same l) : l.lead x.a x.b x.c x.d = x.height := by
  obtain ⟨hsize, hagree⟩ := h
  simp only [height, width] at hsize hagree ⊢
  rw [Lines.lead, ← hsize, Nat.min_self]
  exact hagree.agreeDown_eq

/-- Nothing is left of a box without what its ranges have in common in front and at their ends
exactly when they hold the same lines. -/
theorem same_iff (hx : x.Ordered) :
    x.Same l ↔ let y := (x.withoutLead l).withoutTrail l; y.a = y.b ∧ y.c = y.d := by
  have hy := hx.withoutLead (l := l) |>.withoutTrail (l := l)
  constructor
  · intro h
    have hlead := h.lead_eq
    have hsize := h.1
    obtain ⟨hab, hcd⟩ := hx
    obtain ⟨hab', hcd'⟩ := hy
    simp only [withoutLead, withoutTrail, hlead, height, width] at *
    omega
  · intro ⟨ha, hc⟩
    apply Same.of_withoutLead hx
    apply Same.of_withoutTrail hx.withoutLead
    generalize (x.withoutLead l).withoutTrail l = y at ha hc
    obtain ⟨a, b, c, d⟩ := y
    simp only at ha hc
    subst ha hc
    exact same_empty a c

theorem le_of_split? {i j : Nat} (h : x.split? l = some (i, j)) :
    (x.a ≤ i ∧ i ≤ x.b) ∧ x.c ≤ j ∧ j ≤ x.d := by
  simp only [split?, Option.filter_eq_some_iff, Bool.and_eq_true, decide_eq_true_eq] at h
  omega

end Box

/-! ### The search -/

/-- The lines that runs delete and insert. -/
def changes (rs : List Run) : Nat := total .delete rs + total .insert rs

theorem changes_append_eq_zero {rs ss : List Run} :
    changes (rs ++ ss) = 0 ↔ changes rs = 0 ∧ changes ss = 0 := by
  simp only [changes, total_append]
  omega

/-- The search deletes and inserts nothing exactly when the lines agree. -/
theorem changes_search {x : Box} (hx : x.Ordered) : changes (search l x) = 0 ↔ x.Same l := by
  fun_induction search l x with
  | case1 x p a c s b d inner ih ih' =>
    have hy : (Box.mk a b c d).Ordered := hx.withoutLead.withoutTrail
    have hsame : x.Same l ↔ a = b ∧ c = d := Box.same_iff hx
    have hinner : changes inner = 0 ↔ a = b ∧ c = d := by
      obtain ⟨hab, hcd⟩ := hy
      simp only at hab hcd
      by_cases h : a = b ∨ c = d
      · -- one range is used up, and what is left of the other is changed as a whole
        simp only [inner, h, dif_pos, changes, total_append, total_nonempty]
        simp
        omega
      · simp only [inner, h, dif_neg, not_false_eq_true]
        split
        next => simp [changes]; omega
        next i j hsplit =>
          obtain ⟨⟨hi, hi'⟩, hj, hj'⟩ := Box.le_of_split? hsplit
          constructor
          · -- parts without changes would be one more stretch that the ends have in common
            intro h0
            rw [changes_append_eq_zero, ih i j hsplit ⟨hi, hj⟩, ih' i j hsplit ⟨hi', hj'⟩] at h0
            rw [← hsame]
            apply Box.Same.of_withoutLead hx
            apply Box.Same.of_withoutTrail hx.withoutLead
            exact Box.same_of_parts hi hi' hj hj' h0.1 h0.2
          · omega
    rw [hsame, ← hinner]
    simp [changes]

/-- A script deletes and inserts nothing exactly when there is nothing to change. -/
theorem changes_script (old new : List Text) : changes (script old new) = 0 ↔ old = new := by
  have hsettle : changes (script old new)
      = changes (search ⟨old.toArray, new.toArray⟩ ⟨0, old.length, 0, new.length⟩) := by
    simp [changes, script, total_settle]
  have hx : (Box.mk 0 old.length 0 new.length).Ordered := ⟨by simp, by simp⟩
  rw [hsettle, changes_search hx]
  simp only [Box.Same, Box.height, Box.width, Lines.Agree, Nat.sub_zero, Nat.zero_add,
    List.getElem?_toArray]
  constructor
  · intro ⟨hsize, hagree⟩
    apply List.ext_getElem?
    intro k
    by_cases hk : k < old.length
    · exact hagree k hk
    · rw [List.getElem?_eq_none (by omega), List.getElem?_eq_none (by omega)]
  · intro h
    simp [h]

/-! ### The lines of a text -/

theorem flatten_linesFrom (line t : Text) : (linesFrom line t).flatten = line.reverse ++ t := by
  fun_induction linesFrom line t <;> simp_all

theorem flatten_lines (t : Text) : (lines t).flatten = t := by
  simp [lines, flatten_linesFrom]

theorem lines_inj {s t : Text} : lines s = lines t ↔ s = t := by
  constructor
  · intro h
    rw [← flatten_lines s, h, flatten_lines]
  · intro h
    rw [h]

end PhpGraft.Diff

namespace PhpGraft.FileDiff

open Diff

variable {path old new : Text} {context : Nat}

theorem ofTexts_self (path t : Text) (context : Nat) : ofTexts path t t context = ⟨[], {}⟩ := by
  have h : changes (script (lines t) (lines t)) = 0 := by simp [changes_script]
  simp only [changes, total] at h
  simp only [ofTexts]
  rw [if_pos (by omega)]

theorem ofTexts_of_ne (path : Text) (context : Nat) (h : old ≠ new) :
    (ofTexts path old new context).stats.files = 1
      ∧ (ofTexts path old new context).text.head? = some '-' := by
  have h : changes (script (lines old) (lines new)) ≠ 0 := by simp [changes_script, lines_inj, h]
  simp only [changes, total] at h
  simp only [ofTexts]
  rw [if_neg (by omega)]
  simp

/-- The diff is empty exactly when the text did not change. -/
theorem isEmpty_stats_iff : (ofTexts path old new context).stats.isEmpty ↔ old = new := by
  by_cases h : old = new
  · simp [h, ofTexts_self, Stats.isEmpty]
  · simp [h, ofTexts_of_ne, Stats.isEmpty]

theorem text_eq_nil_iff : (ofTexts path old new context).text = [] ↔ old = new := by
  by_cases h : old = new
  · simp [h, ofTexts_self]
  · have hhead := (ofTexts_of_ne path context h).2
    simp only [h, iff_false]
    intro hnil
    simp [hnil] at hhead

end PhpGraft.FileDiff
