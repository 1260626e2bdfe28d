import PhpGraft.Proofs.Nesting

/-!
Brackets of declarations are closed, so the search for the brace that closes a namespace passes over
its declarations.
-/
namespace PhpGraft.Tokens

variable {ts : Tokens} {first i j k n stop : Nat} {b : Bracket}

/-- A search that is inside of a bracket at `i` goes on at `j` with the same brackets open. -/
def Balanced (ts : Tokens) (i j : Nat) : Prop :=
  ∀ opened first stop stack, j ≤ stop → stack ≠ [] →
    ts.matchingFrom opened first stop stack i = ts.matchingFrom opened first stop stack j

theorem Balanced.refl (ts : Tokens) (i : Nat) : ts.Balanced i i := fun _ _ _ _ _ _ => rfl

theorem Balanced.trans (h : ts.Balanced i j) (h' : ts.Balanced j k) (hjk : j ≤ k) : ts.Balanced i k :=
  fun opened first stop stack hs hne =>
    (h opened first stop stack (Nat.le_trans hjk hs) hne).trans (h' opened first stop stack hs hne)

theorem balanced_succ (h : ts.NoBracket i) : ts.Balanced i (i + 1) := by
  intro opened first stop stack hs _
  rw [matchingFrom, if_pos (Nat.lt_of_succ_le hs)]
  split
  · exact absurd ‹_› (h _).1
  · exact absurd ‹_› (h _).2
  · rfl

/-- A search passes over what closes the brackets on top of its stack. -/
theorem matchingFrom_of_closing {opened : Bracket} {stack base : List (Bracket × Nat)}
    (h : Closing (stack.map Prod.fst) (ts.brackets i j)) (hij : i ≤ j) (hj : j ≤ stop)
    (hb : base ≠ []) : ts.matchingFrom opened first stop (stack ++ base) i =
      ts.matchingFrom opened first stop base j := by
  induction hn : j - i generalizing i stack with
  | zero =>
    obtain rfl : i = j := by omega
    rw [brackets_self] at h
    obtain rfl := List.map_eq_nil_iff.1 h.of_nil
    rfl
  | succ n ih =>
    have hlt : i < j := by omega
    rw [matchingFrom, if_pos (Nat.lt_of_lt_of_le hlt hj)]
    split
    · rename_i b hd
      rw [brackets_opening hd hlt] at h
      have h : Closing (((b, i) :: stack).map Prod.fst) (ts.brackets (i + 1) j) := h.of_opener
      exact ih h hlt (by omega)
    · rename_i b hd
      rw [brackets_closing hd hlt] at h
      obtain ⟨bs, hstack, h⟩ := h.of_closer
      obtain ⟨⟨_, k⟩, rest, rfl, rfl, rfl⟩ := List.map_eq_cons_iff.1 hstack
      simp only [List.cons_append, close, if_true]
      rw [if_neg (by simp [hb])]
      exact ih h hlt (by omega)
    · rename_i hno hnc
      rw [brackets_other (fun b => ⟨hno b, hnc b⟩) hlt] at h
      exact ih h hlt (by omega)

theorem Nests.balanced (h : ts.Nests i j) (hij : i ≤ j) : ts.Balanced i j := by
  intro opened first stop base hj hne
  have h : Closing (([] : List (Bracket × Nat)).map Prod.fst) (ts.brackets i j) := .nil h
  exact matchingFrom_of_closing h hij hj hne

/-- White space, comments and what stands outside of code. -/
theorem balanced_of_plain (hij : i ≤ j) (h : ts.Plain i j) : ts.Balanced i j :=
  (nests_of_plain hij h).balanced hij

theorem balanced_matching (h : ts.matching b i stop = .ok n) : ts.Balanced i (n + 1) :=
  (nests_matching h).balanced (Nat.le_succ_of_le (matching_bounds h).1)

theorem balanced_statementEnd {block : Bool} (h : ts.statementEnd i stop block = .ok n) :
    ts.Balanced i n :=
  (nests_statementEnd h).balanced (Nat.le_of_lt (statementEnd_bounds h).1)

/-- Declarations one behind the other. -/
theorem balanced_items {braced : Bool} {ns : List Node} {last : Nat}
    (h : ts.Items (.scope braced) stop i ns last) : ts.Balanced i last :=
  (h.nests fun hs he => nests_entry_scope he hs).balanced h.le

/-- The brace behind what is balanced closes the one in front of it. -/
theorem matching_of_balanced {o c : Nat} (ho : ts.isPunct o '\x7b' = true)
    (hb : ts.Balanced (o + 1) c) (hc : ts.isPunct c '\x7d' = true) (hoc : o < c) (hs : c < stop) :
    ts.matching .curly o stop = .ok c := by
  have hclose : ts.delimiter? c = some (.closing .curly) := by
    rw [delimiter?, isPunct_iff.1 hc]
    rfl
  have hopen : ts.delimiter? o = some (.opening .curly) := delimiter?_opener (b := .curly) ho
  rw [matching, matchingFrom, if_pos (by omega), hopen]
  dsimp only
  rw [hb .curly o stop _ (Nat.le_of_lt hs) (List.cons_ne_nil _ _), matchingFrom, if_pos hs, hclose]
  rfl

end PhpGraft.Tokens
