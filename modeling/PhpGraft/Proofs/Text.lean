import PhpGraft.Text

/-!
What trimming leaves of a text: all between two characters that are not white space, and all but the
white space.
-/
namespace PhpGraft.Text

variable {c : Char} {s t u sep : Text} {ts : List Text}

theorem trimStart_append_cons (h : isWhite c = false) :
    trimStart (s ++ c :: t) = trimStart s ++ c :: t := by
  rw [trimStart, List.dropWhile_append, List.dropWhile_cons_of_neg (by simp [h])]
  split
  · rename_i hs
    rw [trimStart, List.isEmpty_iff.1 hs, List.nil_append]
  · rfl

theorem trimEnd_append_cons (h : isWhite c = false) :
    trimEnd (s ++ c :: t) = s ++ c :: trimEnd t := by
  have := trimStart_append_cons (s := t.reverse) (t := s.reverse) h
  unfold trimStart at this
  simp [trimEnd, this]

theorem isPrefix_trimEnd (t : Text) : trimEnd t <+: t := by
  rw [← List.reverse_suffix, trimEnd, List.reverse_reverse]
  exact List.dropWhile_suffix _

theorem isSuffix_trimStart (t : Text) : trimStart t <:+ t := List.dropWhile_suffix _

theorem mem_of_mem_trimStart (h : c ∈ trimStart t) : c ∈ t := (isSuffix_trimStart t).subset h

theorem mem_of_mem_trimEnd (h : c ∈ trimEnd t) : c ∈ t := (isPrefix_trimEnd t).subset h

theorem mem_of_mem_trim (h : c ∈ trim t) : c ∈ t :=
  mem_of_mem_trimStart (mem_of_mem_trimEnd h)

/-- Trimming keeps what starts with a visible character, up to a visible one. -/
theorem trim_append (hs : ∃ c u, s = c :: u ∧ isWhite c = false)
    (he : (∃ c, s.getLast? = some c ∧ isWhite c = false) ∨ ∃ c u, t = c :: u ∧ isWhite c = false) :
    ∃ v, v <+: t ∧ trim (u ++ s ++ t) = trimStart u ++ s ++ v := by
  obtain ⟨c, r, rfl, hc⟩ := hs
  have hstart : trimStart (u ++ c :: r ++ t) = trimStart u ++ (c :: r ++ t) := by
    rw [List.append_assoc, List.cons_append, trimStart_append_cons hc]
  rw [trim, hstart]
  rcases he with ⟨d, hd, hdw⟩ | ⟨d, v, rfl, hdw⟩
  · obtain ⟨q, hq⟩ := List.getLast?_eq_some_iff.1 hd
    refine ⟨trimEnd t, isPrefix_trimEnd t, ?_⟩
    rw [hq, List.append_assoc, List.singleton_append, ← List.append_assoc,
      trimEnd_append_cons hdw]
    simp
  · refine ⟨d :: trimEnd v, (List.prefix_cons_inj d).2 (isPrefix_trimEnd v), ?_⟩
    rw [← List.append_assoc, trimEnd_append_cons hdw]

/-- The text without its white space. -/
def solid (t : Text) : Text := t.filter (!isWhite ·)

@[simp] theorem solid_append (s t : Text) : (s ++ t).solid = s.solid ++ t.solid :=
  List.filter_append ..

theorem solid_eq_nil : t.solid = [] ↔ t.isBlank = true := by
  simp [solid, isBlank, List.filter_eq_nil_iff]

theorem solid_cons_white (h : isWhite c = true) : solid (c :: t) = t.solid :=
  List.filter_cons_of_neg (by simp [h])

theorem solid_ne_nil {c : Char} (h : isWhite c = false) : solid (c :: t) ≠ [] := by
  rw [solid, List.filter_cons_of_pos (by simp [h])]
  exact List.cons_ne_nil _ _

theorem solid_trimStart (t : Text) : t.trimStart.solid = t.solid := by
  conv => rhs; rw [← List.takeWhile_append_dropWhile (p := isWhite) (l := t)]
  rw [solid_append, solid_eq_nil.2 List.all_takeWhile]
  rfl

theorem solid_reverse (t : Text) : Text.solid t.reverse = t.solid.reverse := List.filter_reverse ..

theorem solid_trimEnd (t : Text) : t.trimEnd.solid = t.solid := by
  rw [trimEnd, solid_reverse, ← trimStart, solid_trimStart, solid_reverse, List.reverse_reverse]

@[simp] theorem solid_trim (t : Text) : t.trim.solid = t.solid := by
  rw [trim, solid_trimEnd, solid_trimStart]

/-! Splitting at a character. -/

theorem splitOn_of_not_mem (h : c ∉ s) : splitOn c s = [s] := by
  induction s with
  | nil => rfl
  | cons d s ih =>
    obtain ⟨hd, hs⟩ := not_or.1 (mt List.mem_cons.2 h)
    rw [splitOn, if_neg (Ne.symm hd), ih hs]

theorem splitOn_append (c : Char) (s t : Text) :
    splitOn c (s ++ c :: t) = splitOn c s ++ splitOn c t := by
  induction s with
  | nil => simp [splitOn]
  | cons d s ih =>
    rw [List.cons_append, splitOn, splitOn, ih]
    split
    · rfl
    · cases hs : splitOn c s with
      | nil => exact absurd hs (splitOn_ne_nil c s)
      | cons w ws => rfl

theorem splitOn_append_cons (h : c ∉ s) (t : Text) : splitOn c (s ++ c :: t) = s :: splitOn c t := by
  rw [splitOn_append, splitOn_of_not_mem h, List.singleton_append]

theorem not_mem_of_mem_splitOn (h : s ∈ splitOn c t) : c ∉ s := by
  induction t generalizing s with
  | nil =>
    rw [List.mem_singleton.1 h]
    exact List.not_mem_nil
  | cons d t ih =>
    rw [splitOn] at h
    split at h
    · rcases List.mem_cons.1 h with rfl | h
      · exact List.not_mem_nil
      · exact ih h
    · rename_i hd
      split at h
      · rw [List.mem_singleton.1 h, List.mem_singleton]
        exact Ne.symm hd
      · rename_i w ws hsplit
        rcases List.mem_cons.1 h with rfl | h
        · rw [List.mem_cons, not_or]
          exact ⟨Ne.symm hd, ih (hsplit ▸ List.mem_cons_self)⟩
        · exact ih (hsplit ▸ List.mem_cons_of_mem _ h)

/-- What stands behind a text without a separator of its own belongs to the last piece. -/
theorem splitOn_append_right (h : c ∉ s) (t : Text) :
    ∃ front last, splitOn c t = front ++ [last] ∧ splitOn c (t ++ s) = front ++ [last ++ s] := by
  induction t with
  | nil => exact ⟨[], [], rfl, splitOn_of_not_mem h⟩
  | cons d t ih =>
    obtain ⟨front, last, ht, hts⟩ := ih
    rw [List.cons_append, splitOn, splitOn, ht, hts]
    split
    · exact ⟨[] :: front, last, rfl, rfl⟩
    · cases front with
      | nil => exact ⟨[], d :: last, rfl, rfl⟩
      | cons w ws => exact ⟨(d :: w) :: ws, last, rfl, rfl⟩

/-! Joining. -/

/-- The first piece, and each of the others behind a separator. -/
theorem intercalate_cons {α : Type} (sep xs : List α) (xss : List (List α)) :
    sep.intercalate (xs :: xss) = xs ++ xss.flatMap (sep ++ ·) := by
  induction xss generalizing xs with
  | nil => rw [List.intercalate_singleton, List.flatMap_nil, List.append_nil]
  | cons ys xss ih =>
    rw [List.intercalate_cons_cons, ih, List.flatMap_cons, List.append_assoc, List.append_assoc]

theorem join_cons (sep s : Text) (ts : List Text) : join sep (s :: ts) = s ++ ts.flatMap (sep ++ ·) :=
  intercalate_cons sep s ts

theorem flatMap_join (h : ts ≠ []) : ts.flatMap (sep ++ ·) = sep ++ join sep ts := by
  obtain ⟨t, ts, rfl⟩ := List.exists_cons_of_ne_nil h
  rw [join_cons, List.flatMap_cons, List.append_assoc]

theorem splitOn_join (c : Char) (h : ts ≠ []) : splitOn c (join [c] ts) = ts.flatMap (splitOn c) := by
  obtain ⟨t, ts, rfl⟩ := List.exists_cons_of_ne_nil h
  induction ts generalizing t with
  | nil => rw [join_cons, List.flatMap_nil, List.append_nil, List.flatMap_singleton]
  | cons u ts ih =>
    rw [join_cons, flatMap_join (List.cons_ne_nil _ _), List.singleton_append, splitOn_append,
      ih u (List.cons_ne_nil _ _)]
    rfl

/-- What stands in front of a text without a separator of its own belongs to the first piece. -/
theorem splitOn_append_left (h : c ∉ s) (t : Text) :
    splitOn c (s ++ t) = (splitOn c t).modifyHead (s ++ ·) := by
  induction s with
  | nil => exact (congrFun List.modifyHead_id _).symm
  | cons d s ih =>
    obtain ⟨hd, hs⟩ := not_or.1 (mt List.mem_cons.2 h)
    rw [List.cons_append, splitOn, if_neg (Ne.symm hd), ih hs]
    cases hw : splitOn c t with
    | nil => exact absurd hw (splitOn_ne_nil c t)
    | cons w ws => rfl

/-- Pieces put together with another separator. -/
theorem join_splitOn_map (c d : Char) (t : Text) :
    join [d] (splitOn c t) = t.map fun x => if x = c then d else x := by
  induction t with
  | nil => rfl
  | cons x t ih =>
    rw [splitOn, List.map_cons, ← ih]
    split
    · rw [join_cons, flatMap_join (splitOn_ne_nil c t)]
      rfl
    · cases hw : splitOn c t with
      | nil => exact absurd hw (splitOn_ne_nil c t)
      | cons w ws => rw [join_cons, join_cons, List.cons_append]

theorem join_splitOn (c : Char) (t : Text) : join [c] (splitOn c t) = t := by
  refine (join_splitOn_map c c t).trans (List.map_id'' (fun x => ?_) t)
  split
  · exact Eq.symm ‹_›
  · rfl

end PhpGraft.Text
