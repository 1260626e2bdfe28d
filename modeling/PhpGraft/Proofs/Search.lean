import PhpGraft.Syntax.Parser

/-!
What the searches through tokens find. White space and the tags around code are loose: they belong
to no declaration.
-/
namespace PhpGraft

theorem not_of_lt_firstFrom {p : Nat → Bool} {i k stop : Nat} (hi : i ≤ k)
    (hk : k < firstFrom p i stop) : p k = false := by
  fun_induction firstFrom p i stop with
  | case1 => omega
  | case2 i _ hp ih =>
    by_cases h : i = k
    · simpa [h] using hp
    · exact ih (by omega) hk
  | case3 => omega

theorem firstFrom_pos {p : Nat → Bool} {i stop : Nat} (h : firstFrom p i stop < stop) :
    p (firstFrom p i stop) = true := by
  fun_induction firstFrom p i stop with
  | case1 _ _ hp => exact hp
  | case2 _ _ _ ih => exact ih h
  | case3 => omega

namespace Tokens

variable {ts : Tokens} {i j stop : Nat}

/-- No code from `i` up to `j`. -/
def Plain (ts : Tokens) (i j : Nat) : Prop := ∀ k, i ≤ k → k < j → ts.isCode k = false

/-- Neither code nor comments from `i` up to `j`. -/
def Loose (ts : Tokens) (i j : Nat) : Prop :=
  ∀ k, i ≤ k → k < j → ts.isCode k = false ∧ ts.isComment k = false

theorem Loose.plain (h : ts.Loose i j) : ts.Plain i j := fun k hi hj => (h k hi hj).1

theorem plain_significant (ts : Tokens) (i stop : Nat) : ts.Plain i (ts.significant i stop) :=
  fun _ hi hk => not_of_lt_firstFrom hi hk

theorem isCode_significant (h : ts.significant i stop < stop) :
    ts.isCode (ts.significant i stop) = true :=
  firstFrom_pos h

theorem significant_le (ts : Tokens) (i stop : Nat) : ts.significant i stop ≤ stop :=
  firstFrom_le ..

theorem le_significant (h : i ≤ stop) : i ≤ ts.significant i stop := le_firstFrom _ h

theorem leading_le (ts : Tokens) (i stop : Nat) : ts.leading i stop ≤ stop := firstFrom_le ..

theorem le_leading (h : i ≤ stop) : i ≤ ts.leading i stop := le_firstFrom _ h

/-- Nothing but loose tokens stands in front of a declaration with its comments. -/
theorem loose_leading (ts : Tokens) (i stop : Nat) :
    ts.Loose i (ts.leading i (ts.significant i stop)) := by
  intro k hi hk
  have := ts.leading_le i (ts.significant i stop)
  exact ⟨ts.plain_significant i stop k hi (by omega), not_of_lt_firstFrom hi hk⟩

theorem trailing_le (h : i ≤ stop) : ts.trailing i stop ≤ stop := by
  unfold trailing
  grind

theorem isPunct_iff {c : Char} : ts.isPunct i c = true ↔ ts[i]? = some ⟨.punct, [c]⟩ := by
  simp [isPunct]

theorem not_isPunct_of_ne {c d : Char} (h : ts.isPunct i c = true) (hne : c ≠ d) :
    ts.isPunct i d = false := by
  rw [isPunct_iff] at h
  simp [isPunct, h, hne]

theorem delimiter?_opener {b : Bracket} (h : ts.isPunct i b.opener = true) :
    ts.delimiter? i = some (.opening b) := by
  rw [isPunct_iff] at h
  cases b <;> simp [delimiter?, h, Token.delimiter?, Delimiter.ofChar?, Bracket.opener]

theorem Delimiter.ofChar?_closing {c : Char} {b : Bracket}
    (h : Delimiter.ofChar? c = some (.closing b)) : c = b.closer := by
  unfold Delimiter.ofChar? at h
  split at h <;> cases h <;> rfl

theorem isPunct_of_closing {b : Bracket} (h : ts.delimiter? i = some (.closing b)) :
    ts.isPunct i b.closer = true := by
  rw [isPunct_iff]
  obtain ⟨t, ht, hd⟩ := Option.bind_eq_some_iff.1 h
  obtain ⟨k, text⟩ := t
  unfold Token.delimiter? at hd
  split at hd
  · rename_i hk htext
    cases hk
    cases htext
    rw [ht, Delimiter.ofChar?_closing hd]
  · cases hd
  · cases hd

theorem isCode_of_isPunct {c : Char} (h : ts.isPunct i c = true) : ts.isCode i = true := by
  rw [isPunct_iff] at h
  simp [isCode, kind?, h, TokenKind.isCode, TokenKind.isTrivia, TokenKind.isComment,
    TokenKind.isOutside]

theorem not_isComment_of_isPunct {c : Char} (h : ts.isPunct i c = true) :
    ts.isComment i = false := by
  rw [isPunct_iff] at h
  simp [isComment, kind?, h, TokenKind.isComment]

theorem lt_size_of_kind? {kind : TokenKind} (h : ts.kind? i = some kind) : i < ts.size := by
  obtain ⟨t, ht, -⟩ := Option.map_eq_some_iff.1 h
  exact (Array.getElem?_eq_some_iff.1 ht).1

theorem kind?_eq_getElem (h : i < ts.size) : ts.kind? i = some ts[i].kind := by
  rw [kind?, Array.getElem?_eq_getElem h, Option.map_some]

theorem lt_size_of_isCode (h : ts.isCode i = true) : i < ts.size := by
  refine Nat.lt_of_not_le fun hi => ?_
  simp [isCode, kind?, Array.getElem?_eq_none hi] at h

theorem between_eq (ts : Tokens) (i j : Nat) :
    ts.between i j = Token.spell ((ts.toList.drop i).take (j - i)) := by
  rw [between, Array.toList_extract, List.extract_eq_take_drop]

theorem between_append (hij : i ≤ j) (hjk : j ≤ k) :
    ts.between i j ++ ts.between j k = ts.between i k := by
  have hsplit : (ts.toList.drop i).take (k - i) =
      (ts.toList.drop i).take (j - i) ++ (ts.toList.drop j).take (k - j) := by
    rw [show k - i = (j - i) + (k - j) by omega, List.take_add, List.drop_drop,
      show i + (j - i) = j by omega]
  simp only [between_eq, hsplit, Token.spell, List.flatMap_append]

theorem between_succ {t : Token} (h : ts[i]? = some t) : ts.between i (i + 1) = t.text := by
  obtain ⟨hlt, rfl⟩ := Array.getElem?_eq_some_iff.1 h
  rw [between_eq, Nat.add_sub_cancel_left, List.drop_eq_getElem_cons (by simpa using hlt)]
  simp [Token.spell]

theorem between_self (ts : Tokens) (i : Nat) : ts.between i i = [] := by
  rw [between_eq, Nat.sub_self]
  rfl

theorem between_size (ts : Tokens) : ts.between 0 ts.size = ts.source := by
  rw [between_eq, List.drop_zero, Nat.sub_zero, ← Array.length_toList, List.take_length]
  rfl
/-- The search ends at the bracket that closes the outermost open one. -/
theorem matchingFrom_closes {opened b : Bracket} {first n : Nat} {stack : List (Bracket × Nat)}
    (h : ts.matchingFrom opened first stop stack i = .ok n)
    (hb : stack.getLast?.map Prod.fst = some b) : ts.delimiter? n = some (.closing b) := by
  fun_induction matchingFrom ts opened first stop stack i with
  | case1 stack i _ b' _ ih =>
    apply ih h
    cases stack with
    | nil => cases hb
    | cons x xs => simpa [List.getLast?_cons_cons] using hb
  | case2 => cases h
  | case3 stack i _ b' hd stack' hc he =>
    cases h
    unfold close at hc
    split at hc
    · cases hc
    · split at hc <;> cases hc
      rename_i hop
      obtain rfl : _ = [] := List.isEmpty_iff.1 he
      simp only [List.getLast?_singleton, Option.map_some, Option.some.injEq] at hb
      rw [hd, ← hop, hb]
  | case4 stack i _ b' hd stack' hc he ih =>
    apply ih h
    unfold close at hc
    split at hc
    · cases hc
    · split at hc <;> cases hc
      cases stack' with
      | nil => exact absurd rfl he
      | cons x xs => simpa [List.getLast?_cons_cons] using hb
  | case5 _ _ _ _ _ ih => exact ih h hb
  | case6 => cases h

/-- An opening bracket is matched by a closing one of its kind. -/
theorem matching_closes {b : Bracket} {first n : Nat} (hf : ts.isPunct first b.opener = true)
    (h : ts.matching b first stop = .ok n) : first < n ∧ ts.isPunct n b.closer = true := by
  unfold matching at h
  rw [matchingFrom, delimiter?_opener hf] at h
  split at h
  · exact ⟨(matchingFrom_bounds h).1, isPunct_of_closing (matchingFrom_closes h rfl)⟩
  · cases h

end Tokens
end PhpGraft
