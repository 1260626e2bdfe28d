import PhpGraft.Proofs.Moving
import PhpGraft.Proofs.Placement

/-!
A stretch of tokens is read as one like it, wherever that stands. The searches of the parser that
start in the stretch do not leave it: they end at their bound or at the code that the stretch ends
with, such as a brace or a semicolon, or any other that the parser does not look beyond.
-/
namespace PhpGraft

namespace Token

theorem Like.refl (t : Token) : t.Like t :=
  ⟨rfl, fun _ _ => rfl, fun _ => rfl, rfl, fun _ => ⟨rfl, rfl⟩⟩

theorem Like.eq_punct {t u : Token} (h : t.Like u) {c : Char} :
    u = ⟨.punct, [c]⟩ ↔ t = ⟨.punct, [c]⟩ := by
  obtain ⟨kind, text⟩ := t
  obtain ⟨kind', text'⟩ := u
  obtain rfl : kind' = kind := h.kind
  constructor
  · rintro ⟨⟩
    exact congrArg _ (h.text rfl nofun).symm
  · rintro ⟨⟩
    exact congrArg _ (h.text rfl nofun)

theorem Like.delimiter?_eq {t u : Token} (h : t.Like u) : u.delimiter? = t.delimiter? := by
  obtain ⟨kind, text⟩ := t
  obtain ⟨kind', text'⟩ := u
  obtain rfl : kind' = kind := h.kind
  by_cases hk : kind' = .punct
  · subst hk
    obtain rfl : text' = text := h.text rfl nofun
    rfl
  · cases kind' <;> first | rfl | exact absurd rfl hk

end Token

namespace Tokens

/-- The token at `k` of `ts` and the one at `k'` of `us` are alike, or neither is there. -/
def Alike (ts us : Tokens) (k k' : Nat) : Prop := Option.Rel Token.Like ts[k]? us[k']?

section

variable {ts us : Tokens} {k k' : Nat}

theorem Alike.of_eq (h : us[k']? = ts[k]?) : Alike ts us k k' := by
  unfold Alike
  rw [h]
  cases ts[k]? with
  | none => exact .none
  | some t => exact .some (.refl t)

theorem Alike.cases (h : Alike ts us k k') : (ts[k]? = none ∧ us[k']? = none) ∨
    ∃ t u, ts[k]? = some t ∧ us[k']? = some u ∧ t.Like u := by
  unfold Alike at h
  generalize ts[k]? = a at h ⊢
  generalize us[k']? = b at h ⊢
  cases h with
  | none => exact .inl ⟨rfl, rfl⟩
  | some h => exact .inr ⟨_, _, rfl, rfl, h⟩

theorem Alike.kind?_eq (h : Alike ts us k k') : us.kind? k' = ts.kind? k := by
  rcases h.cases with ⟨ht, hu⟩ | ⟨t, u, ht, hu, h⟩
  · rw [kind?, kind?, ht, hu]
  · rw [kind?, kind?, ht, hu, Option.map_some, Option.map_some, h.kind]

theorem Alike.isCode_eq (h : Alike ts us k k') : us.isCode k' = ts.isCode k := by
  rw [isCode, isCode, h.kind?_eq]

theorem Alike.isComment_eq (h : Alike ts us k k') : us.isComment k' = ts.isComment k := by
  rw [isComment, isComment, h.kind?_eq]

theorem Alike.isName_eq (h : Alike ts us k k') : us.isName k' = ts.isName k := by
  rw [isName, isName, h.kind?_eq]

theorem Alike.text_eq (h : Alike ts us k k') (hk : ts.isName k = true) : us.text k' = ts.text k := by
  rcases h.cases with ⟨ht, hu⟩ | ⟨t, u, ht, hu, h⟩
  · rw [text, text, ht, hu]
  · simp only [isName, kind?, ht, Option.map_some, beq_iff_eq, Option.some.injEq] at hk
    rw [text, text, ht, hu, Option.map_some, Option.map_some, h.text (by rw [hk]; rfl) (by rw [hk]; decide)]

theorem Alike.isKeyword_eq (h : Alike ts us k k') (word : Text) :
    us.isKeyword k' word = ts.isKeyword k word := by
  rw [isKeyword, isKeyword, h.isName_eq]
  cases hk : ts.isName k with
  | false => rfl
  | true => rw [h.text_eq hk]

theorem Alike.isOneOf_eq (h : Alike ts us k k') (words : List Text) :
    us.isOneOf k' words = ts.isOneOf k words := by
  rw [isOneOf, isOneOf, funext h.isKeyword_eq]

theorem Alike.isPunct_eq (h : Alike ts us k k') (c : Char) : us.isPunct k' c = ts.isPunct k c := by
  rcases h.cases with ⟨ht, hu⟩ | ⟨t, u, ht, hu, h⟩
  · rw [isPunct, isPunct, ht, hu]
  · rw [isPunct, isPunct, ht, hu, Bool.eq_iff_iff, beq_iff_eq, beq_iff_eq, Option.some.injEq,
      Option.some.injEq]
    exact h.eq_punct

theorem Alike.delimiter?_eq (h : Alike ts us k k') : us.delimiter? k' = ts.delimiter? k := by
  rcases h.cases with ⟨ht, hu⟩ | ⟨t, u, ht, hu, h⟩
  · rw [delimiter?, delimiter?, ht, hu]
  · rw [delimiter?, delimiter?, ht, hu, Option.bind_some, Option.bind_some, h.delimiter?_eq]

/-- White space goes over a line break in both or in neither. -/
theorem Alike.contains_eq (h : Alike ts us k k') (hk : ts.kind? k = some .whitespace) :
    (us.text k').contains '\n' = (ts.text k).contains '\n' := by
  rcases h.cases with ⟨ht, hu⟩ | ⟨t, u, ht, hu, h⟩
  · rw [text, text, ht, hu]
  · simp only [kind?, ht, Option.map_some, Option.some.injEq] at hk
    simp only [text, ht, hu, Option.map_some, Option.getD_some]
    exact h.line hk

theorem Alike.isBlock_eq (h : Alike ts us k k') : us.isBlock k' = ts.isBlock k := by
  rw [isBlock, isBlock, h.isPunct_eq, h.isOneOf_eq]

end

/-- Words that the parser looks beyond to tell what they begin. -/
def passedWords : List Text :=
  "namespace" :: "class" :: "interface" :: "trait" :: (classModifiers ++ memberModifiers)

/-- Code that the parser does not look beyond. -/
structure Firm (ts : Tokens) (k : Nat) : Prop where
  code : ts.isCode k = true
  hash : ts.isPunct k '#' = false
  word : ts.isOneOf k passedWords = false

theorem not_isOneOf_of_isPunct {ts : Tokens} {k : Nat} {c : Char} (h : ts.isPunct k c = true)
    (words : List Text) : ts.isOneOf k words = false := by
  refine List.any_eq_false.2 fun w _ hw => ?_
  have hname := (Bool.and_eq_true_iff.1 hw).1
  rw [isName, kind?, isPunct_iff.1 h] at hname
  cases hname

theorem firm_of_barrier {ts : Tokens} {k : Nat} {z : Char} (hz : Lexer.isBarrier z = true)
    (h : ts.isPunct k z = true) : ts.Firm k :=
  ⟨isCode_of_isPunct h, not_isPunct_of_ne h (by rintro rfl; cases hz), not_isOneOf_of_isPunct h _⟩

theorem Firm.not_isOneOf {ts : Tokens} {k : Nat} {words : List Text} (h : ts.Firm k)
    (hw : words ⊆ passedWords) : ts.isOneOf k words = false :=
  List.any_eq_false.2 fun w hmem => List.any_eq_false.1 h.word w (hw hmem)

/-- In front of `k` stands a semicolon, a brace or a close tag. -/
def Ended (ts : Tokens) (k : Nat) : Prop :=
  ts.kind? (k - 1) = some .closeTag ∨ ∃ z, Lexer.isBarrier z = true ∧ ts.isPunct (k - 1) z = true

theorem ended_of_semicolon {ts : Tokens} {i : Nat} (h : ts.delimiter? i = some .semicolon) :
    ts.Ended (i + 1) := by
  obtain ⟨⟨kind, text⟩, ht, hd⟩ := Option.bind_eq_some_iff.1 h
  unfold Token.delimiter? at hd
  split at hd
  · rename_i c hk htext
    cases hk
    cases htext
    refine .inr ⟨c, ?_, isPunct_iff.2 ht⟩
    unfold Delimiter.ofChar? at hd
    split at hd <;> first | rfl | cases hd
  · rename_i hk
    cases hk
    exact .inl (by rw [kind?, Nat.add_sub_cancel, ht]; rfl)
  · cases hd

theorem ended_of_brace {ts : Tokens} {i : Nat} (h : ts.isPunct i '\x7d' = true) : ts.Ended (i + 1) :=
  .inr ⟨'\x7d', rfl, h⟩

theorem ended_statementEnd {ts : Tokens} {first i n stop : Nat} {block : Bool} {stack : List (Bracket × Nat)}
    (h : ts.statementEndFrom first stop block stack i = .ok n) : ts.Ended n := by
  fun_induction statementEndFrom ts first stop block stack i with
  | case1 _ _ _ _ ih => exact ih h
  | case2 _ _ _ _ _ ih => exact ih h
  | case3 => cases h
  | case4 stack i hlt b hd rest hc he =>
    cases h
    obtain rfl : b = .curly := he.1
    exact ended_of_brace (isPunct_of_closing hd)
  | case5 _ _ _ _ _ _ _ _ ih => exact ih h
  | case6 stack i hlt hd he =>
    cases h
    exact ended_of_semicolon hd
  | case7 _ _ _ _ _ ih => exact ih h
  | case8 => cases h
  | case9 => cases h

theorem Ended.not_isName {ts : Tokens} {k : Nat} (h : ts.Ended k) : ts.isName (k - 1) = false := by
  rcases h with hk | ⟨z, -, hk⟩
  · rw [isName, hk]
    rfl
  · rw [isName, kind?, isPunct_iff.1 hk]
    rfl

theorem Ended.not_isPunct {ts : Tokens} {k : Nat} {c : Char} (h : ts.Ended k)
    (hc : Lexer.isBarrier c = false) : ts.isPunct (k - 1) c = false := by
  rcases h with hk | ⟨z, hz, hk⟩
  · refine Bool.eq_false_iff.2 fun hp => ?_
    rw [kind?, isPunct_iff.1 hp] at hk
    cases hk
  · exact not_isPunct_of_ne hk (by rintro rfl; rw [hz] at hc; cases hc)

/-- Where index `k` of a stretch goes that starts at `lo` and is moved to `lo'`. -/
def shift (lo lo' k : Nat) : Nat := lo' + (k - lo)

theorem shift_self (lo lo' : Nat) : shift lo lo' lo = lo' := by
  unfold shift
  omega

theorem shift_succ {lo lo' k : Nat} (h : lo ≤ k) : shift lo lo' (k + 1) = shift lo lo' k + 1 := by
  unfold shift
  omega

theorem shift_lt {lo lo' i k : Nat} (hi : lo ≤ i) : shift lo lo' i < shift lo lo' k ↔ i < k := by
  unfold shift
  omega

/-- Where searches that start in front of `hi` end: at their bound, or in front of it at a token
they do not pass. -/
inductive Edge (ts : Tokens) (lo lo' hi : Nat) : Nat → Nat → Prop
  | bound {stop} : lo ≤ stop → stop < hi → (ts.isPunct stop '#' = true → stop + 1 < hi) →
      Edge ts lo lo' hi stop (shift lo lo' stop)
  | wall {stop stop'} : lo < hi → ts.Firm (hi - 1) → hi ≤ stop → shift lo lo' hi ≤ stop' →
      Edge ts lo lo' hi stop stop'

/-- The tokens of `ts` from `lo` to `hi` are like those of `us` that stand `d` further on. Searches
go up to `stop` there and up to `stop'` here. -/
structure Window (ts us : Tokens) (lo lo' hi stop stop' : Nat) : Prop where
  alike : ∀ k, lo ≤ k → k < hi → Alike ts us k (shift lo lo' k)
  edge : Edge ts lo lo' hi stop stop'
  continues : ts.isPunct (hi - 1) '\x7d' = true → hi ≤ stop →
    us.continues (shift lo lo' hi) stop' = ts.continues hi stop

theorem firstFrom_shift {p q : Nat → Bool} {lo i n : Nat} (lo' : Nat) (hlo : lo ≤ i)
    (h : ∀ k, i ≤ k → k < n → q (shift lo lo' k) = p k) :
    firstFrom q (shift lo lo' i) (shift lo lo' n) = shift lo lo' (firstFrom p i n) := by
  fun_induction firstFrom p i n with
  | case1 i hlt hp => rw [firstFrom, if_pos ((shift_lt hlo).2 hlt), h i (Nat.le_refl i) hlt, if_pos hp]
  | case2 i hlt hp ih =>
    rw [firstFrom, if_pos ((shift_lt hlo).2 hlt), h i (Nat.le_refl i) hlt, if_neg hp,
      ← shift_succ hlo]
    exact ih (Nat.le_succ_of_le hlo) fun k hk => h k (Nat.le_of_succ_le hk)
  | case3 i hlt => rw [firstFrom, if_neg fun h => hlt ((shift_lt hlo).1 h)]

/-- A search that ends in front of `n` does not need to go further. -/
theorem firstFrom_of_lt {p : Nat → Bool} {i n stop : Nat} (h : firstFrom p i n < n) (hn : n ≤ stop) :
    firstFrom p i stop = firstFrom p i n := by
  fun_induction firstFrom p i n with
  | case1 i hlt hp => rw [firstFrom, if_pos (Nat.lt_of_lt_of_le hlt hn), if_pos hp]
  | case2 i hlt hp ih => rw [firstFrom, if_pos (Nat.lt_of_lt_of_le hlt hn), if_neg hp, ih h]
  | case3 => omega

theorem firstFrom_narrow {p : Nat → Bool} {i n stop : Nat} (h : firstFrom p i stop < n)
    (hn : n ≤ stop) : firstFrom p i n = firstFrom p i stop := by
  fun_induction firstFrom p i stop with
  | case1 i hlt hp => rw [firstFrom, if_pos h, if_pos hp]
  | case2 i hlt hp ih =>
    have hi := le_firstFrom p (show i + 1 ≤ stop from hlt)
    rw [firstFrom, if_pos (by omega), if_neg hp, ih h]
  | case3 => omega

theorem firstFrom_lt {p : Nat → Bool} {i k n : Nat} (hi : i ≤ k) (hp : p k = true) :
    firstFrom p i n ≤ k := by
  refine Nat.le_of_not_lt fun h => ?_
  rw [not_of_lt_firstFrom hi h] at hp
  cases hp

namespace Window

variable {ts us : Tokens} {lo lo' hi stop stop' i : Nat}

theorem lo_lt (W : Window ts us lo lo' hi stop stop') : lo < hi := by
  cases W.edge with
  | bound h₁ h₂ => omega
  | wall h => exact h

/-- A search that ends in the stretch. -/
theorem search (W : Window ts us lo lo' hi stop stop') {p q : Nat → Bool} (hlo : lo ≤ i)
    (h : ∀ k, i ≤ k → k < hi → q (shift lo lo' k) = p k) (hlt : firstFrom p i stop < hi) :
    firstFrom q (shift lo lo' i) stop' = shift lo lo' (firstFrom p i stop) ∧
      lo ≤ firstFrom p i stop := by
  have hmin := min_le_firstFrom p i stop
  cases W.edge with
  | bound h₁ h₂ =>
    exact ⟨firstFrom_shift lo' hlo fun k hk hks => h k hk (Nat.lt_trans hks h₂), by omega⟩
  | wall h₁ hf h₂ h₃ =>
    have hle : lo ≤ firstFrom p i stop := by omega
    have hshift := firstFrom_shift lo' hlo h
    rw [firstFrom_narrow hlt h₂] at hshift
    exact ⟨by rw [firstFrom_of_lt (by rw [hshift, shift_lt hle]; exact hlt) h₃, hshift], hle⟩

/-- The next code is found in the stretch, and at the same place. -/
theorem significant (W : Window ts us lo lo' hi stop stop') (hlo : lo ≤ i) (hi' : i < hi) :
    us.significant (shift lo lo' i) stop' = shift lo lo' (ts.significant i stop) ∧
      lo ≤ ts.significant i stop ∧ ts.significant i stop < hi := by
  have hlt : ts.significant i stop < hi := by
    cases W.edge with
    | bound h₁ h₂ => exact Nat.lt_of_le_of_lt (firstFrom_le ..) h₂
    | wall h₁ hf h₂ h₃ =>
      have := firstFrom_lt (p := ts.isCode) (i := i) (k := hi - 1) (n := stop) (by omega) hf.code
      unfold Tokens.significant
      omega
  obtain ⟨he, hle⟩ := W.search (p := ts.isCode) (q := us.isCode) hlo
    (fun k hk hkh => (W.alike k (Nat.le_trans hlo hk) hkh).isCode_eq) hlt
  exact ⟨he, hle, hlt⟩

theorem lt_stop_iff (W : Window ts us lo lo' hi stop stop') (hlo : lo ≤ i) (hi' : i < hi) :
    shift lo lo' i < stop' ↔ i < stop := by
  cases W.edge with
  | bound => exact shift_lt hlo
  | wall _ _ h₁ h₂ =>
    have := (@shift_lt lo lo' i hi hlo).2 hi'
    omega

theorem leading (W : Window ts us lo lo' hi stop stop') {first : Nat} (hlo : lo ≤ i) (hf : first < hi) :
    us.leading (shift lo lo' i) (shift lo lo' first) = shift lo lo' (ts.leading i first) :=
  firstFrom_shift lo' hlo fun k hk hks =>
    (W.alike k (Nat.le_trans hlo hk) (Nat.lt_trans hks hf)).isComment_eq

theorem trailing (W : Window ts us lo lo' hi stop stop') (hlo : lo ≤ i) (hi' : i < hi) :
    us.trailing (shift lo lo' i) stop' = shift lo lo' (ts.trailing i stop) ∧
      ts.trailing i stop < hi := by
  have ha := W.alike i hlo hi'
  have hblank : (us.kind? (shift lo lo' i) == some .whitespace &&
      !(us.text (shift lo lo' i)).contains '\n') =
      (ts.kind? i == some .whitespace && !(ts.text i).contains '\n') := by
    rw [ha.kind?_eq]
    by_cases hk : ts.kind? i = some .whitespace
    · rw [ha.contains_eq hk]
    · rw [beq_eq_false_iff_ne.2 hk, Bool.false_and, Bool.false_and]
  have hwall : ∀ {k kind}, ts.Firm k → ts.kind? k = some kind → kind.isCode = true := by
    intro k kind hf hk
    have hcode := hf.code
    rwa [isCode, hk] at hcode
  simp only [Tokens.trailing, hblank]
  generalize hc : (ts.kind? i == some .whitespace && !(ts.text i).contains '\n') = c
  have hspace : c = true → ts.kind? i = some .whitespace := by
    rintro rfl
    exact beq_iff_eq.1 (Bool.and_eq_true_iff.1 hc).1
  obtain ⟨j, hj, hj', hij⟩ : ∃ j, (if c = true then i + 1 else i) = j ∧
      (if c = true then shift lo lo' i + 1 else shift lo lo' i) = shift lo lo' j ∧
        (j = i ∨ j = i + 1 ∧ c = true) := by
    cases c with
    | false => exact ⟨i, rfl, rfl, .inl rfl⟩
    | true => exact ⟨i + 1, rfl, (shift_succ hlo).symm, .inr ⟨rfl, rfl⟩⟩
  rw [hj, hj']
  have hloj : lo ≤ j := by omega
  by_cases hlt : j < hi
  · simp only [(W.alike j hloj hlt).kind?_eq, W.lt_stop_iff hloj hlt]
    split
    · rename_i hcomment
      refine ⟨(shift_succ hloj).symm, ?_⟩
      cases W.edge with
      | bound h₁ h₂ => omega
      | wall h₁ hf h₂ h₃ =>
        have : j ≠ hi - 1 := by
          rintro rfl
          cases hwall hf hcomment.2
        omega
    · exact ⟨rfl, hi'⟩
  · have hstop : ¬ j < stop ∧ ¬ shift lo lo' j < stop' := by
      cases W.edge with
      | bound h₁ h₂ =>
        rw [shift_lt hloj]
        omega
      | wall h₁ hf h₂ h₃ =>
        obtain ⟨rfl, hctrue⟩ : j = i + 1 ∧ c = true := hij.resolve_left (by omega)
        obtain rfl : i = hi - 1 := by omega
        cases hwall hf (hspace hctrue)
    simp only [hstop.1, hstop.2, false_and, if_false, true_and]
    exact hi'

theorem continues_eq (W : Window ts us lo lo' hi stop stop') (hlo : lo ≤ i) (hi' : i < hi)
    (hs : i < stop) (hb : ts.delimiter? i = some (.closing .curly)) :
    us.continues (shift lo lo' (i + 1)) stop' = ts.continues (i + 1) stop := by
  rcases Nat.lt_or_eq_of_le (show i + 1 ≤ hi from hi') with hi' | rfl
  · obtain ⟨he, h₁, h₂⟩ := W.significant (Nat.le_succ_of_le hlo) hi'
    simp only [Tokens.continues, he, (W.alike _ h₁ h₂).isOneOf_eq, W.lt_stop_iff h₁ h₂]
  · exact W.continues (isPunct_of_closing hb) hs

/-! Brackets. Only which brackets are open matters, not where they stand. -/

theorem close_congr (us : Tokens) {stack stack' rest : List (Bracket × Nat)} {b : Bracket} (i' : Nat)
    (h : ts.close stack b i = .ok rest) (hs : stack'.map Prod.fst = stack.map Prod.fst) :
    ∃ rest', us.close stack' b i' = .ok rest' ∧ rest'.map Prod.fst = rest.map Prod.fst := by
  cases stack with
  | nil => cases h
  | cons x stack =>
    cases stack' with
    | nil => cases hs
    | cons y stack' =>
      obtain ⟨hx, hs⟩ := List.cons.inj hs
      unfold close at h ⊢
      dsimp only at h ⊢
      rw [hx]
      split at h
      · cases h
        rw [if_pos ‹_›]
        exact ⟨_, rfl, hs⟩
      · cases h

theorem isEmpty_congr {stack stack' : List (Bracket × Nat)}
    (h : stack'.map Prod.fst = stack.map Prod.fst) : stack'.isEmpty = stack.isEmpty := by
  rw [← List.isEmpty_map (f := Prod.fst) (l := stack'), h, List.isEmpty_map]

theorem matchingFrom (W : Window ts us lo lo' hi stop stop') {opened : Bracket} {first n : Nat}
    {stack stack' : List (Bracket × Nat)} (h : ts.matchingFrom opened first stop stack i = .ok n)
    (hs : stack'.map Prod.fst = stack.map Prod.fst) (hlo : lo ≤ i) (hn : n < hi) (first' : Nat) :
    us.matchingFrom opened first' stop' stack' (shift lo lo' i) = .ok (shift lo lo' n) := by
  fun_induction Tokens.matchingFrom ts opened first stop stack i generalizing stack' with
  | case1 stack i hlt b hd ih =>
    have hin := (matchingFrom_bounds h).1
    rw [Tokens.matchingFrom, if_pos ((W.lt_stop_iff hlo (by omega)).2 hlt),
      (W.alike i hlo (by omega)).delimiter?_eq, hd, ← shift_succ hlo]
    exact ih h (by simp [hs]) (by omega)
  | case2 => cases h
  | case3 stack i hlt b hd rest hc he =>
    cases h
    obtain ⟨rest', hc', hr⟩ := close_congr us (shift lo lo' n) hc hs
    rw [Tokens.matchingFrom, if_pos ((W.lt_stop_iff hlo hn).2 hlt),
      (W.alike _ hlo hn).delimiter?_eq, hd]
    simp only [hc', isEmpty_congr hr, he, if_true]
  | case4 stack i hlt b hd rest hc he ih =>
    have hin := (matchingFrom_bounds h).1
    obtain ⟨rest', hc', hr⟩ := close_congr us (shift lo lo' i) hc hs
    rw [Tokens.matchingFrom, if_pos ((W.lt_stop_iff hlo (by omega)).2 hlt),
      (W.alike i hlo (by omega)).delimiter?_eq, hd]
    simp only [hc', isEmpty_congr hr, he]
    rw [← shift_succ hlo]
    exact ih h hr (by omega)
  | case5 stack i hlt hno hnc ih =>
    have hin := (matchingFrom_bounds h).1
    rw [Tokens.matchingFrom, if_pos ((W.lt_stop_iff hlo (by omega)).2 hlt),
      (W.alike i hlo (by omega)).delimiter?_eq]
    split
    · exact absurd ‹_› (hno _)
    · exact absurd ‹_› (hnc _)
    · rw [← shift_succ hlo]
      exact ih h hs (by omega)
  | case6 => cases h

theorem matching (W : Window ts us lo lo' hi stop stop') {opened : Bracket} {n : Nat}
    (h : ts.matching opened i stop = .ok n) (hlo : lo ≤ i) (hn : n < hi) :
    us.matching opened (shift lo lo' i) stop' = .ok (shift lo lo' n) :=
  W.matchingFrom h rfl hlo hn _

theorem statementEndFrom (W : Window ts us lo lo' hi stop stop') {first n : Nat} {block : Bool}
    {stack stack' : List (Bracket × Nat)}
    (h : ts.statementEndFrom first stop block stack i = .ok n)
    (hs : stack'.map Prod.fst = stack.map Prod.fst) (hlo : lo ≤ i) (hn : n ≤ hi) (first' : Nat) :
    us.statementEndFrom first' stop' block stack' (shift lo lo' i) = .ok (shift lo lo' n) := by
  fun_induction Tokens.statementEndFrom ts first stop block stack i generalizing stack' with
  | case1 stack i hlt hd ih =>
    have hin := (statementEndFrom_bounds h).1
    rw [Tokens.statementEndFrom.eq_def, if_pos ((W.lt_stop_iff hlo (by omega)).2 hlt),
      (W.alike i hlo (by omega)).delimiter?_eq, hd, ← shift_succ hlo]
    exact ih h hs (by omega)
  | case2 stack i hlt b hd ih =>
    have hin := (statementEndFrom_bounds h).1
    rw [Tokens.statementEndFrom.eq_def, if_pos ((W.lt_stop_iff hlo (by omega)).2 hlt),
      (W.alike i hlo (by omega)).delimiter?_eq, hd, ← shift_succ hlo]
    exact ih h (by simp [hs]) (by omega)
  | case3 => cases h
  | case4 stack i hlt b hd rest hc he =>
    cases h
    obtain ⟨rest', hc', hr⟩ := close_congr us (shift lo lo' i) hc hs
    rw [Tokens.statementEndFrom.eq_def, if_pos ((W.lt_stop_iff hlo (by omega)).2 hlt),
      (W.alike i hlo (by omega)).delimiter?_eq, hd]
    obtain rfl : b = .curly := he.1
    simp only [hc', isEmpty_congr hr, ← shift_succ hlo, W.continues_eq hlo hn hlt hd]
    rw [if_pos ⟨trivial, he.2⟩]
  | case5 stack i hlt b hd rest hc he ih =>
    have hin := (statementEndFrom_bounds h).1
    obtain ⟨rest', hc', hr⟩ := close_congr us (shift lo lo' i) hc hs
    rw [Tokens.statementEndFrom.eq_def, if_pos ((W.lt_stop_iff hlo (by omega)).2 hlt),
      (W.alike i hlo (by omega)).delimiter?_eq, hd]
    simp only [hc', isEmpty_congr hr, ← shift_succ hlo]
    rw [if_neg]
    · exact ih h hr (by omega)
    · rintro ⟨rfl, he'⟩
      rw [W.continues_eq hlo (by omega) hlt hd] at he'
      exact he ⟨rfl, he'⟩
  | case6 stack i hlt hd he =>
    cases h
    rw [Tokens.statementEndFrom.eq_def, if_pos ((W.lt_stop_iff hlo (by omega)).2 hlt),
      (W.alike i hlo (by omega)).delimiter?_eq, hd]
    simp only [isEmpty_congr hs, he, if_true]
    rw [← shift_succ hlo]
  | case7 stack i hlt hd he ih =>
    have hin := (statementEndFrom_bounds h).1
    rw [Tokens.statementEndFrom.eq_def, if_pos ((W.lt_stop_iff hlo (by omega)).2 hlt),
      (W.alike i hlo (by omega)).delimiter?_eq, hd]
    simp only [isEmpty_congr hs, he]
    rw [← shift_succ hlo]
    exact ih h hs (by omega)
  | case8 => cases h
  | case9 => cases h

theorem statementEnd (W : Window ts us lo lo' hi stop stop') {n : Nat} {block : Bool}
    (h : ts.statementEnd i stop block = .ok n) (hlo : lo ≤ i) (hn : n ≤ hi) :
    us.statementEnd (shift lo lo' i) stop' block = .ok (shift lo lo' n) :=
  W.statementEndFrom h rfl hlo hn _

/-- What ends the stretch is no token of another kind. -/
theorem lt_of_not_firm (W : Window ts us lo lo' hi stop stop') (h : ¬ts.Firm i) (hi' : i < hi)
    (hs : hi ≤ stop) : i + 1 < hi := by
  cases W.edge with
  | bound h₁ h₂ => omega
  | wall h₁ hf =>
    refine Nat.lt_of_le_of_ne hi' fun he => h ?_
    rwa [← he] at hf

theorem lt_of_isName (hlast : hi ≤ stop → ts.Ended hi) (h : ts.isName i = true) (hi' : i < hi)
    (hs : hi ≤ stop) : i + 1 < hi := by
  refine Nat.lt_of_le_of_ne hi' ?_
  rintro rfl
  have hno := (hlast hs).not_isName
  rw [Nat.add_sub_cancel, h] at hno
  cases hno

/-- The code behind a token, if the stretch does not end with it. -/
theorem next (W : Window ts us lo lo' hi stop stop') (h : hi ≤ stop → i + 1 < hi) (hlo : lo ≤ i)
    (hi' : i < hi) (hs : i ≤ stop) : us.significant (shift lo lo' i + 1) stop' =
        shift lo lo' (ts.significant (i + 1) stop) ∧
      lo ≤ ts.significant (i + 1) stop ∧ ts.significant (i + 1) stop < hi := by
  rw [← shift_succ hlo]
  by_cases hnext : i + 1 < hi
  · exact W.significant (Nat.le_succ_of_le hlo) hnext
  · cases W.edge with
    | bound h₁ h₂ =>
      obtain rfl : i = stop := by omega
      have hend : ∀ (ts : Tokens) (k : Nat), ts.significant (k + 1) k = k := by
        intro ts k
        rw [Tokens.significant, firstFrom, if_neg (by omega)]
      rw [hend, shift_succ hlo, hend]
      exact ⟨rfl, hlo, hi'⟩
    | wall h₁ hf h₂ => exact absurd (h h₂) hnext

theorem opensAttribute (W : Window ts us lo lo' hi stop stop') (hlo : lo ≤ i) (hi' : i < hi)
    (hs : i ≤ stop) : (us.isPunct (shift lo lo' i) '#' && us.isPunct (shift lo lo' i + 1) '[') =
      (ts.isPunct i '#' && ts.isPunct (i + 1) '[') := by
  rw [(W.alike i hlo hi').isPunct_eq]
  cases h : ts.isPunct i '#' with
  | false => rfl
  | true =>
    have hnext : i + 1 < hi := by
      cases W.edge with
      | bound h₁ h₂ h₃ =>
        rcases Nat.lt_or_eq_of_le hs with hlt | rfl
        · omega
        · exact h₃ h
      | wall h₁ hf h₂ => exact W.lt_of_not_firm (fun hf => by rw [hf.hash] at h; cases h) hi' h₂
    rw [← shift_succ hlo, (W.alike (i + 1) (Nat.le_succ_of_le hlo) hnext).isPunct_eq]

/-- Attributes in the stretch are skipped in the same way. -/
theorem skipAttributes (W : Window ts us lo lo' hi stop stop') {j : Nat}
    (h : ts.skipAttributes i stop = .ok j) (hlo : lo ≤ i) (hi' : i < hi) (hs : i ≤ stop)
    (hj : j < hi) : us.skipAttributes (shift lo lo' i) stop' = .ok (shift lo lo' j) ∧ lo ≤ j := by
  fun_induction Tokens.skipAttributes ts i stop with
  | case1 => cases h
  | case2 i hc closing hm _ _ ih =>
    have hle := le_of_skipAttributes h
    have hm' := matching_bounds hm
    have := ts.min_le_significant (closing + 1) stop
    have hclosing : closing + 1 < hi := by omega
    obtain ⟨he, hlo', hlt⟩ := W.significant (i := closing + 1) (by omega) hclosing
    obtain ⟨hr, hlo''⟩ := ih h hlo' hlt (ts.significant_le ..)
    have hmatch := W.matching (i := i + 1) hm (by omega) (by omega)
    rw [shift_succ hlo] at hmatch
    rw [shift_succ (show lo ≤ closing by omega)] at he
    refine ⟨?_, hlo''⟩
    rw [Tokens.skipAttributes, if_pos ((W.opensAttribute hlo hi' hs).trans hc)]
    split
    · rename_i hm''
      rw [hmatch] at hm''
      cases hm''
    · rename_i hm''
      rw [hmatch] at hm''
      cases hm''
      rw [he]
      exact hr
  | case3 i hc =>
    cases h
    rw [Tokens.skipAttributes, if_neg (by rw [W.opensAttribute hlo hi' hs]; exact hc)]
    exact ⟨rfl, hlo⟩

theorem modifiers (W : Window ts us lo lo' hi stop stop') {words : List Text}
    (hwords : words ⊆ passedWords) (hlo : lo ≤ i) (hi' : i < hi) :
    us.modifiers words (shift lo lo' i) stop' =
        ((ts.modifiers words i stop).1, shift lo lo' (ts.modifiers words i stop).2) ∧
      lo ≤ (ts.modifiers words i stop).2 ∧ (ts.modifiers words i stop).2 < hi := by
  fun_induction Tokens.modifiers ts words i stop with
  | case1 i hlt hw _ _ ih =>
    have ha := W.alike i hlo hi'
    have hname : ts.isName i = true := by
      obtain ⟨w, -, hw⟩ := List.any_eq_true.1 hw
      exact (Bool.and_eq_true_iff.1 hw).1
    have hfirm : ¬ts.Firm i := fun hf => by rw [hf.not_isOneOf hwords] at hw; cases hw
    obtain ⟨he, h₁, h₂⟩ := W.next (W.lt_of_not_firm hfirm hi') hlo hi' (Nat.le_of_lt hlt)
    obtain ⟨hr, hr'⟩ := ih h₁ h₂
    rw [Tokens.modifiers, dif_pos ((W.lt_stop_iff hlo hi').2 hlt), if_pos ((ha.isOneOf_eq words).trans hw),
      ha.text_eq hname, he, hr]
    exact ⟨rfl, hr'⟩
  | case2 i hlt hw =>
    rw [Tokens.modifiers, dif_pos ((W.lt_stop_iff hlo hi').2 hlt),
      if_neg (by rw [(W.alike i hlo hi').isOneOf_eq words]; exact hw)]
    exact ⟨rfl, hlo, hi'⟩
  | case3 i hlt =>
    rw [Tokens.modifiers, dif_neg (fun h => hlt ((W.lt_stop_iff hlo hi').1 h))]
    exact ⟨rfl, hlo, hi'⟩

/-- A search with a nearer bound. -/
theorem narrow (W : Window ts us lo lo' hi stop stop') {n : Nat} (hlo : lo ≤ n) (hn : n < hi)
    (hs : n ≤ stop) : Window ts us lo lo' hi n (shift lo lo' n) := by
  refine ⟨W.alike, .bound hlo hn fun h => ?_, fun _ h => absurd h (Nat.not_le_of_lt hn)⟩
  cases W.edge with
  | bound h₁ h₂ h₃ =>
    rcases Nat.lt_or_eq_of_le hs with hlt | rfl
    · omega
    · exact h₃ h
  | wall h₁ hf h₂ => exact W.lt_of_not_firm (fun hf => by rw [hf.hash] at h; cases h) hn h₂

/-- A search that ends at the last token of the stretch. -/
theorem close (W : Window ts us lo lo' hi stop stop') (hs : hi ≤ stop) :
    Window ts us lo lo' hi hi (shift lo lo' hi) := by
  have hf : ts.Firm (hi - 1) := by
    cases W.edge with
    | bound h₁ h₂ => omega
    | wall h₁ hf => exact hf
  refine ⟨W.alike, .wall W.lo_lt hf (Nat.le_refl _) (Nat.le_refl _), fun _ _ => ?_⟩
  have hend : ∀ (ts : Tokens) (k : Nat), ts.continues k k = false := by
    intro ts k
    have : ts.significant k k = k := by rw [Tokens.significant, firstFrom, if_neg (Nat.lt_irrefl _)]
    simp [Tokens.continues, this]
  rw [hend, hend]

end Window

variable {ts : Tokens} {first i j n stop : Nat} {block : Bool}

theorem skipAttributes_le (h : ts.skipAttributes i stop = .ok j) (hi : i ≤ stop) : j ≤ stop := by
  fun_induction skipAttributes ts i stop with
  | case1 => cases h
  | case2 _ _ _ _ _ _ ih => exact ih h (ts.significant_le ..)
  | case3 =>
    cases h
    exact hi

theorem of_close {stack rest : List (Bracket × Nat)} {b : Bracket}
    (h : ts.close stack b i = .ok rest) : ∃ k, stack = (b, k) :: rest := by
  unfold close at h
  split at h
  · cases h
  · rename_i opened k stack
    split at h
    · rename_i heq
      subst heq
      cases h
      exact ⟨k, rfl⟩
    · cases h

/-- A closed bracket does not end a statement, unless it is a brace. -/
theorem statementEndFrom_of_matchingFrom {opened b : Bracket} {stack : List (Bracket × Nat)}
    {first' m : Nat} (h : ts.matchingFrom opened first' stop stack i = .ok m)
    (hb : stack.getLast?.map Prod.fst = some b) (hne : b ≠ .curly) :
    ts.statementEndFrom first stop block stack i =
      ts.statementEndFrom first stop block [] (m + 1) := by
  fun_induction matchingFrom ts opened first' stop stack i with
  | case1 stack i hlt b' hd ih =>
    rw [statementEndFrom.eq_def, if_pos hlt, hd]
    refine ih h ?_
    cases stack with
    | nil => cases hb
    | cons x xs => simpa [List.getLast?_cons_cons] using hb
  | case2 => cases h
  | case3 stack i hlt b' hd rest hc he =>
    cases h
    obtain rfl := List.isEmpty_iff.1 he
    obtain ⟨k, rfl⟩ := of_close hc
    obtain rfl : b' = b := Option.some.inj hb
    rw [statementEndFrom.eq_def, if_pos hlt, hd]
    simp only [hc, hne, false_and, if_false]
  | case4 stack i hlt b' hd rest hc he ih =>
    obtain ⟨k, rfl⟩ := of_close hc
    rw [statementEndFrom.eq_def, if_pos hlt, hd]
    simp only [hc, he, Bool.false_eq_true, false_and, and_false, if_false]
    refine ih h ?_
    cases rest with
    | nil => exact absurd rfl he
    | cons x xs => simpa [List.getLast?_cons_cons] using hb
  | case5 stack i hlt hno hnc ih =>
    rw [statementEndFrom.eq_def, if_pos hlt]
    split
    · exact ih h hb
    · exact absurd ‹_› (hno _)
    · exact absurd ‹_› (hnc _)
    · rw [if_neg]
      · exact ih h hb
      · rw [List.isEmpty_iff]
        rintro rfl
        cases hb
  | case6 => cases h

theorem delimiter?_of_not_isCode (h : ts.isCode i = false) (hc : ts.kind? i ≠ some .closeTag) :
    ts.delimiter? i = none := by
  unfold delimiter?
  cases ht : ts[i]? with
  | none => rfl
  | some t =>
    obtain ⟨kind, text⟩ := t
    simp only [isCode, kind?, ht, Option.map_some, Option.any_some] at h
    simp only [kind?, ht, Option.map_some, ne_eq, Option.some.injEq] at hc
    cases kind <;> first | rfl | exact absurd rfl hc | cases h

theorem delimiter?_of_closeTag (h : ts.kind? i = some .closeTag) :
    ts.delimiter? i = some .semicolon := by
  obtain ⟨t, ht, hk⟩ := Option.map_eq_some_iff.1 h
  obtain ⟨kind, text⟩ := t
  cases hk
  rw [delimiter?, ht]
  rfl

theorem significant_succ (h : ts.isCode i = false) (hi : i < stop) :
    ts.significant i stop = ts.significant (i + 1) stop := by
  rw [significant, firstFrom, if_pos hi, h]
  rfl

/-- Of what stands between code, a close tag alone ends a statement. -/
theorem statementEndFrom_significant (h : ts.statementEndFrom first stop block [] i = .ok n) :
    ts.statementEndFrom first stop block [] (ts.significant i stop) = .ok n ∨
      ts.kind? (n - 1) = some .closeTag ∧ ts.significant i stop = ts.significant n stop := by
  generalize hj : ts.significant i stop = j
  unfold significant at hj
  fun_induction firstFrom ts.isCode i stop with
  | case1 =>
    subst hj
    exact .inl h
  | case2 i hlt hp ih =>
    by_cases hc : ts.kind? i = some .closeTag
    · rw [statementEndFrom.eq_def, if_pos hlt, delimiter?_of_closeTag hc] at h
      cases h
      exact .inr ⟨hc, hj.symm⟩
    · rw [statementEndFrom.eq_def, if_pos hlt,
        delimiter?_of_not_isCode (Bool.eq_false_iff.2 hp) hc] at h
      exact ih h hj
  | case3 i hlt =>
    rw [statementEndFrom.eq_def, if_neg hlt] at h
    cases h

/-- The attributes of a statement are part of it, unless a close tag ends it behind one of them. -/
theorem lt_of_statementEndFrom (h : ts.statementEndFrom first stop block [] i = .ok n)
    (ha : ts.skipAttributes i stop = .ok j) : j < n ∨
      ts.kind? (n - 1) = some .closeTag ∧ ts.skipAttributes (ts.significant n stop) stop = .ok j := by
  fun_induction skipAttributes ts i stop with
  | case1 => cases ha
  | case2 i hc closing hm _ _ ih =>
    obtain ⟨hhash, hopen⟩ := Bool.and_eq_true_iff.1 hc
    have hopen : ts.delimiter? (i + 1) = some (.opening .square) := delimiter?_opener hopen
    have hhash : ts.delimiter? i = none := by
      rw [delimiter?, isPunct_iff.1 hhash]
      rfl
    have hbounds := matching_bounds hm
    have hlt : i < stop := by omega
    have hlt' : i + 1 < stop := by omega
    rw [matching, matchingFrom, if_pos hlt', hopen] at hm
    rw [statementEndFrom.eq_def, if_pos hlt, hhash] at h
    dsimp only at h
    rw [statementEndFrom.eq_def, if_pos hlt', hopen] at h
    dsimp only at h
    rw [statementEndFrom_of_matchingFrom (b := .square) hm rfl (by decide)] at h
    rcases statementEndFrom_significant h with hsig | ⟨hk, hsig⟩
    · exact ih hsig ha
    · exact .inr ⟨hk, hsig ▸ ha⟩
  | case3 =>
    cases ha
    exact .inl (statementEndFrom_bounds h).1

end Tokens
end PhpGraft
