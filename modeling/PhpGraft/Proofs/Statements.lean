import PhpGraft.Proofs.Balance
import PhpGraft.Proofs.Heredoc

/-!
The statements of a fragment, moved to another indentation and printed on lines of their own, are
split as they were in the fragment.
-/
namespace PhpGraft.Tokens

open Lexer

/-- How the statements from an index on are split. -/
inductive Split (ts : Tokens) (stop : Nat) : Nat → List Text → Prop
  | nil {i} : ¬ts.significant i stop < stop →
      (ts.between (ts.leading i (ts.significant i stop)) stop).trim = [] → Split ts stop i []
  /-- Comments behind the last statement. -/
  | notes {i} : ¬ts.significant i stop < stop →
      (ts.between (ts.leading i (ts.significant i stop)) stop).trim ≠ [] →
      Split ts stop i [(ts.between (ts.leading i (ts.significant i stop)) stop).trim]
  | cons {i head next rest} : ts.significant i stop < stop →
      ts.skipAttributes (ts.significant i stop) stop = .ok head →
      ts.statementEnd (ts.significant i stop) stop (ts.isBlock head) = .ok next →
      Split ts stop (ts.trailing next stop) rest →
      Split ts stop i ((ts.between (ts.leading i (ts.significant i stop))
        (ts.trailing next stop)).trim :: rest)

variable {ts F N : Tokens} {i n head next start stop : Nat} {sts : List Text}

theorem split_of_statements (h : ts.statements i stop = .ok sts) : ts.Split stop i sts := by
  fun_induction statements ts i stop generalizing sts with
  | case1 => cases h
  | case2 => cases h
  | case3 => cases h
  | case4 i first start hs head ha next he =>
    rename_i rest hrest ih
    cases h
    exact .cons hs ha he (ih hrest)
  | case5 i first start hs =>
    cases h
    split
    · exact .nil hs (List.isEmpty_iff.1 ‹_›)
    · exact .notes hs fun h => ‹¬_› (List.isEmpty_iff.2 h)

theorem statements_of_split (h : ts.Split stop i sts) : ts.statements i stop = .ok sts := by
  induction h with
  | nil hs ht => rw [statements_nil hs, ht, List.isEmpty_nil, if_pos rfl]
  | notes hs ht => rw [statements_nil hs, if_neg fun h => ht (List.isEmpty_iff.1 h)]
  | cons hs ha he _ ih => exact statements_cons hs ha he ih

/-- White space in front of statements is skipped. -/
theorem statements_white (hk : ts.kind? i = some .whitespace) (hi : i < stop)
    (h : ts.statements (i + 1) stop = .ok sts) : ts.statements i stop = .ok sts := by
  have hcode : ts.isCode i = false := by
    rw [isCode, hk]
    rfl
  have hsig := significant_succ hcode hi
  have hlead : ts.leading i (ts.significant i stop) =
      ts.leading (i + 1) (ts.significant (i + 1) stop) := by
    rw [hsig]
    refine leading_of_skip (Nat.le_succ i) (le_significant hi) fun k h₁ h₂ => ?_
    obtain rfl : k = i := by omega
    rw [isComment, hk]
    rfl
  have hsplit := split_of_statements h
  generalize hj : i + 1 = j at *
  refine statements_of_split ?_
  cases hsplit with
  | nil hs ht =>
    rw [← hlead] at ht
    rw [← hsig] at hs
    exact .nil hs ht
  | notes hs ht =>
    rw [← hlead] at ht ⊢
    rw [← hsig] at hs
    exact .notes hs ht
  | cons hs ha he hrest =>
    rw [← hlead]
    rw [← hsig] at hs ha he
    exact .cons hs ha he hrest

/-! A slice of tokens and tokens like it. -/

theorem drop_split (ts : Tokens) (h : start ≤ stop) :
    ts.toList.drop start = (ts.extract start stop).toList ++ ts.toList.drop stop := by
  rw [Array.toList_extract, List.extract_eq_take_drop]
  conv => lhs; rw [← List.take_append_drop (stop - start) (ts.toList.drop start)]
  rw [List.drop_drop, Nat.add_sub_cancel' h]

theorem toList_split (ts : Tokens) (h : start ≤ stop) : ts.toList =
    ts.toList.take start ++ ((ts.extract start stop).toList ++ ts.toList.drop stop) := by
  rw [← ts.drop_split h, List.take_append_drop]

theorem forall_extract {P : Token → Prop}
    (h : ∀ k, start ≤ k → k < stop → ∀ t, ts[k]? = some t → P t) :
    ∀ t ∈ (ts.extract start stop).toList, P t := by
  intro t ht
  obtain ⟨k, hk⟩ := List.mem_iff_getElem?.1 ht
  rw [Array.getElem?_toList, Array.getElem?_extract] at hk
  split at hk
  · exact h (start + k) (Nat.le_add_right _ _) (by omega) t hk
  · cases hk

theorem between_of_le (ts : Tokens) (h : stop ≤ start) : ts.between start stop = [] := by
  rw [between_eq, Nat.sub_eq_zero_of_le h, List.take_zero]
  rfl

theorem between_append_list (A X B : List Token) :
    Tokens.between (A ++ (X ++ B)).toArray A.length (A.length + X.length) = Token.spell X := by
  rw [between_eq, Nat.add_sub_cancel_left, List.drop_left, List.take_left]

theorem alike_of_extract {A us R : List Token} (hsize : stop ≤ ts.size)
    (h : List.Forall₂ Token.Like (ts.extract start stop).toList us) :
    ∀ k, start ≤ k → k < stop → Alike ts (A ++ (us ++ R)).toArray k (shift start A.length k) := by
  intro k hk hks
  have hlen := h.length_eq
  rw [length_extract hsize] at hlen
  have hget : (A ++ (us ++ R)).toArray[shift start A.length k]? = us[k - start]? := by
    rw [shift, getElem?_append, List.getElem?_append_left (by omega)]
  unfold Alike
  rw [hget, ← getElem?_extract hk hks]
  have hlt : k - start < (ts.extract start stop).toList.length := by
    rw [length_extract hsize]
    omega
  rw [List.getElem?_eq_getElem hlt, List.getElem?_eq_getElem (by omega)]
  exact .some (List.forall₂_iff_get.1 h |>.2 _ hlt (by omega))

/-- What the search for the comment that ends a line finds. -/
theorem trailing_cases (ts : Tokens) (i stop : Nat) : ts.trailing i stop = i ∨
    i < stop ∧ ts.kind? i = some .lineComment ∧ ts.trailing i stop = i + 1 ∨
    i + 1 < stop ∧ ts.kind? i = some .whitespace ∧ (ts.text i).contains '\n' = false ∧
      ts.kind? (i + 1) = some .lineComment ∧ ts.trailing i stop = i + 2 := by
  unfold trailing
  dsimp only
  split
  · rename_i hc
    obtain ⟨hk, hw⟩ := Bool.and_eq_true_iff.1 hc
    rw [Bool.not_eq_true'] at hw
    split
    · rename_i hl
      exact .inr (.inr ⟨hl.1, beq_iff_eq.1 hk, hw, hl.2, rfl⟩)
    · exact .inl rfl
  · split
    · rename_i hl
      exact .inr (.inl ⟨hl.1, hl.2, rfl⟩)
    · exact .inl rfl

/-- What ends in a brace, nothing carries on. -/
theorem continues_statementEnd {first : Nat} {block : Bool} {stack : List (Bracket × Nat)}
    (h : ts.statementEndFrom first stop block stack i = .ok n)
    (hn : ts.isPunct (n - 1) '\x7d' = true) : ts.continues n stop = false := by
  fun_induction statementEndFrom ts first stop block stack i with
  | case1 _ _ _ _ ih => exact ih h
  | case2 _ _ _ _ _ ih => exact ih h
  | case3 => cases h
  | case4 stack i hlt b hd rest hc he =>
    cases h
    simpa using he.2.2.2
  | case5 _ _ _ _ _ _ _ _ ih => exact ih h
  | case6 stack i hlt hd he =>
    cases h
    rw [Nat.add_sub_cancel] at hn
    rw [delimiter?, isPunct_iff.1 hn] at hd
    cases hd
  | case7 _ _ _ _ _ ih => exact ih h
  | case8 => cases h
  | case9 => cases h

theorem leading_leading (ts : Tokens) (i first : Nat) :
    ts.leading (ts.leading i first) first = ts.leading i first := by
  unfold leading
  rw [firstFrom.eq_def ts.isComment (firstFrom ts.isComment i first)]
  split
  · rw [if_pos (firstFrom_pos ‹_›)]
  · exact Nat.le_antisymm (Nat.le_of_not_lt ‹_›) (firstFrom_le ..)

/-- A comment in front of a line break ends the line, and nothing else does. -/
theorem trailing_of_alike {a : Nat} (hle : start ≤ next)
    (halike : ∀ k, start ≤ k → k < F.trailing next n → Alike F N k (shift start a k))
    (hwhite : N.kind? (shift start a (F.trailing next n)) = some .whitespace)
    (hline : (N.text (shift start a (F.trailing next n))).contains '\n' = true)
    (hstop : shift start a (F.trailing next n) < stop) :
    N.trailing (shift start a next) stop = shift start a (F.trailing next n) := by
  rcases F.trailing_cases next n with ht | ⟨-, hk, ht⟩ | ⟨-, hk, hw, hk', ht⟩
  · rw [ht] at hwhite hline ⊢
    refine trailing_none (fun h => ?_) fun _ hno => ?_
    · rw [hwhite] at h
      cases h
    · rw [hline] at hno
      cases hno
  · rw [ht] at halike hstop ⊢
    have h₁ := (halike next hle (Nat.lt_succ_self _)).kind?_eq.trans hk
    obtain ⟨⟨kind, text⟩, hget, hkind⟩ := Option.map_eq_some_iff.1 h₁
    obtain rfl : kind = .lineComment := hkind
    rw [shift_succ hle] at hstop ⊢
    exact trailing_near hget (Nat.lt_of_succ_lt hstop)
  · rw [ht] at halike hstop ⊢
    have h₁ := halike next hle (by omega)
    have h₂ := (halike (next + 1) (by omega) (by omega)).kind?_eq.trans hk'
    have hw' := (h₁.contains_eq hk).trans hw
    obtain ⟨⟨kind, text⟩, hget, hkind⟩ := Option.map_eq_some_iff.1 (h₁.kind?_eq.trans hk)
    obtain ⟨⟨kind', text'⟩, hget', hkind'⟩ := Option.map_eq_some_iff.1 h₂
    obtain rfl : kind = .whitespace := hkind
    obtain rfl : kind' = .lineComment := hkind'
    rw [shift_succ (Nat.le_succ_of_le hle), shift_succ hle] at hstop ⊢
    rw [shift_succ hle] at hget'
    rw [Tokens.text, hget] at hw'
    exact trailing_apart hget hw' hget' (Nat.lt_of_succ_lt hstop)

/-- A statement in front of a line break, among tokens that do not carry it on. -/
theorem statement_of_alike {a : Nat} (hs : F.significant i n < n)
    (ha : F.skipAttributes (F.significant i n) n = .ok head)
    (he : F.statementEnd (F.significant i n) n (F.isBlock head) = .ok next)
    (hclose : ∀ k, F.kind? k ≠ some .closeTag) (hst : F.leading i (F.significant i n) = start)
    (halike : ∀ k, start ≤ k → k < F.trailing next n → Alike F N k (shift start a k))
    (hwhite : N.kind? (shift start a (F.trailing next n)) = some .whitespace)
    (hline : (N.text (shift start a (F.trailing next n))).contains '\n' = true)
    (hstop : shift start a (F.trailing next n) < stop)
    (hcalm : F.continues next n = false → N.continues (shift start a next) stop = false) :
    N.significant a stop = shift start a (F.significant i n) ∧
    (∀ rest, N.statements (shift start a (F.trailing next n)) stop = .ok rest →
      N.statements a stop =
        .ok ((N.between a (shift start a (F.trailing next n))).trim :: rest)) ∧
    N.Balanced a (shift start a (F.trailing next n)) := by
  have hfirst : i ≤ F.significant i n := le_firstFrom_of_lt hs
  have hi : i ≤ start := hst ▸ F.le_leading hfirst
  have hstart : start ≤ F.significant i n := hst ▸ F.leading_le ..
  have hlead : F.leading start (F.significant i n) = start := by
    rw [← hst]
    exact F.leading_leading ..
  have hsig : F.significant start n = F.significant i n :=
    (significant_of_skip hi (by omega) fun k hk hks =>
      F.plain_significant i n k hk (Nat.lt_of_lt_of_le hks hstart)).symm
  have hbounds := statementEnd_bounds he
  have htrail := F.le_trailing next n
  have hshift := @shift_le start a next (F.trailing next n) htrail
  obtain ⟨z, hz, hp⟩ := (ended_statementEnd he).resolve_left (hclose _)
  have W : Window F N start a next n stop := by
    refine ⟨fun k hk hkn => halike k hk (by omega), .wall (by omega) (firm_of_barrier hz hp)
      hbounds.2 (by omega), fun hb _ => ?_⟩
    have hfalse := continues_statementEnd he hb
    rw [hcalm hfalse, hfalse]
  have hself : shift start a start = a := shift_self start a
  obtain ⟨hsig', -, -⟩ := W.significant (Nat.le_refl start) (by omega)
  have hlead' := W.leading (Nat.le_refl start) hbounds.1
  rw [hself, hsig] at hsig'
  rw [hself, hlead] at hlead'
  have hhead : head < next := (lt_of_statementEndFrom he ha).resolve_right fun h => hclose _ h.1
  have hheadle := le_of_skipAttributes ha
  obtain ⟨ha', hlo⟩ := W.skipAttributes ha hstart hbounds.1 (Nat.le_of_lt hs) hhead
  have he' := W.statementEnd he hstart (Nat.le_refl next)
  rw [← (W.alike head hlo hhead).isBlock_eq] at he'
  have ht' : N.trailing (shift start a next) stop = shift start a (F.trailing next n) :=
    trailing_of_alike (by omega) halike hwhite hline hstop
  have hlt' := (W.lt_stop_iff hstart hbounds.1).2 hs
  rw [← hsig'] at ha' he' hlead' hlt'
  refine ⟨hsig', fun rest hrest => ?_, ?_⟩
  · have hcons := statements_cons hlt' ha' he' (by rw [ht']; exact hrest)
    rwa [hlead', hself, ht'] at hcons
  · have hge : a ≤ N.significant a stop := le_firstFrom_of_lt hlt'
    have hend := statementEnd_bounds he'
    refine ((balanced_of_plain hge (N.plain_significant a stop)).trans (balanced_statementEnd he')
      (by omega)).trans ?_ hshift
    rw [← ht']
    exact balanced_of_plain (N.le_trailing ..) (plain_trailing N _ _)

/-! Sentences of a fragment. -/

theorem reads_kinds_append {xs zs : List Token} {s : Text} (h : Reads .code (xs ++ zs) s)
    (hclose : ∀ t ∈ xs, t.kind ≠ .closeTag) : ∀ t ∈ xs, t.kind.isOutside = false ∧
      (t.kind = .whitespace → ∀ c ∈ t.text, isSpace c = true) := by
  induction xs generalizing s with
  | nil => exact fun _ h => by cases h
  | cons x xs ih =>
    obtain ⟨hk, hxs⟩ := List.forall_mem_cons.1 hclose
    cases h with
    | @cons _ c u t k _ hs hr =>
      have hrule := rule_of_scanCode hs
      rw [after_code hk] at hr
      refine List.forall_mem_cons.2 ⟨⟨?_, ?_⟩, ih hr hxs⟩
      · show k.isOutside = false
        generalize u.length = n at hrule
        cases hrule with
        | closeTag => exact absurd rfl hk
        | comment => split <;> rfl
        | _ => rfl
      · rintro rfl
        exact hrule.whitespace_space

theorem reads_kinds {xs : List Token} {s : Text} (h : Reads .code xs s)
    (hclose : ∀ t ∈ xs, t.kind ≠ .closeTag) : ∀ t ∈ xs, t.kind.isOutside = false ∧
      (t.kind = .whitespace → ∀ c ∈ t.text, isSpace c = true) :=
  reads_kinds_append ((List.append_nil xs).symm ▸ h) hclose

theorem white_of_space {w : Text} (h : ∀ c ∈ w, isSpace c = true) : ∀ c ∈ w, isWhite c = true :=
  fun c hc => isWhite_of_isSpace (h c hc)

theorem trim_white {w : Text} (h : ∀ c ∈ w, isWhite c = true) : Text.trim w = [] := by
  rw [Text.trim, Text.trimStart, List.dropWhile_eq_nil_iff.2 h]
  rfl

theorem exists_last_comment
    (h : ∀ k, start ≤ k → k < n → ts.kind? k = some .whitespace ∨ ts.isComment k = true) :
    (∀ k, start ≤ k → k < n → ts.kind? k = some .whitespace) ∨
      ∃ m, start < m ∧ m ≤ n ∧ ts.isComment (m - 1) = true ∧
        ∀ k, m ≤ k → k < n → ts.kind? k = some .whitespace := by
  induction n with
  | zero => exact .inl fun k _ hk => absurd hk (Nat.not_lt_zero k)
  | succ n ih =>
    by_cases hn : start ≤ n
    · rcases h n hn (Nat.lt_succ_self n) with hw | hc
      · refine (ih fun k hk hkn => h k hk (Nat.lt_succ_of_lt hkn)).imp (fun hall k hk hkn => ?_)
          fun ⟨m, h₁, h₂, h₃, hall⟩ => ⟨m, h₁, Nat.le_succ_of_le h₂, h₃, fun k hk hkn => ?_⟩
        · rcases Nat.lt_or_eq_of_le (Nat.le_of_lt_succ hkn) with hlt | rfl
          · exact hall k hk hlt
          · exact hw
        · rcases Nat.lt_or_eq_of_le (Nat.le_of_lt_succ hkn) with hlt | rfl
          · exact hall k hk hlt
          · exact hw
      · exact .inr ⟨n + 1, Nat.lt_succ_of_le hn, Nat.le_refl _, hc, fun k hk hkn => by omega⟩
    · exact .inl fun k hk hkn => by omega

theorem forall₂_refl (xs : List Token) : List.Forall₂ Token.Like xs xs :=
  List.forall₂_same.2 fun x _ => .refl x

section

variable {code : Text} (hF : Reads .code F.toList code)
  (hclose : ∀ t ∈ F.toList, t.kind ≠ .closeTag)
include hF hclose

theorem kind?_fragment {k : Nat} {kind : TokenKind} (hk : F.kind? k = some kind) :
    kind.isOutside = false ∧ (kind = .whitespace → ∀ c ∈ F.text k, isSpace c = true) := by
  obtain ⟨t, hget, rfl⟩ := Option.map_eq_some_iff.1 hk
  have hmem : t ∈ F.toList := List.mem_of_getElem? (by rw [Array.getElem?_toList]; exact hget)
  obtain ⟨hout, hspace⟩ := reads_kinds hF hclose t hmem
  refine ⟨hout, fun hw => ?_⟩
  rw [Tokens.text, hget]
  exact hspace hw

theorem between_white (h : ∀ k, start ≤ k → k < stop → F.kind? k = some .whitespace) :
    ∀ c ∈ F.between start stop, isWhite c = true := by
  intro c hc
  obtain ⟨t, hmem, hct⟩ := List.mem_flatMap.1 hc
  refine forall_extract (P := fun t => ∀ c ∈ t.text, isWhite c = true) (fun k hk hks t hget => ?_)
    t hmem c hct
  have hspace := (kind?_fragment hF hclose (h k hk hks)).2 rfl
  rw [Tokens.text, hget] at hspace
  exact white_of_space hspace

variable (ht : code.isTidy = true)
include ht

theorem sentence_of_slice (hlt : start < stop) (hsize : stop ≤ F.size)
    (hlast : (∃ z, isBarrier z = true ∧ F.isPunct (stop - 1) z = true) ∨
      F.isComment (stop - 1) = true)
    (hfirst : F.kind? start ≠ some .whitespace) :
    ∃ xs, List.Forall₂ Token.Like (F.extract start stop).toList xs ∧ Sentence xs ∧
      (∀ w : Text, (∀ c ∈ w, isWhite c = true) →
        Text.trim (F.between start stop ++ w) = Token.spell xs) ∧
      Token.heredocs (F.extract start stop).toList = Token.heredocs xs := by
  have hlen : (F.extract start stop).toList.length = stop - start := length_extract hsize
  have hget : ∀ k, start ≤ k → k < stop → (F.extract start stop).toList[k - start]? = F[k]? :=
    fun k hk hks => getElem?_extract hk hks
  generalize hE : (F.extract start stop).toList = E at hlen hget
  have hbetween : F.between start stop = Token.spell E := by rw [between, hE]
  obtain ⟨x, hx⟩ : ∃ x, E.getLast? = some x :=
    ⟨_, List.getLast?_eq_some_getLast fun h => by rw [h, List.length_nil] at hlen; omega⟩
  obtain ⟨L, rfl⟩ := List.getLast?_eq_some_iff.1 hx
  have hsplit := F.toList_split (Nat.le_of_lt hlt)
  rw [hE, List.append_assoc] at hsplit
  have hxF : F[stop - 1]? = some x := by
    rw [← hget (stop - 1) (by omega) (by omega), show stop - 1 - start = L.length by
      rw [List.length_append, List.length_singleton] at hlen
      omega, List.getElem?_append_right (Nat.le_refl _), Nat.sub_self]
    rfl
  rw [hsplit] at hF hclose
  obtain ⟨y, hlike, hs, htrim⟩ := Sentence.of_reads hF ht hclose
    (hlast.imp
      (.imp fun z => .imp_right fun hp => Option.some.inj (hxF.symm.trans (isPunct_iff.1 hp)))
      fun hc => by rwa [isComment, kind?, hxF] at hc)
    fun y hy hk => hfirst (by
      rw [List.head?_eq_getElem?, ← Nat.sub_self start, hget start (Nat.le_refl _) hlt] at hy
      rw [kind?, hy, Option.map_some, hk])
  have hx : x.kind ≠ .heredoc := by
    rcases hlast with ⟨z, -, hp⟩ | hc
    · rw [Option.some.inj (hxF.symm.trans (isPunct_iff.1 hp))]
      rintro ⟨⟩
    · rw [isComment, kind?, hxF] at hc
      exact fun h => by rw [Option.map_some, h] at hc; cases hc
  refine ⟨L ++ [y], List.rel_append (forall₂_refl L) (.cons hlike .nil), hs,
    fun w hw => by rw [hbetween, htrim w hw], ?_⟩
  rw [Token.heredocs_append, Token.heredocs_append,
    Token.heredocs_eq_nil (List.forall_mem_singleton.2 hx),
    Token.heredocs_eq_nil (List.forall_mem_singleton.2 (hlike.kind ▸ hx))]

/-- Comments behind the last statement make up a sentence. -/
theorem sentence_of_notes (hi : i ≤ F.size) (hs : ¬F.significant i F.size < F.size)
    (hne : (F.between (F.leading i (F.significant i F.size)) F.size).trim ≠ []) :
    ∃ xs m, F.leading i F.size < m ∧ m ≤ F.size ∧
      List.Forall₂ Token.Like (F.extract (F.leading i F.size) m).toList xs ∧ Sentence xs ∧
      (F.between (F.leading i (F.significant i F.size)) F.size).trim = Token.spell xs ∧
      (∀ k, i ≤ k → k < F.size → F.isCode k = false) ∧ F.isComment (F.leading i F.size) = true := by
  have hsig : F.significant i F.size = F.size :=
    Nat.le_antisymm (F.significant_le ..) (Nat.le_of_not_lt hs)
  have hplain := F.plain_significant i F.size
  rw [hsig] at hplain hne ⊢
  have hlead := F.leading_le i F.size
  have hkinds : ∀ k, F.leading i F.size ≤ k → k < F.size →
      F.kind? k = some .whitespace ∨ F.isComment k = true := by
    intro k hk hks
    have hkind := kind?_eq_getElem hks
    have hcode := hplain k (Nat.le_trans (F.le_leading hi) hk) hks
    rw [isCode, hkind, Option.any_some, TokenKind.isCode, (kind?_fragment hF hclose hkind).1,
      TokenKind.isTrivia] at hcode
    rw [isComment, hkind, Option.any_some, Option.some.injEq]
    refine Decidable.or_iff_not_imp_left.2 fun hw => ?_
    simpa [hw] using hcode
  rcases exists_last_comment hkinds with hall | ⟨m, h₁, h₂, hc, hall⟩
  · exact absurd (trim_white (between_white hF hclose hall)) hne
  · have hcomment : F.isComment (F.leading i F.size) = true := firstFrom_pos (by unfold leading at *; omega)
    obtain ⟨xs, hlike, hxs, htrim, -⟩ := sentence_of_slice hF hclose ht h₁ h₂ (.inr hc) fun hk => by
      rw [isComment, hk] at hcomment
      cases hcomment
    refine ⟨xs, m, h₁, h₂, hlike, hxs, ?_, hplain, hcomment⟩
    rw [← between_append (Nat.le_of_lt h₁) h₂]
    exact htrim _ (between_white hF hclose hall)

end

/-! Heredocs of a fragment. -/

theorem heredocs_plain (h : ∀ k, start ≤ k → k < stop → ts.isCode k = false) :
    Token.heredocs (ts.extract start stop).toList = [] := by
  refine Token.heredocs_eq_nil (forall_extract fun k hk hks t hget hkind => ?_)
  have hno := h k hk hks
  rw [isCode, kind?, hget, Option.map_some, hkind] at hno
  cases hno

theorem heredocs_drop_plain (h : ∀ k, i ≤ k → k < ts.size → ts.isCode k = false) :
    Token.heredocs (ts.toList.drop i) = [] := by
  rcases Nat.le_total i ts.size with hi | hi
  · rw [drop_split ts hi, Token.heredocs_append, heredocs_plain h, List.drop_eq_nil_of_le (by simp)]
    rfl
  · rw [List.drop_eq_nil_of_le (by simpa using hi)]
    rfl

/-- The heredocs of a statement and of those behind it. -/
theorem heredocs_drop (hi : i ≤ start) (hs : start ≤ stop)
    (h : ∀ k, i ≤ k → k < start → ts.isCode k = false) :
    Token.heredocs (ts.toList.drop i) =
      Token.heredocs (ts.extract start stop).toList ++ Token.heredocs (ts.toList.drop stop) := by
  rw [drop_split ts hi, Token.heredocs_append, heredocs_plain h, drop_split ts hs,
    Token.heredocs_append]
  rfl

/-! Statements on lines of their own. -/

/-- Statements, each moved and in front of the indentation of what follows it. -/
def movedBody (e : LineEnding) (inner outer : Text) : List Text → Text
  | [] => []
  | s :: ss => reindent s inner e.text ++
    (e.text ++ ((if ss.isEmpty then outer else inner) ++ movedBody e inner outer ss))

def brace : Token := ⟨.punct, "\x7d"⟩

/-- Tokens of moved statements: in front of a closing brace they are split as in the fragment. -/
structure Moves (F : Tokens) (i : Nat) (text : Text) (moved : List Text) (xs : List Token) : Prop where
  solid : (text ++ "\x7d").head?.any isSpace = false
  reads : Reads .code (xs ++ [brace]) (text ++ "\x7d")
  inside : ∀ t ∈ xs, t.kind.isOutside = false
  calm : F.continues i F.size = false → ∀ B, Calm (xs ++ brace :: B)
  statements : ∀ A B, Tokens.statements (A ++ (xs ++ brace :: B)).toArray A.length
    (A.length + xs.length) = .ok moved
  balanced : ∀ A B, Balanced (A ++ (xs ++ brace :: B)).toArray A.length (A.length + xs.length)

theorem calm_brace (B : List Token) : Calm (brace :: B) := by
  rintro t ⟨⟩ hk
  cases hk

theorem scanCode_brace : Reads .code [brace] "\x7d" := .cons (scanCode_barrier rfl []) .nil

theorem moves_nil (F : Tokens) (i : Nat) (e : LineEnding) (inner outer : Text) :
    Moves F i (movedBody e inner outer []) [] [] where
  solid := rfl
  reads := scanCode_brace
  inside := fun _ h => by cases h
  calm := fun _ B => calm_brace B
  statements := fun A B => by
    have hsig : ¬Tokens.significant (A ++ ([] ++ brace :: B)).toArray A.length A.length < A.length :=
      Nat.not_lt_of_le (le_significant (Nat.le_refl _))
    refine statements_of_split (.nil hsig ?_)
    exact congrArg Text.trim (between_of_le _ (le_leading (le_significant (Nat.le_refl _))))
  balanced := fun A B => .refl _ _

theorem forall₂_kind {P : TokenKind → Prop} {xs us : List Token} (h : List.Forall₂ Token.Like xs us)
    (hx : ∀ x ∈ xs, P x.kind) : ∀ u ∈ us, P u.kind := by
  induction h with
  | nil => exact fun _ h => by cases h
  | cons h _ ih =>
    obtain ⟨hx, hxs⟩ := List.forall_mem_cons.1 hx
    exact List.forall_mem_cons.2 ⟨h.kind ▸ hx, ih hxs⟩

theorem forall₂_trans {xs us vs : List Token} (h : List.Forall₂ Token.Like xs us)
    (h' : List.Forall₂ Token.Like us vs) : List.Forall₂ Token.Like xs vs := by
  induction h generalizing vs with
  | nil => exact h'
  | cons h _ ih =>
    cases h' with
    | cons h' hs => exact .cons (h.trans h') (ih hs)

theorem not_isSpace_of_solid {s t : Text} (h : s.Solid) : (s ++ t).head?.any isSpace = false := by
  obtain ⟨c, u, rfl, hc⟩ := h.first
  refine Bool.eq_false_iff.2 fun hs => ?_
  rw [isWhite_of_isSpace hs] at hc
  cases hc

/-- What the code starts with decides whether it carries a statement on. -/
theorem calm_of_alike {A B : List Token} {k : Nat}
    (hs : Tokens.significant (A ++ B).toArray A.length stop < stop)
    (h : Alike F (A ++ B).toArray k (Tokens.significant (A ++ B).toArray A.length stop))
    (hno : F.isOneOf k continuations = false) : Calm B := by
  obtain ⟨t, hfind, hget⟩ := find?_of_significant hs
  intro u hu hname hmem
  obtain rfl : t = u := Option.some.inj (hfind.symm.trans hu)
  rw [← h.isOneOf_eq, isOneOf, List.any_eq_false] at hno
  refine hno _ hmem ?_
  simp [isKeyword, isName, kind?, Tokens.text, hget, hname]

/-- What ends a statement or a member, or the comment that ends its last line. -/
theorem ended_trailing (h : ∃ z, isBarrier z = true ∧ ts.isPunct (i - 1) z = true) (stop : Nat) :
    (∃ z, isBarrier z = true ∧ ts.isPunct (ts.trailing i stop - 1) z = true) ∨
      ts.kind? (ts.trailing i stop - 1) = some .lineComment := by
  rcases ts.trailing_cases i stop with hi | ⟨-, hk, hi⟩ | ⟨-, -, -, hk, hi⟩
  · rw [hi]
    exact .inl h
  · rw [hi]
    exact .inr hk
  · rw [hi]
    exact .inr hk

/-- A statement starts with its code or with a comment. -/
theorem kind?_leading (hs : ts.significant i stop < stop) :
    ts.kind? (ts.leading i (ts.significant i stop)) ≠ some .whitespace := by
  intro hk
  rcases Nat.lt_or_eq_of_le (ts.leading_le i (ts.significant i stop)) with hlt | heq
  · have hcomment : ts.isComment (ts.leading i (ts.significant i stop)) = true := firstFrom_pos hlt
    rw [isComment, hk] at hcomment
    cases hcomment
  · have hcode := isCode_significant hs
    rw [← heq, isCode, hk] at hcode
    cases hcode

/-- Comments and white space are one statement. -/
theorem statements_plain {A B C : List Token} (hcode : ∀ t ∈ C, t.kind.isCode = false)
    (hfirst : Tokens.isComment (A ++ C ++ B).toArray A.length = true)
    (hne : (Token.spell C).trim ≠ []) :
    Tokens.statements (A ++ C ++ B).toArray A.length (A.length + C.length) =
      .ok [(Token.spell C).trim] := by
  have hplain : Plain (A ++ C ++ B).toArray A.length (A.length + C.length) := plain_between hcode
  have hpos : 0 < C.length := by
    refine List.length_pos_iff.2 ?_
    rintro rfl
    exact hne rfl
  have hsig : ¬Tokens.significant (A ++ C ++ B).toArray A.length (A.length + C.length) <
      A.length + C.length := by
    intro hlt
    have hyes := isCode_significant hlt
    rw [hplain _ (le_significant (Nat.le_add_right _ _)) hlt] at hyes
    cases hyes
  have hlead : Tokens.leading (A ++ C ++ B).toArray A.length
      (Tokens.significant (A ++ C ++ B).toArray A.length (A.length + C.length)) = A.length := by
    rw [leading, firstFrom, if_pos (by omega), if_pos hfirst]
  have htext : Tokens.between (A ++ C ++ B).toArray A.length (A.length + C.length) = Token.spell C := by
    rw [List.append_assoc, between_append_list]
  rw [statements_nil hsig, hlead, htext, if_neg fun hempty => hne (List.isEmpty_iff.1 hempty)]

variable {us xs : List Token} {v body : Text} {moved : List Text}

/-- What is moved behind a statement does not carry it on. -/
theorem Moves.continues_alike {start : Nat} (h : Moves F (F.trailing next F.size) body moved xs)
    (hle : start ≤ next) (htle : F.trailing next F.size ≤ F.size)
    (hall : List.Forall₂ Token.Like (F.extract start (F.trailing next F.size)).toList us)
    (hno : F.continues next F.size = false) (A B : List Token) (stop : Nat) :
    Tokens.continues (A ++ (us ++ ⟨.whitespace, v⟩ :: (xs ++ brace :: B))).toArray
      (shift start A.length next) stop = false := by
  have htrail := F.le_trailing next F.size
  have hlen : us.length = F.trailing next F.size - start := by
    rw [← hall.length_eq, length_extract htle]
  have halike := alike_of_extract (A := A) (R := ⟨.whitespace, v⟩ :: (xs ++ brace :: B)) htle hall
  have hcode : ∀ t ∈ us.drop (next - start) ++ [⟨.whitespace, v⟩], t.kind.isCode = false := by
    refine List.forall_mem_append.2 ⟨fun t ht => ?_, List.forall_mem_singleton.2 rfl⟩
    obtain ⟨j, hj⟩ := List.mem_iff_getElem?.1 ht
    rw [List.getElem?_drop] at hj
    have hlt := (List.getElem?_eq_some_iff.1 hj).1
    have hcode := (halike (next + j) (by omega) (by omega)).isCode_eq
    rw [F.plain_trailing next F.size (next + j) (by omega) (by omega), isCode, kind?, shift,
      getElem?_append, List.getElem?_append_left (by omega),
      show next + j - start = next - start + j by omega, hj] at hcode
    exact hcode
  have hcalm := (h.calm (by rwa [continues, significant_trailing]) B).skip hcode
  have hfalse := continues_of_calm (A := A ++ us.take (next - start)) hcalm stop
  have htake : A ++ us.take (next - start) ++ (us.drop (next - start) ++ [⟨.whitespace, v⟩] ++
      (xs ++ brace :: B)) = A ++ (us ++ ⟨.whitespace, v⟩ :: (xs ++ brace :: B)) := by
    simp only [List.append_assoc, List.singleton_append]
    rw [← List.append_assoc (us.take _), List.take_append_drop]
  rwa [htake, List.length_append, List.length_take, Nat.min_eq_left (by omega)] at hfalse

section

variable (hs : F.significant i F.size < F.size)
  (ha : F.skipAttributes (F.significant i F.size) F.size = .ok head)
  (he : F.statementEnd (F.significant i F.size) F.size (F.isBlock head) = .ok next)
  (hclose : ∀ k, F.kind? k ≠ some .closeTag)
  (hall : List.Forall₂ Token.Like (F.extract (F.leading i (F.significant i F.size))
    (F.trailing next F.size)).toList us)
  (hline : v.contains '\n' = true)
  (hxs : Moves F (F.trailing next F.size) body moved xs)
include hs ha he hclose hall hline hxs

/-- A moved statement in front of others. -/
theorem Moves.cons_alike (A B : List Token) :
    Tokens.significant (A ++ (us ++ ⟨.whitespace, v⟩ :: xs ++ brace :: B)).toArray A.length
        (A.length + (us ++ ⟨.whitespace, v⟩ :: xs).length) =
      shift (F.leading i (F.significant i F.size)) A.length (F.significant i F.size) ∧
    Tokens.statements (A ++ (us ++ ⟨.whitespace, v⟩ :: xs ++ brace :: B)).toArray A.length
        (A.length + (us ++ ⟨.whitespace, v⟩ :: xs).length) =
      .ok ((Token.spell us).trim :: moved) ∧
    Balanced (A ++ (us ++ ⟨.whitespace, v⟩ :: xs ++ brace :: B)).toArray A.length
      (A.length + (us ++ ⟨.whitespace, v⟩ :: xs).length) := by
  have hbounds := statementEnd_bounds he
  have htrail := F.le_trailing next F.size
  have htle : F.trailing next F.size ≤ F.size := trailing_le hbounds.2
  have hstart := F.leading_le i (F.significant i F.size)
  have hlen : us.length = F.trailing next F.size - F.leading i (F.significant i F.size) := by
    rw [← hall.length_eq, length_extract htle]
  have halike := alike_of_extract (A := A) (R := ⟨.whitespace, v⟩ :: (xs ++ brace :: B)) htle hall
  have hend : shift (F.leading i (F.significant i F.size)) A.length (F.trailing next F.size) =
      A.length + us.length := by
    rw [shift, hlen]
  have hN : A ++ (us ++ ⟨.whitespace, v⟩ :: xs ++ brace :: B) =
      A ++ (us ++ ⟨.whitespace, v⟩ :: (xs ++ brace :: B)) := by
    simp
  have hgap := getElem?_append (A ++ us) (⟨.whitespace, v⟩ :: (xs ++ brace :: B)) 0
  rw [List.append_assoc, List.length_append, Nat.add_zero, List.getElem?_cons_zero] at hgap
  have hrest : A ++ (us ++ ⟨.whitespace, v⟩ :: (xs ++ brace :: B)) =
      (A ++ us ++ [⟨.whitespace, v⟩]) ++ (xs ++ brace :: B) := by
    simp
  rw [hN, List.length_append, List.length_cons]
  generalize hst : F.leading i (F.significant i F.size) = start at *
  obtain ⟨hsig, hstep, hbal⟩ := statement_of_alike hs ha he hclose hst halike
    (by rw [hend, kind?, hgap]; rfl) (by rw [hend, Tokens.text, hgap]; exact hline)
    (by rw [hend]; omega) fun hno => hxs.continues_alike (by omega) htle hall hno A B
      (A.length + (us.length + (xs.length + 1)))
  have hkind : kind? (A ++ (us ++ ⟨.whitespace, v⟩ :: (xs ++ brace :: B))).toArray
      (A.length + us.length) = some .whitespace := by
    rw [kind?, hgap]
    rfl
  have hstatements := hxs.statements (A ++ us ++ [⟨.whitespace, v⟩]) B
  have hbalanced := hxs.balanced (A ++ us ++ [⟨.whitespace, v⟩]) B
  simp only [← hrest, List.length_append, List.length_singleton] at hstatements hbalanced
  have hstop : A.length + us.length + 1 + xs.length = A.length + (us.length + (xs.length + 1)) := by
    omega
  rw [hstop] at hstatements hbalanced
  rw [hend] at hstep hbal
  refine ⟨hsig, ?_, ?_⟩
  · rw [hstep _ (statements_white hkind (by omega) hstatements), between_append_list]
  · refine (hbal.trans (balanced_of_plain (Nat.le_succ _) fun k h₁ h₂ => ?_) (Nat.le_succ _)).trans
      hbalanced (by omega)
    obtain rfl : k = A.length + us.length := by omega
    rw [isCode, hkind]
    rfl

end

section

variable {code inner outer : Text} (hF : Reads .code F.toList code)
  (hclose : ∀ t ∈ F.toList, t.kind ≠ .closeTag) (ht : code.isTidy = true) (e : LineEnding)
  (hinner : ∀ c ∈ inner, isIndent c = true) (houter : ∀ c ∈ outer, isIndent c = true)
include hF hclose ht hinner houter

theorem moves_notes (hi : i ≤ F.size) (hs : ¬F.significant i F.size < F.size)
    (hne : (F.between (F.leading i (F.significant i F.size)) F.size).trim ≠ []) :
    ∃ xs, Moves F i
      (movedBody e inner outer [(F.between (F.leading i (F.significant i F.size)) F.size).trim])
      [reindent (F.between (F.leading i (F.significant i F.size)) F.size).trim inner e.text] xs ∧
      List.Forall₂ (Heredoc.Reprinted e) (Token.heredocs (F.toList.drop i)) (Token.heredocs xs) := by
  obtain ⟨xs, m, h₁, h₂, hlike, hxs, htrim, hplain, hcomment⟩ :=
    sentence_of_notes hF hclose ht hi hs hne
  rw [htrim]
  obtain ⟨us, v, hlike', htrim', hv, hline, hreads⟩ := hxs.reads_reindent e hinner (w := outer)
    houter (t := "\x7d") rfl scanCode_brace
  have hall := forall₂_trans hlike hlike'
  have hspace : ∀ {P : Token → Prop}, P ⟨.whitespace, v⟩ → ∀ t ∈ [Token.mk .whitespace v], P t :=
    fun h => List.forall_mem_singleton.2 h
  have hcode : ∀ t ∈ us ++ [Token.mk .whitespace v], t.kind.isCode = false := by
    refine List.forall_mem_append.2 ⟨forall₂_kind (P := fun k => k.isCode = false) hall ?_,
      hspace rfl⟩
    refine forall_extract fun k hk hkm t hget => ?_
    have hno := hplain k (Nat.le_trans (F.le_leading hi) hk) (Nat.lt_of_lt_of_le hkm h₂)
    rwa [isCode, kind?, hget] at hno
  have houtside : ∀ t ∈ us ++ [Token.mk .whitespace v], t.kind.isOutside = false :=
    List.forall_mem_append.2 ⟨forall₂_kind (P := fun k => k.isOutside = false) hlike'
      fun x hx => (reads_kinds hxs.reads hxs.closed x hx).1, hspace rfl⟩
  have hnone : List.Forall₂ (Heredoc.Reprinted e) (Token.heredocs (F.toList.drop i))
      (Token.heredocs (us ++ [Token.mk .whitespace v])) := by
    rw [heredocs_drop_plain hplain, Token.heredocs_eq_nil fun t h hk => by
      have hno := hcode t h
      rw [hk] at hno
      cases hno]
    exact .nil
  refine ⟨us ++ [Token.mk .whitespace v], ⟨?_, ?_, houtside, fun _ B => (calm_brace B).skip hcode,
    fun A B => ?_, fun A B => ?_⟩, hnone⟩
  · rw [movedBody, List.append_assoc]
    exact not_isSpace_of_solid (hxs.solid_reindent e hinner)
  · simpa [movedBody] using hreads
  · have hfirst : Tokens.isComment (A ++ (us ++ [Token.mk .whitespace v]) ++ brace :: B).toArray
        A.length = true := by
      have halike := alike_of_extract (A := A) (R := ⟨.whitespace, v⟩ :: brace :: B) h₂ hall _
        (Nat.le_refl _) h₁
      rw [shift_self] at halike
      simp only [List.append_assoc, List.singleton_append]
      rw [halike.isComment_eq]
      exact hcomment
    have htext : (Token.spell (us ++ [Token.mk .whitespace v])).trim =
        reindent (Token.spell xs) inner e.text := by
      rw [spell_append, spell_singleton]
      exact htrim' v (white_of_space hv)
    have hstatements := statements_plain hcode hfirst (by
      rw [htext]
      exact (hxs.solid_reindent e hinner).ne_nil)
    rwa [htext, List.append_assoc A] at hstatements
  · have hplain : Plain (A ++ (us ++ [Token.mk .whitespace v]) ++ brace :: B).toArray A.length _ :=
      plain_between hcode
    rw [List.append_assoc A] at hplain
    exact balanced_of_plain (Nat.le_add_right _ _) hplain

theorem exists_moves (hi : i ≤ F.size) (h : F.Split F.size i sts) :
    ∃ xs, Moves F i (movedBody e inner outer sts) (sts.map (reindent · inner e.text)) xs ∧
      List.Forall₂ (Heredoc.Reprinted e) (Token.heredocs (F.toList.drop i)) (Token.heredocs xs) := by
  induction h with
  | @nil i hs _ =>
    refine ⟨[], moves_nil F _ e inner outer, ?_⟩
    rw [heredocs_drop_plain fun k hk hks => F.plain_significant i F.size k hk
      (Nat.lt_of_lt_of_le hks (Nat.le_of_not_lt hs))]
    exact .nil
  | notes hs hne => exact moves_notes hF hclose ht e hinner houter hi hs hne
  | @cons i head next rest hs ha he _ ih =>
    have hbounds := statementEnd_bounds he
    have htrail := F.le_trailing next F.size
    have htle : F.trailing next F.size ≤ F.size := trailing_le hbounds.2
    have hstart := F.leading_le i (F.significant i F.size)
    have hnoclose : ∀ k, F.kind? k ≠ some .closeTag := by
      intro k hk
      have hout := (kind?_fragment hF hclose hk).1
      cases hout
    obtain ⟨blocks, hblocks, hheredocs⟩ := ih htle
    have hlast : (∃ z, isBarrier z = true ∧ F.isPunct (F.trailing next F.size - 1) z = true) ∨
        F.isComment (F.trailing next F.size - 1) = true :=
      (ended_trailing ((ended_statementEnd he).resolve_left (hnoclose _)) F.size).imp id fun hk => by
        rw [isComment, hk]
        rfl
    obtain ⟨xs, hlike, hxs, htrim, hsame⟩ :=
      sentence_of_slice hF hclose ht (by omega) htle hlast (kind?_leading hs)
    have hslice := htrim [] fun _ h => by cases h
    rw [List.append_nil] at hslice
    have hgap : ∀ c ∈ (if rest.isEmpty then outer else inner : Text), isIndent c = true := by
      split
      · exact houter
      · exact hinner
    obtain ⟨us, v, hlike', htrim', hv, hline, hreads⟩ :=
      hxs.reads_reindent e hinner hgap hblocks.solid hblocks.reads
    have hall := forall₂_trans hlike hlike'
    have hus := htrim' [] fun _ h => by cases h
    rw [List.append_nil] at hus
    have hstep := fun A B => hblocks.cons_alike hs ha he hnoclose hall hline A B
    have hlen : us.length = F.trailing next F.size - F.leading i (F.significant i F.size) := by
      rw [← hall.length_eq, length_extract htle]
    have hreprinted : List.Forall₂ (Heredoc.Reprinted e) (Token.heredocs (F.toList.drop i))
        (Token.heredocs (us ++ ⟨.whitespace, v⟩ :: blocks)) := by
      have hfirst := hxs.reprinted hinner hlike' hus
      rw [← hsame] at hfirst
      have hlead : i ≤ F.leading i (F.significant i F.size) := F.le_leading (le_firstFrom_of_lt hs)
      have hcut : Token.heredocs (F.toList.drop i) =
          Token.heredocs (F.extract (F.leading i (F.significant i F.size))
            (F.trailing next F.size)).toList ++ Token.heredocs (F.toList.drop (F.trailing next F.size)) :=
        heredocs_drop hlead (by omega) fun k hk hks =>
          F.plain_significant i F.size k hk (Nat.lt_of_lt_of_le hks hstart)
      rw [hcut, Token.heredocs_append]
      exact List.rel_append hfirst hheredocs
    refine ⟨us ++ ⟨.whitespace, v⟩ :: blocks, ⟨?_, ?_, ?_, fun hno B => ?_, fun A B => ?_,
      fun A B => (hstep A B).2.2⟩, hreprinted⟩
    · rw [hslice, movedBody, List.append_assoc]
      exact not_isSpace_of_solid (hxs.solid_reindent e hinner)
    · rw [hslice, movedBody]
      simpa only [List.append_assoc, List.cons_append] using hreads
    · refine List.forall_mem_append.2 ⟨forall₂_kind (P := fun k => k.isOutside = false) hlike'
        fun x hx => (reads_kinds hxs.reads hxs.closed x hx).1, ?_⟩
      exact List.forall_mem_cons.2 ⟨rfl, hblocks.inside⟩
    · have hsig := (hstep [] B).1
      have halike := alike_of_extract (A := []) (R := ⟨.whitespace, v⟩ :: (blocks ++ brace :: B)) htle
        hall (F.significant i F.size) hstart (by omega)
      have hB : [] ++ (us ++ ⟨.whitespace, v⟩ :: blocks ++ brace :: B) =
          [] ++ (us ++ ⟨.whitespace, v⟩ :: (blocks ++ brace :: B)) := by
        simp
      rw [← hB, ← hsig] at halike
      refine calm_of_alike ?_ halike ?_
      · rw [hsig, shift, List.length_append]
        omega
      · refine Bool.eq_false_iff.2 fun hword => ?_
        rw [continues, hword, decide_eq_true hs] at hno
        cases hno
    · rw [(hstep A B).2.1, hus, hslice]
      rfl

end

end PhpGraft.Tokens
