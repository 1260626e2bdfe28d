import PhpGraft.Proofs.ClassText
import PhpGraft.Proofs.Exchange

/-!
Members behind those of a class. The members that were there are read as before, the new ones behind
them, and the brace behind those closes the class.
-/
namespace PhpGraft.Tokens

variable {ts us : Tokens} {p : Place} {b e i j last m n stop stop' : Nat} {ns ms : List Node}
  {g : List Token} {cs : List Chunk}

/-! The brace that closes the class. -/

section

variable {opened : Bracket} {first first' : Nat} {stack stack' : List (Bracket × Nat)}

/-- A search that does not end yet goes on behind a token, and so does one with the same brackets open
at a token like it. -/
theorem matchingFrom_step (h : ts.matchingFrom opened first stop stack i = .ok n) (hi : i < n)
    (heq : us.delimiter? i = ts.delimiter? i) (hs : stack'.map Prod.fst = stack.map Prod.fst)
    (hstop : i < stop') : ∃ S S', ts.matchingFrom opened first stop S (i + 1) = .ok n ∧
      S'.map Prod.fst = S.map Prod.fst ∧
        us.matchingFrom opened first' stop' stack' i = us.matchingFrom opened first' stop' S' (i + 1) := by
  have hlt : i < stop := Nat.lt_trans hi (matchingFrom_bounds h).2
  rw [matchingFrom, if_pos hlt] at h
  rw [matchingFrom.eq_def us, if_pos hstop, heq]
  split at h
  · exact ⟨_, _, h, by rw [List.map_cons, List.map_cons, hs], rfl⟩
  · split at h
    · cases h
    rename_i rest hc
    obtain ⟨rest', hc', hr⟩ := Window.close_congr us i hc hs
    split at h
    · cases h
      omega
    · rename_i he
      refine ⟨rest, rest', h, hr, ?_⟩
      simp only [hc', Window.isEmpty_congr hr, he]
      rfl
  · exact ⟨stack, stack', h, hs, rfl⟩

/-- Where the tokens in front are alike, the same brackets are open. -/
theorem matchingFrom_split (h : ts.matchingFrom opened first stop stack i = .ok n) (hi : i ≤ m)
    (hm : m ≤ n) (hstop : m ≤ stop') (heq : ∀ k, i ≤ k → k < m → us.delimiter? k = ts.delimiter? k)
    (hs : stack'.map Prod.fst = stack.map Prod.fst) :
    ∃ S S', ts.matchingFrom opened first stop S m = .ok n ∧ S'.map Prod.fst = S.map Prod.fst ∧
      us.matchingFrom opened first' stop' stack' i = us.matchingFrom opened first' stop' S' m := by
  induction hi with
  | refl => exact ⟨stack, stack', h, hs, rfl⟩
  | @step m hi ih =>
    obtain ⟨S, S', hS, hmap, hus⟩ := ih (by omega) (by omega) fun k hk hkm => heq k hk (by omega)
    obtain ⟨R, R', hR, hmap', hus'⟩ := matchingFrom_step hS (by omega) (heq m hi (Nat.lt_succ_self m))
      hmap (Nat.lt_of_succ_le hstop)
    exact ⟨R, R', hR, hmap', hus.trans hus'⟩

theorem matchingFrom_plain (h : ts.Plain i j) (hij : i ≤ j) (hj : j ≤ stop) :
    ts.matchingFrom opened first stop stack i = ts.matchingFrom opened first stop stack j := by
  induction hij with
  | refl => rfl
  | @step j hij ih =>
    have hno := not_bracket_of_not_isCode (h j hij (Nat.lt_succ_self j))
    rw [ih (fun k hk hkj => h k hk (by omega)) (by omega), matchingFrom,
      if_pos (Nat.lt_of_succ_le hj)]
    split
    · exact absurd ‹_› (hno _).1
    · exact absurd ‹_› (hno _).2
    · rfl

end

theorem delimiter?_brace (h : ts.isPunct i '\x7d' = true) :
    ts.delimiter? i = some (.closing .curly) := by
  rw [delimiter?, isPunct_iff.1 h]
  rfl

/-- A brace is closed behind what is balanced, if it was closed where that was put in. -/
theorem matching_of_split {o : Nat} (h : ts.matching .curly o stop = .ok e) (ho : o ≤ last)
    (hle : last ≤ e) (hplain : ts.Plain last e) (hend : ts.isPunct e '\x7d' = true)
    (heq : ∀ k, o ≤ k → k < last → us.delimiter? k = ts.delimiter? k)
    (hbal : us.Balanced last n) (hn : last ≤ n) (hclose : us.isPunct n '\x7d' = true)
    (hstop : n < stop') : us.matching .curly o stop' = .ok n := by
  obtain ⟨S, S', hS, hmap, hus⟩ := @matchingFrom_split ts us o last e stop stop' .curly o o [] []
    h ho hle (by omega) heq rfl
  have hlt := (matchingFrom_bounds hS).2
  rw [matchingFrom_plain hplain hle (Nat.le_of_lt hlt), matchingFrom, if_pos hlt,
    delimiter?_brace hend] at hS
  dsimp only at hS
  split at hS
  · cases hS
  rename_i rest hc
  obtain ⟨k, rfl⟩ := of_close hc
  obtain ⟨rest', hc', hr⟩ := Window.close_congr us n hc hmap
  split at hS
  · rename_i he
    have hne : S' ≠ [] := by
      rintro rfl
      cases hmap
    rw [matching, hus, hbal _ _ _ _ (Nat.le_of_lt hstop) hne, matchingFrom, if_pos hstop,
      delimiter?_brace hclose]
    simp only [hc', Window.isEmpty_congr hr, he, if_true]
  · have := (matchingFrom_bounds hS).1
    omega

/-! The members that were there. -/

theorem Items.cases_last (h : ts.Items p stop i ns last) : ns = [] ∧ last = i ∨
    ∃ before mid r, ns = before ++ [(ts.finish stop r).1] ∧ ts.Items p stop i before mid ∧
      ts.significant mid stop < stop ∧
      ts.entry p (ts.leading mid (ts.significant mid stop)) (ts.significant mid stop) stop = .ok r ∧
      last = (ts.finish stop r).2 := by
  induction h with
  | nil => exact .inl ⟨rfl, rfl⟩
  | @cons i r ns last hs he h ih =>
    right
    rcases ih with ⟨rfl, rfl⟩ | ⟨before, mid, r', rfl, hb, hs', he', rfl⟩
    · exact ⟨[], i, r, rfl, .nil, hs, he, rfl⟩
    · exact ⟨_, mid, r', rfl, .cons hs he hb, hs', he', rfl⟩

/-- A class in `ts` whose members end at `last`, and tokens `us` with other ones behind these, up to
the brace at `n`. A comment at the end of the last line may differ. -/
structure Extends (ts us : Tokens) (b e last n : Nat) : Prop where
  opened : ∃ z, Lexer.isBarrier z = true ∧ ts.isPunct (b - 1) z = true
  le : b ≤ last
  last_le : last ≤ e
  le_size : e ≤ ts.size
  plain : ts.Plain last e
  closed : ∀ k, b ≤ k → k < e → ts.kind? k ≠ some .closeTag
  /-- No comment that differs stands behind the end of an entry. -/
  same : ∀ k, k < last → us[k]? = ts[k]? ∨
    k + 1 = last ∧ ts.kind? k = some .lineComment ∧ us.kind? k = some .lineComment
  le_new : last ≤ n
  continues : us.continues last n = false
  rests : (∃ z, Lexer.isBarrier z = true ∧ ts.isPunct (last - 1) z = true) →
    ts.trailing last e = last → us.trailing last n = last

namespace Extends

variable (h : ts.Extends us b e last n)
include h

theorem kind?_eq {k : Nat} (hk : k < last) : us.kind? k = ts.kind? k := by
  rcases h.same k hk with he | ⟨-, hts, hus⟩
  · rw [kind?, he, kind?]
  · rw [hts, hus]

/-- The comment that ends the last line is found where it was. -/
theorem trailing_eq (hi : ∃ z, Lexer.isBarrier z = true ∧ ts.isPunct (i - 1) z = true)
    (ht : ts.trailing i e = last) : us.trailing i n = last := by
  have hn := h.le_new
  rcases trailing_cases ts i e with hi' | ⟨-, hk, hi'⟩ | ⟨-, hk, hline, hk', hi'⟩
  · obtain rfl : i = last := hi'.symm.trans ht
    exact h.rests hi ht
  · obtain rfl : last = i + 1 := ht.symm.trans hi'
    obtain ⟨⟨_, c⟩, hget, rfl⟩ :=
      Option.map_eq_some_iff.1 ((h.kind?_eq (Nat.lt_succ_self i)).trans hk)
    exact trailing_near hget (by omega)
  · obtain rfl : last = i + 2 := ht.symm.trans hi'
    obtain ⟨⟨_, c⟩, hget, rfl⟩ :=
      Option.map_eq_some_iff.1 ((h.kind?_eq (Nat.lt_succ_self (i + 1))).trans hk')
    obtain ⟨⟨_, w⟩, hget', rfl⟩ := Option.map_eq_some_iff.1 hk
    have hsame : us[i]? = ts[i]? := (h.same i (by omega)).resolve_right fun hr => by omega
    rw [text_of hget'] at hline
    exact trailing_apart (hsame.trans hget') hline hget (by omega)

theorem continues_eq (hi : i ≤ last) (hplain : ts.Plain i last) : us.continues i n = false := by
  have hskip : us.significant i n = us.significant last n :=
    significant_of_skip hi h.le_new fun k hk hkl => by
      rw [isCode, h.kind?_eq hkl]
      exact hplain k hk hkl
  have hcontinues := h.continues
  rw [Tokens.continues] at hcontinues ⊢
  rwa [hskip]

theorem copy (hi : ∃ z, Lexer.isBarrier z = true ∧ ts.isPunct (i - 1) z = true) (hb : b < i)
    (ht : ts.trailing i e = last) : Copy ts us 0 0 i e n := by
  have hle : i ≤ last := ht ▸ le_trailing ts i e
  have hlast := h.last_le
  have hn := h.le_new
  have hplain : ts.Plain i last := ht ▸ plain_trailing ts i e
  obtain ⟨z, hz, hp⟩ := hi
  refine .of_equal (.wall (by omega) (firm_of_barrier hz hp) (by omega)
    (by rw [shift_zero]; omega)) (fun _ _ => ?_)
    fun k _ hk => ?_
  · have hno : ¬ts.significant i e < e := fun hlt => by
      have hcode := isCode_significant hlt
      have hge : i ≤ ts.significant i e := le_significant (by omega)
      rcases Nat.lt_or_ge (ts.significant i e) last with hin | hout
      · rw [hplain _ hge hin] at hcode
        cases hcode
      · rw [h.plain _ hout hlt] at hcode
        cases hcode
    rw [shift_zero, h.continues_eq hle hplain, Tokens.continues, decide_eq_false hno, Bool.false_and]
  · rw [shift_zero]
    refine (h.same k (by omega)).resolve_right fun hr => ?_
    obtain rfl : k = i - 1 := by omega
    rw [kind?, isPunct_iff.1 hp] at hr
    cases hr.2.1

/-- Members behind which others are put are read as before. -/
theorem items (hms : ts.Items .members e b ms last) :
    ∃ ns, us.Items .members n b ns last ∧ ns.map Node.bare = ms.map Node.bare := by
  have hle := h.le
  have hlast := h.last_le
  have hn := h.le_new
  rcases hms.cases_last with ⟨rfl, rfl⟩ | ⟨before, mid, r, rfl, hbefore, hs, he, hr⟩
  · exact ⟨[], .nil, rfl⟩
  rw [finish_of_member he, withTrailing_snd] at hr
  have hmid := hbefore.le
  have hfirst : mid ≤ ts.significant mid e := le_firstFrom_of_lt hs
  have hlt := lt_of_entry he hs
  have hopen : ∀ name?, r.1.decl ≠ .scope name? false := fun name? hd => by
    have hno := isScope_of_member he
    rw [hd] at hno
    cases hno
  have hnot : ts.kind? (r.2 - 1) ≠ some .closeTag := by
    have hrle := le_trailing ts r.2 e
    exact h.closed _ (by omega) (by omega)
  have hend := (ended_entry he hopen).resolve_left hnot
  have C := h.copy hend (by omega) hr.symm
  have hsettles := settles_of_entry he hs (Nat.le_refl _) fun hc => absurd hc hnot
  have hitems := C.items hbefore (Nat.zero_le _) (by omega) h.le_size hsettles
  have hentry := C.entry he (Nat.zero_le _) (leading_le ..) hs h.le_size (Nat.le_refl _) hsettles
    fun _ => hopen
  obtain ⟨hsig, -, -⟩ := C.toWindow.significant (Nat.zero_le mid) (by omega)
  have hlead := C.toWindow.leading (i := mid) (Nat.zero_le _) hlt
  have hstop := (C.lt_stop_iff (Nat.zero_le _) hlt).2 hs
  simp only [shift_zero] at hitems hentry hsig hlead hstop
  rw [← hsig] at hentry hlead hstop
  have hread : us.entry .members (us.leading mid (us.significant mid n)) (us.significant mid n) n =
      .ok (relocate 0 0 r) := by
    rw [hlead, hentry]
  have hend' : (us.finish n (relocate 0 0 r)).2 = last := by
    rw [finish_of_member hread, withTrailing_snd]
    exact (congrArg (us.trailing · n) (shift_zero r.2)).trans (h.trailing_eq hend hr.symm)
  have hlast : us.Items .members n mid [(us.finish n (relocate 0 0 r)).1] last :=
    .cons hstop hread (hend' ▸ .nil)
  refine ⟨_, hitems.append hlast, ?_⟩
  rw [List.map_append, List.map_append, Node.map_bare_move, List.map_singleton, List.map_singleton,
    bare_finish, bare_finish]
  exact congrArg (fun n => before.map Node.bare ++ [n]) (Node.bare_move _ r.1)

end Extends

theorem closingComments_of_white (hij : i ≤ j)
    (hw : ∀ k, i ≤ k → k < j → ts.kind? k = some .whitespace) : ts.closingComments i j = [] := by
  have hlead : ts.leading i j = j := by
    rw [leading_of_skip hij (Nat.le_refl j) fun k hk hkj => ?_, leading_self]
    rw [isComment, hw k hk hkj]
    rfl
  have hextract : (ts.extract j j).toList = [] := by
    rw [Array.toList_extract, List.extract_eq_take_drop, Nat.sub_self, List.take_zero]
  rw [closingComments, hlead, hextract]
  rfl

/-- The class is read with the new members behind the old ones. -/
theorem Extends.members {A D : List Token} (h : ts.Extends us b e last n)
    (hms : ts.Items .members e b ms last) (hus : us = (A ++ (g ++ (Chunk.all cs ++ D))).toArray)
    (hA : A.length = last) (hg : ∀ t ∈ g, t.kind = .whitespace) (hcs : Chunk.Fit .members D cs)
    (hn : n = last + g.length + (Chunk.all cs).length) :
    ∃ ns, us.members b n = .ok ns ∧ ns.map Node.bare = ms.map Node.bare ++ cs.map (·.node.bare) := by
  obtain ⟨old, hold, hbare⟩ := h.items hms
  subst hA hn
  obtain ⟨new, last', hnew, hbare', hle, hwhite, -⟩ := items_of_chunks hcs A hg (Nat.le_refl _)
    (show _ ≤ A.length + g.length + ((Chunk.all cs).length + D.length) by omega)
  rw [← hus] at hnew hwhite
  refine ⟨_, members_of_items (hold.append hnew) (halts_of_plain hle (plain_of_white hwhite) _), ?_⟩
  rw [closingComments_of_white hle hwhite, List.append_nil, List.map_append, hbare, hbare']

theorem Extends.matching (h : ts.Extends us b e last n) (hb : 0 < b)
    (hm : ts.matching .curly (b - 1) stop = .ok e) (hend : ts.isPunct e '\x7d' = true)
    (hbal : us.Balanced last n) (hclose : us.isPunct n '\x7d' = true) (hstop : n < stop') :
    us.matching .curly (b - 1) stop' = .ok n := by
  have hle := h.le
  refine matching_of_split hm (by omega) h.last_le h.plain hend (fun k _ hk => ?_) hbal h.le_new hclose
    hstop
  rcases h.same k hk with he | ⟨-, hts, hus⟩
  · rw [delimiter?, he, delimiter?]
  · rw [delimiter?_of_not_isCode, delimiter?_of_not_isCode]
    all_goals simp only [isCode, hts, hus]; decide

end PhpGraft.Tokens
