import PhpGraft.Proofs.NewMembers

/-!
A class that was read, taken apart into its members, the comments behind them and white space.
-/
namespace PhpGraft.Tokens

open Lexer

variable {ts : Tokens} {i j k last stop lead site : Nat}

/-! The comments at the end of a class. -/

/-- Where the comments in front of a closing brace stand; `lead` is `site` if there are none. -/
structure ClosesAt (ts : Tokens) (last stop lead site : Nat) : Prop where
  le : last ≤ lead
  le_site : lead ≤ site
  site_le : site ≤ stop
  empty : lead = site → lead = last
  gap : ∀ k, last ≤ k → k < lead → ts.isComment k = false
  rest : ∀ k, site ≤ k → k < stop → ts.isComment k = false
  first : lead < site → ts.isComment lead = true
  final : lead < site → ts.isComment (site - 1) = true
  nodes : ts.closingComments last stop = if lead = site then [] else
    [.ofSource (.verbatim (ts.between lead site)) ⟨lead, site⟩ none []]

theorem getElem?_dropWhile_reverse {α : Type} {p : α → Bool} {l : List α} {n : Nat}
    (h : (l.reverse.dropWhile p).length = n + 1) : ∃ x, l[n]? = some x ∧ p x = false := by
  have hsplit := congrArg List.reverse (List.takeWhile_append_dropWhile (p := p) (l := l.reverse))
  have hhead := List.head?_dropWhile_not p l.reverse
  cases hd : l.reverse.dropWhile p with
  | nil =>
    rw [hd] at h
    cases h
  | cons x d =>
    rw [hd] at hsplit hhead h
    refine ⟨x, ?_, by simpa using hhead⟩
    rw [List.reverse_append, List.reverse_reverse, List.reverse_cons] at hsplit
    obtain rfl : d.length = n := Nat.succ.inj h
    rw [← hsplit, List.append_assoc, List.getElem?_append_right (by rw [List.length_reverse]),
      List.length_reverse, Nat.sub_self]
    rfl

theorem exists_closesAt (h : last ≤ stop) (hsize : stop ≤ ts.size) :
    ∃ lead site, ts.ClosesAt last stop lead site := by
  have hle : last ≤ ts.leading last stop := le_leading h
  have hlead := ts.leading_le last stop
  have hgap : ∀ k, last ≤ k → k < ts.leading last stop → ts.isComment k = false :=
    fun k => not_of_lt_firstFrom
  have hrest := fun k => @not_isComment_of_dropWhile ts stop (ts.leading last stop) k
  have hbound := ts.dropWhile_extract_le (!·.kind.isComment) (ts.leading last stop) stop
  have hnodes : ts.closingComments last stop = _ := closingComments.eq_1 ..
  have hlast := fun n => @getElem?_dropWhile_reverse Token (!·.kind.isComment)
    (ts.extract (ts.leading last stop) stop).toList n
  generalize ((ts.extract (ts.leading last stop) stop).toList.reverse.dropWhile
    (!·.kind.isComment)).length = size at hrest hbound hnodes hlast
  cases size with
  | zero =>
    have hno : ¬last < last := Nat.lt_irrefl _
    refine ⟨last, last, Nat.le_refl _, Nat.le_refl _, h, fun _ => rfl, fun k _ _ => by omega,
      fun k hk hks => ?_, fun hlt => absurd hlt hno, fun hlt => absurd hlt hno, ?_⟩
    · rcases Nat.lt_or_ge k (ts.leading last stop) with hlt | hge
      · exact hgap k hk hlt
      · exact hrest k hge hks hsize
    · rw [if_pos rfl]
      exact hnodes
  | succ n =>
    obtain ⟨x, hx, hcomment⟩ := hlast n rfl
    refine ⟨ts.leading last stop, ts.leading last stop + (n + 1), hle, Nat.le_add_right _ _, by omega,
      fun he => by omega, hgap, fun k hk hks => hrest k hk hks hsize,
      fun _ => firstFrom_pos (show ts.leading last stop < stop by omega), fun _ => ?_, ?_⟩
    · have hget := @getElem?_extract ts (ts.leading last stop) stop (ts.leading last stop + n)
        (Nat.le_add_right _ _) (by omega)
      rw [Nat.add_sub_cancel_left, hx] at hget
      rw [← Nat.add_assoc, Nat.add_sub_cancel, isComment_of hget.symm]
      simpa using hcomment
    · rw [if_neg (by omega)]
      exact hnodes

/-! Tokens from one index up to another. -/

theorem extract_split (hij : i ≤ j) (hjk : j ≤ k) :
    (ts.extract i j).toList ++ (ts.extract j k).toList = (ts.extract i k).toList := by
  rw [← Array.toList_append, Array.extract_append_extract, Nat.min_eq_left hij, Nat.max_eq_right hjk]

theorem mem_extract {t : Token} (hi : i ≤ k) (hj : k < j) (ht : ts[k]? = some t) :
    t ∈ (ts.extract i j).toList := by
  refine List.mem_of_getElem? (i := k - i) ?_
  rw [getElem?_extract hi hj, ht]

theorem head?_extract {t : Token} (h : (ts.extract i j).toList.head? = some t) :
    i < j ∧ ts[i]? = some t := by
  rw [Array.toList_extract, List.extract_eq_take_drop, List.head?_take, List.head?_drop,
    Array.getElem?_toList] at h
  split at h
  · cases h
  · exact ⟨by omega, h⟩

theorem getLast?_extract {t : Token} (h : (ts.extract i j).toList.getLast? = some t)
    (hj : j ≤ ts.size) : i < j ∧ ts[j - 1]? = some t := by
  rw [Array.toList_extract, List.extract_eq_take_drop, List.getLast?_take] at h
  split at h
  · cases h
  · have hij : i < j := by omega
    rw [List.getElem?_drop, Array.getElem?_toList, show i + (j - i - 1) = j - 1 by omega,
      Array.getElem?_eq_getElem (by omega), Option.some_or] at h
    exact ⟨hij, (Array.getElem?_eq_getElem (by omega)).trans h⟩

theorem extract_singleton {t : Token} (h : ts[i]? = some t) : (ts.extract i (i + 1)).toList = [t] := by
  obtain ⟨hlt, -⟩ := Array.getElem?_eq_some_iff.1 h
  have hlen : (ts.extract i (i + 1)).toList.length = 1 := by
    rw [length_extract hlt]
    omega
  obtain ⟨u, hu⟩ := List.length_eq_one_iff.1 hlen
  rw [hu]
  have hget := @getElem?_extract ts i (i + 1) i (Nat.le_refl _) (Nat.lt_succ_self _)
  rw [hu, Nat.sub_self, h] at hget
  cases hget
  rfl

/-- The parts of a class between its braces. -/
def classBody (ts : Tokens) (i last lead site stop : Nat) : ClassBody where
  members := (ts.extract i last).toList
  gap := (ts.extract last lead).toList
  comments := (ts.extract lead site).toList
  rest := (ts.extract site stop).toList

section

variable {b e : Nat} {ms : List Node} {text : Text} (hpos : 0 < b) (hbe : b ≤ e)
  (hopen : ts.isPunct (b - 1) '\x7b' = true) (hclose : ts.isPunct e '\x7d' = true)

include hpos hbe hopen hclose in
theorem around_extract : around (ts.extract 0 (b - 1)).toList (ts.extract (e + 1) ts.size).toList
    (ts.extract b e).toList = ts := by
  have hopening := extract_singleton (isPunct_iff.1 hopen)
  have hclosing := extract_singleton (isPunct_iff.1 hclose)
  have hlt : e < ts.size := lt_size_of_isCode (isCode_of_isPunct hclose)
  rw [Nat.sub_add_cancel hpos] at hopening
  have hbrace : ∀ xs : List Token, brace :: xs = (ts.extract e (e + 1)).toList ++ xs := fun xs => by
    rw [hclosing]
    rfl
  have hcons : ∀ xs : List Token, ⟨.punct, ['\x7b']⟩ :: xs = (ts.extract (b - 1) b).toList ++ xs :=
    fun xs => by
      rw [hopening]
      rfl
  rw [around, hcons, hbrace, extract_split (Nat.le_succ e) hlt, extract_split hbe (Nat.le_of_lt hlt),
    extract_split (Nat.sub_le b 1) (by omega), extract_split (Nat.zero_le _) (by omega),
    Array.extract_size]

theorem tokens_classBody (hb : b ≤ last) (h : ts.ClosesAt last e lead site) :
    (classBody ts b last lead site e).tokens = (ts.extract b e).toList := by
  have hle := h.le
  have hle' := h.le_site
  have hsite := h.site_le
  rw [ClassBody.tokens, classBody, extract_split hle' hsite, extract_split hle (Nat.le_trans hle' hsite),
    extract_split hb (by omega)]

include hpos in
theorem length_extract_front (hsize : b ≤ ts.size) :
    (ts.extract 0 (b - 1)).toList.length + 1 = b := by
  rw [length_extract (by omega)]
  omega

include hpos hopen in
/-- The text in front of the last white space of a class. -/
theorem between_opening (hb : b ≤ last) (h : ts.ClosesAt last e lead site) :
    ts.between 0 site = Token.spell (ts.extract 0 (b - 1)).toList ++
      '\x7b' :: Token.spell ((ts.extract b last).toList ++
        ((ts.extract last lead).toList ++ (ts.extract lead site).toList)) := by
  have hle := h.le
  have hle' := h.le_site
  have hopening := extract_singleton (isPunct_iff.1 hopen)
  rw [Nat.sub_add_cancel hpos] at hopening
  have hsplit : (ts.extract 0 site).toList = (ts.extract 0 (b - 1)).toList ++
      ((ts.extract (b - 1) b).toList ++ ((ts.extract b last).toList ++
        ((ts.extract last lead).toList ++ (ts.extract lead site).toList))) := by
    rw [extract_split hle hle', extract_split hb (by omega), extract_split (by omega) (by omega),
      extract_split (by omega) (by omega)]
  rw [between, hsplit, hopening, spell_append, spell_append]
  rfl

include hclose in
theorem between_closing :
    ts.between e ts.size = Token.spell (brace :: (ts.extract (e + 1) ts.size).toList) := by
  have hlt : e < ts.size := lt_size_of_isCode (isCode_of_isPunct hclose)
  have hclosing := extract_singleton (isPunct_iff.1 hclose)
  rw [between, ← extract_split (Nat.le_succ e) hlt, hclosing]
  rfl

theorem whitespace_of_not {k : TokenKind} (hcode : k.isCode = false) (hcomment : k.isComment = false)
    (hout : k.isOutside = false) : k = .whitespace := by
  cases k <;> first | rfl | contradiction

/-- Members end with a brace, a semicolon or the comment that ends their last line. -/
theorem ended_members (h : ts.Items .members e b ms last) (hb : b < last) (hlast : last ≤ e)
    (hwhole : ∀ k, b ≤ k → k < e → ts.kind? k ≠ some .closeTag) :
    (∃ z, isBarrier z = true ∧ ts.isPunct (last - 1) z = true) ∨
      ts.kind? (last - 1) = some .lineComment := by
  rcases h.cases_last with ⟨-, rfl⟩ | ⟨before, mid, r, -, hbefore, hs, he, hr⟩
  · exact absurd hb (Nat.lt_irrefl _)
  rw [finish_of_member he, withTrailing_snd] at hr
  have hlt := lt_of_entry he hs
  have hmid := hbefore.le
  have hfirst : mid ≤ ts.significant mid e := le_firstFrom_of_lt hs
  have hle := le_trailing ts r.2 e
  have hopen : ∀ name?, r.1.decl ≠ .scope name? false := fun name? hd => by
    have hno := isScope_of_member he
    rw [hd] at hno
    cases hno
  have hended := (ended_entry he hopen).resolve_left (hwhole _ (by omega) (by omega))
  rw [hr]
  exact ended_trailing hended e

include hpos hbe hopen hclose in
/-- Between the braces there is code alone. -/
theorem kinds_extract (hreads : Reads .html ts.toList text)
    (hwhole : ∀ k, b ≤ k → k < e → ts.kind? k ≠ some .closeTag) :
    ∀ t ∈ (ts.extract b e).toList, t.kind.isOutside = false ∧
      (t.kind = .whitespace → ∀ c ∈ t.text, isSpace c = true) := by
  have haround := congrArg Array.toList (around_extract hpos hbe hopen hclose)
  rw [← haround, around] at hreads
  refine reads_kinds_append hreads.behind_punct (forall_extract fun k hk hke t ht he => ?_)
  exact hwhole k hk hke ((kind?_of ht).trans (congrArg some he))

include hpos hbe hopen hclose in
/-- What stands between the braces of a class is its members, comments and white space. -/
theorem holds_classBody (hreads : Reads .html ts.toList text)
    (hwhole : ∀ k, b ≤ k → k < e → ts.kind? k ≠ some .closeTag)
    (hitems : ts.Items .members e b ms last) (hplain : ts.Plain last e) (hlast : last ≤ e)
    (hc : ts.ClosesAt last e lead site) :
    (classBody ts b last lead site e).Holds (ts.extract 0 (b - 1)).toList
      (ts.extract (e + 1) ts.size).toList ms := by
  have haround := around_extract hpos hbe hopen hclose
  have htokens := tokens_classBody hitems.le hc
  have hlt : e < ts.size := lt_size_of_isCode (isCode_of_isPunct hclose)
  have hle := hc.le
  have hle' := hc.le_site
  have hsite := hc.site_le
  have hb := hitems.le
  have hfront : (ts.extract 0 (b - 1)).toList.length + 1 = b := length_extract_front hpos (by omega)
  have hkinds : ∀ k, b ≤ k → k < e → ∀ t, ts[k]? = some t → t.kind.isOutside = false :=
    fun k hk hke t ht => (kinds_extract hpos hbe hopen hclose hreads hwhole t
      (mem_extract hk hke ht)).1
  have hwhite : ∀ k, b ≤ k → k < e → ts.isCode k = false → ts.isComment k = false →
      ∀ t, ts[k]? = some t → t.kind = .whitespace := by
    intro k hk hke hcode hcomment t ht
    rw [isCode_of ht] at hcode
    rw [isComment_of ht] at hcomment
    exact whitespace_of_not hcode hcomment (hkinds k hk hke t ht)
  refine ⟨⟨?_, fun t ht => ?_, ?_, ?_, fun t ht => ?_, fun t ht => ?_, fun h => ?_⟩, ?_⟩
  · rw [htokens]
    exact forall_extract hkinds
  · obtain ⟨hlt', hget⟩ := getLast?_extract ht (by omega)
    rcases ended_members hitems hlt' hlast hwhole with ⟨z, hz, hp⟩ | hk
    · rw [isPunct_iff, hget] at hp
      exact .inl ⟨z, hz, Option.some.inj hp⟩
    · rw [kind?_of hget] at hk
      exact .inr (Option.some.inj hk)
  · refine List.forall_mem_append.2 ⟨forall_extract fun k hk hkl t ht => ?_,
      forall_extract fun k hk hkl t ht => ?_⟩
    · exact hwhite k (by omega) (by omega) (hplain k hk (by omega)) (hc.gap k hk hkl) t ht
    · exact hwhite k (by omega) hkl (hplain k (by omega) hkl) (hc.rest k hk hkl) t ht
  · exact forall_extract fun k hk hkl t ht => isCode_of ht ▸ hplain k (by omega) (by omega)
  · obtain ⟨hlt', hget⟩ := head?_extract ht
    exact isComment_of hget ▸ hc.first hlt'
  · obtain ⟨hlt', hget⟩ := getLast?_extract ht (by omega)
    exact isComment_of hget ▸ hc.final hlt'
  · have hempty : lead = site := by
      have hlen := congrArg List.length h
      change (ts.extract lead site).toList.length = 0 at hlen
      rw [length_extract (by omega)] at hlen
      omega
    change (ts.extract last lead).toList = []
    rw [← List.length_eq_zero_iff, length_extract (by omega), hc.empty hempty, Nat.sub_self]
  · rw [htokens, haround, hfront, length_extract (Nat.le_of_lt hlt), Nat.add_sub_cancel' hbe]
    change Items ts .members e b ms (b + (ts.extract b last).toList.length)
    rwa [length_extract (by omega), Nat.add_sub_cancel' hb]

end

end PhpGraft.Tokens
