import PhpGraft.Proofs.ImportLines
import PhpGraft.Proofs.Quotation
import PhpGraft.Proofs.Sentence

/-!
What stands behind the entries of a scope: its last entries, comments and white space, and the code
that goes on behind them, as they were read or trimmed onto a line of their own.
-/
namespace PhpGraft

open Lexer

theorem Text.Solid.trim_between {t u w : Text} (h : t.Solid) (hu : ∀ c ∈ u, isWhite c = true)
    (hw : ∀ c ∈ w, isWhite c = true) : trim (u ++ (t ++ w)) = t := by
  obtain ⟨c, v, rfl, hc⟩ := h.first
  have htrim := h.trim_append hw
  rw [Text.trim] at htrim ⊢
  have hnil : Text.trimStart u = [] := List.dropWhile_eq_nil_iff.2 hu
  have hself : Text.trimStart (c :: v ++ w) = c :: v ++ w := Text.trimStart_append_cons (s := []) hc
  rw [List.cons_append, Text.trimStart_append_cons hc, hnil, List.nil_append, ← List.cons_append, ← hself,
    htrim]

theorem toLower_of_isWhite {c : Char} (h : isWhite c = true) : c.toLower = c := by
  unfold Char.toLower
  split
  · rename_i hupper
    have hle : 65 ≤ c.toNat := UInt32.le_iff_toNat_le.1 hupper.1
    have hge : c.toNat ≤ 90 := UInt32.le_iff_toNat_le.1 hupper.2
    simp only [isWhite, Bool.or_eq_true, Bool.and_eq_true, decide_eq_true_eq, beq_iff_eq] at h
    omega
  · rfl

namespace Tokens

variable {ts : Tokens} {p : Place} {b e i j k last mid stop : Nat} {ns : List Node} {n : Node}
  {r : Node × Nat} {g w : Text}

/-- White space `w`, comments among the tokens `Y`, and the code from `e` on may stand behind entries;
`T` is the text behind the white space. -/
structure Closing (ts : Tokens) (p : Place) (e : Nat) (w : Text) (Y : List Token) (T : Text) : Prop where
  white : ∀ c ∈ w, isSpace c = true
  follows : Follows p (Y ++ ts.toList.drop e) [] T
  trivia : ∀ t ∈ Y, t.kind.isCode = false ∧ t.kind.isOutside = false

theorem Follows.of_reads {Z : List Token} {T : Text} (hreads : Reads .code Z T)
    (hsolid : T.head?.any isSpace = false) (hcalm : Calm Z) : Follows p Z [] T :=
  ⟨hsolid, hreads, trivial, hcalm, List.forall_mem_nil _⟩

theorem calm_drop (h : ts.continues i ts.size = false) : Calm (ts.toList.drop i) := by
  intro t ht hname hmem
  obtain ⟨hcode, k, hk, hget, hbefore⟩ := List.find?_eq_some_iff_getElem.1 ht
  have hdrop : ∀ n, ts[i + n]? = (ts.toList.drop i)[n]? := fun n => by
    rw [List.getElem?_drop, Array.getElem?_toList]
  have hat : ts[i + k]? = some t := by rw [hdrop, List.getElem?_eq_getElem hk, hget]
  rw [List.length_drop, Array.length_toList] at hk
  have hsig : ts.significant i ts.size = i + k := by
    refine firstFrom_eq (Nat.le_add_right i k) (by omega) (fun j hj hjk => ?_)
      fun _ => (isCode_of hat).trans hcode
    obtain ⟨n, rfl⟩ := Nat.exists_eq_add_of_le hj
    have hn := hdrop n
    rw [List.getElem?_eq_getElem (by rw [List.length_drop, Array.length_toList]; omega)] at hn
    rw [isCode_of hn]
    simpa using hbefore n (by omega)
  rw [continues, hsig, decide_eq_true (show i + k < ts.size by omega), Bool.true_and, isOneOf,
    List.any_eq_false] at h
  refine h _ hmem ?_
  simp [isKeyword, isName, kind?, Tokens.text, hat, hname]

/-- What stands behind the last entry, as it was read. -/
theorem closing_read (hc : ts.Coded b) (hb : b ≤ last) (hlast : last ≤ ts.size)
    (hcalm : ts.continues last ts.size = false) (hplain : ts.Plain last e) :
    ts.Closing p (max e (ts.startOf last ts.size)) (ts.between last (ts.startOf last ts.size))
      (ts.extract (ts.startOf last ts.size) (max e (ts.startOf last ts.size))).toList
      (ts.between (ts.startOf last ts.size) ts.size) := by
  have hle : last ≤ ts.startOf last ts.size := le_leading (le_significant hlast)
  have hsig : ts.startOf last ts.size ≤ ts.significant last ts.size := leading_le ..
  have hsize := ts.significant_le last ts.size
  have hloose : ts.Loose last (ts.startOf last ts.size) := loose_leading ts last ts.size
  have hreads := hc.onward (Nat.le_trans hb hle)
  refine ⟨(hc.blank hb hle hloose (by omega)).2, ?_, forall_extract fun k hk hke t ht => ?_⟩
  · rw [← ts.drop_split (Nat.le_max_right ..)]
    refine .of_reads hreads ?_ (calm_drop ?_)
    · rcases Nat.lt_or_eq_of_le (show ts.startOf last ts.size ≤ ts.size by omega) with hlt | heq
      · obtain ⟨t, ht, hkind, -⟩ := token_startOf hlt
        obtain ⟨c, u, hcu, hsolid⟩ := (hc.onward_cons (Nat.le_trans hb hle) ht).solid hkind
        rw [← hreads.spell, ts.drop_split (Nat.le_succ _), extract_singleton ht, List.singleton_append,
          Token.spell, List.flatMap_cons, hcu]
        exact hsolid
      · rw [heq, between_self]
        rfl
    · rwa [continues, ← significant_of_skip hle (by omega) hloose.plain]
  · have hke' : k < e := by omega
    exact ⟨isCode_of ht ▸ hplain k (by omega) hke', (hc.token (by omega) ht).1⟩

/-! The last entries. -/

theorem import_of_declaration {start first : Nat} (h : ts.declaration start first stop = .ok r)
    (himport : r.1.isImport = true) :
    ts.isKeyword first "use" = true ∧ ts.importDecl start first stop = .ok r := by
  unfold declaration at h
  split at h
  · exact ⟨‹_›, h⟩
  split at h
  · unfold classDecl at h
    dsimp only at h
    repeat' split at h
    all_goals cases h
    cases himport
  · split at h
    · cases h
    · unfold verbatim at h
      split at h <;> cases h
      cases himport

theorem import_of_entry {start first : Nat} (hp : p ≠ .members) (h : ts.entry p start first stop = .ok r)
    (himport : r.1.isImport = true) :
    ts.isKeyword first "use" = true ∧ ts.importDecl start first stop = .ok r := by
  cases p with
  | members => exact absurd rfl hp
  | file =>
    unfold entry at h
    dsimp only at h
    split at h
    · have hscope := isScope_of_namespaceDecl h
      unfold Node.isImport at himport
      cases hd : r.1.decl with
      | scope =>
        rw [hd] at himport
        cases himport
      | _ =>
        rw [hd] at hscope
        cases hscope
    · exact import_of_declaration h himport
  | scope braced =>
    unfold entry at h
    dsimp only at h
    split at h
    · cases h
    · exact import_of_declaration h himport

/-- An import starts with a character that is not white space. -/
theorem Quoted.first_of_import (hp : p ≠ .members) (hc : ts.Coded b) (hb : b ≤ mid)
    (h : ts.Quoted p stop mid n r) (himport : n.isImport = true) :
    ∃ t, ts[ts.startOf mid stop]? = some t ∧ ∃ c u, t.text = c :: u ∧ isWhite c = false := by
  have hmid := h.entry.le_start
  have hdecl : r.1.isImport = true := by
    rw [Node.isImport, ← Node.decl_of_bare h.bare]
    exact himport
  rcases Nat.lt_or_eq_of_le h.entry.start_le with hlt | heq
  · have hcomment : ts.isComment (ts.startOf mid stop) = true := firstFrom_pos hlt
    obtain ⟨kind, hk, hcomment⟩ := (Option.any_eq_true _ _).1 hcomment
    obtain ⟨t, ht, rfl⟩ := Option.map_eq_some_iff.1 hk
    exact ⟨t, ht, ((hc.onward_cons (Nat.le_trans hb hmid) ht).comment (k := 0) rfl hcomment).1⟩
  · obtain ⟨huse, -⟩ := import_of_entry hp h.entry.read hdecl
    rw [← heq] at huse
    obtain ⟨hname, hword⟩ := Bool.and_eq_true_iff.1 huse
    obtain ⟨t, ht, -⟩ := Option.map_eq_some_iff.1 (beq_iff_eq.1 hname)
    rw [text_of ht, beq_iff_eq] at hword
    obtain ⟨c, u, hcu, hlower, -⟩ := List.map_eq_cons_iff.1 hword
    refine ⟨t, ht, c, u, hcu, Bool.eq_false_iff.2 fun hwhite => ?_⟩
    rw [toLower_of_isWhite hwhite] at hlower
    subst hlower
    cases hwhite

theorem Row.ended (hc : ts.Coded b) (hb : b ≤ i) (h : ts.Row p stop i ns last) (hne : ns ≠ []) :
    (∃ z, isBarrier z = true ∧ ts.isPunct (last - 1) z = true) ∨ ts.kind? (last - 1) = some .lineComment := by
  induction h with
  | nil => exact absurd rfl hne
  | @cons i n r ns last hq hrest ih =>
    cases ns with
    | nil =>
      cases hrest
      rcases EntryAt.note_cases ts stop r with he | ⟨-, -, -, hline⟩
      · rw [he]
        exact .inl (hq.closes hc hb)
      · exact .inr hline
    | cons m ns =>
      have hle := hq.entry.le_start
      have hlt := hq.entry.lt_finish
      exact ih (by omega) (List.cons_ne_nil m ns)

/-! Behind a line break that was supplied. -/

section

variable {lead site : Nat} (hc : ts.Coded b) (hb : b ≤ j) (hclose : ts.isPunct stop '\x7d' = true)
  (hno : '\n' ∉ ts.between j stop)
include hclose

theorem between_brace (hi : i ≤ stop) :
    ∃ t, ts.between i ts.size = ts.between i stop ++ '\x7d' :: t := by
  have hlt : stop < ts.size := lt_size_of_isCode (isCode_of_isPunct hclose)
  refine ⟨Token.spell (ts.extract (stop + 1) ts.size).toList, ?_⟩
  rw [← between_append hi (Nat.le_of_lt hlt), between_closing hclose]
  rfl

include hno

theorem not_endsLine (hj : j ≤ i) (hi : i ≤ stop) (hw : ∀ c ∈ ts.between i stop, isSpace c = true) :
    ¬EndsLine (ts.between i ts.size) := by
  obtain ⟨t, ht⟩ := between_brace hclose hi
  have hmem : '\n' ∉ ts.between i stop := fun hn => by
    rw [← between_append hj hi] at hno
    exact hno (List.mem_append_right _ hn)
  rw [ht]
  cases hs : ts.between i stop with
  | nil => rintro (h | ⟨_, h⟩ | ⟨_, h⟩) <;> cases h
  | cons c u =>
    rw [hs] at hw hmem
    rintro (h | ⟨_, h⟩ | ⟨_, h⟩)
    · cases h
    · obtain ⟨rfl, -⟩ := List.cons.inj h
      exact hmem List.mem_cons_self
    · obtain ⟨rfl, -⟩ := List.cons.inj h
      cases hw '?' List.mem_cons_self

include hc hb

theorem not_lineComment (hj : j ≤ k) (hk : k < stop) : ts.kind? k ≠ some .lineComment := by
  intro hline
  obtain ⟨t, ht⟩ := between_brace hclose hk
  have hmem : '\n' ∉ ts.between (k + 1) stop := fun hn => by
    rw [← between_append (Nat.le_succ_of_le hj) hk] at hno
    exact hno (List.mem_append_right _ hn)
  rcases hc.behind_line (Nat.le_trans hb hj) hline with h | ⟨w, h⟩
  · rw [ht] at h
    simp at h
  · rw [ht] at h
    cases hs : ts.between (k + 1) stop with
    | nil =>
      rw [hs] at h
      cases h
    | cons c u =>
      rw [hs] at h hmem
      obtain ⟨rfl, -⟩ := List.cons.inj h
      exact hmem List.mem_cons_self

theorem solid_comments (hj : j ≤ last) (hcl : ts.ClosesAt last stop lead site) (hlt : lead < site)
    (hw : ∀ c ∈ ts.between site stop, isSpace c = true) : (ts.between lead site).Solid := by
  have hle := hcl.le
  have hsite := hcl.site_le
  have hsize : stop < ts.size := lt_size_of_isCode (isCode_of_isPunct hclose)
  obtain ⟨kind, hk, hcomment⟩ := (Option.any_eq_true _ _).1 (hcl.first hlt)
  obtain ⟨t, ht, rfl⟩ := Option.map_eq_some_iff.1 hk
  obtain ⟨kind, hk', hcomment'⟩ := (Option.any_eq_true _ _).1 (hcl.final hlt)
  obtain ⟨t', ht', rfl⟩ := Option.map_eq_some_iff.1 hk'
  obtain ⟨⟨c, u, hcu, hcw⟩, -⟩ :=
    (hc.onward_cons (show b ≤ lead by omega) ht).comment (k := 0) rfl hcomment
  obtain ⟨-, hlast⟩ := (hc.onward_cons (show b ≤ site - 1 by omega) ht').comment (k := 0) rfl hcomment'
  constructor
  · refine ⟨c, u ++ ts.between (lead + 1) site, ?_, hcw⟩
    rw [← between_append (Nat.le_succ lead) hlt, between_succ ht, hcu]
    rfl
  · obtain ⟨d, hd, hdw⟩ := hlast.resolve_right <| by
      rw [List.drop_succ_cons, List.drop_zero, spell_drop, Nat.sub_add_cancel (by omega)]
      exact not_endsLine hclose hno (by omega) hsite hw
    refine ⟨d, ?_, hdw⟩
    have hend := between_succ ht'
    rw [Nat.sub_add_cancel (by omega)] at hend
    rw [← between_append (show lead ≤ site - 1 by omega) (Nat.sub_le site 1), hend, List.getLast?_append, hd]
    rfl

/-- The comments of a scope, without the white space around them, and its closing brace. -/
theorem closing_trimmed (hj : j ≤ last) (hcl : ts.ClosesAt last stop lead site)
    (hplain : ts.Plain last stop) (hw : ∀ c ∈ w, isSpace c = true) :
    ts.Closing p stop w (ts.extract lead site).toList
      (ts.between lead site ++ ts.between stop ts.size) := by
  have hle := hcl.le
  have hls := hcl.le_site
  have hsite := hcl.site_le
  have hlt : stop < ts.size := lt_size_of_isCode (isCode_of_isPunct hclose)
  have hrest : ∀ c ∈ ts.between site stop, isSpace c = true :=
    (hc.blank (show b ≤ site by omega) hsite
      (fun k hk hks => ⟨hplain k (by omega) hks, hcl.rest k hk hks⟩) (Nat.le_of_lt hlt)).2
  have hcode : ∀ t ∈ (ts.extract lead site).toList, t.kind.isCode = false :=
    forall_extract fun k hk hks t ht => isCode_of ht ▸ hplain k (by omega) (by omega)
  obtain ⟨t, ht⟩ := between_brace hclose (Nat.le_refl stop)
  rw [between_self, List.nil_append] at ht
  refine ⟨hw, .of_reads ?_ ?_ (Calm.skip ?_ hcode),
    fun t ht => ⟨hcode t ht, hc.inside (show b ≤ lead by omega) site t ht⟩⟩
  · have hreads := hc.onward (show b ≤ lead by omega)
    rw [ts.drop_split hls] at hreads
    refine hreads.junction (hc.onward (show b ≤ stop by omega)) ?_ ?_ (fun x hx => ?_) fun _ => rfl
    · obtain ⟨u, hu⟩ := between_brace hclose hsite
      rw [spell_drop, hu]
      exact stopped_append hrest (by rintro c ⟨⟩; rfl)
    · rw [ht]
      rintro c ⟨⟩
      rfl
    · obtain ⟨hlt', hget⟩ := getLast?_extract hx (by omega)
      have hcomment := hcl.final hlt'
      rw [isComment_of hget] at hcomment
      refine ⟨(hc.token (show b ≤ site - 1 by omega) hget).1, fun hk => ?_, fun hk => ?_⟩
      · rw [hk] at hcomment
        cases hcomment
      · exact absurd ((kind?_of hget).trans (congrArg some hk))
          (not_lineComment hc hb hclose hno (show j ≤ site - 1 by omega) (by omega))
  · rcases Nat.lt_or_eq_of_le hls with hlt' | rfl
    · obtain ⟨c, u, hcu, hcw⟩ := (solid_comments hc hb hclose hno hj hcl hlt' hrest).first
      rw [hcu]
      exact Bool.eq_false_iff.2 fun hspace => Bool.eq_false_iff.1 hcw (isWhite_of_isSpace hspace)
    · rw [between_self, ht]
      rfl
  · intro u hu hname
    rw [ts.drop_split (Nat.le_succ stop), extract_singleton (isPunct_iff.1 hclose)] at hu
    cases hu
    cases hname

end

/-! The end of a scope. -/

theorem Part.Links.of_breaks {P Q : Part} (h : Breaks Q.gap) : P.Links Q := by
  unfold Part.Links
  split
  · exact fun _ => .inl h.mem
  · exact h

/-- Behind the entry `P` the text `t` is read as the nodes `ns` and what closes the list, and code goes
on at `e`. -/
structure Ends (ts : Tokens) (p : Place) (e : Nat) (P : Part) (ns : List Node) (t : Text) (qs : List Part)
    (w : Text) (Y : List Token) (T : Text) : Prop where
  sound : ∀ Q ∈ qs, Q.Sound p
  bare : qs.map (·.node.bare) = ns.map Node.bare
  text : t = qs.flatMap Part.text ++ (w ++ T)
  chain : (P :: qs).IsChain Part.Links
  meets : ∀ Q, (P :: qs).getLast? = some Q → Q.Meets w (Y ++ ts.toList.drop e) T
  closing : ts.Closing p e w Y T

/-- The last entries and what stands behind them, as they were read. -/
theorem exists_ends_read {P : Part} (hP : P.Fronts ts stop j) (h : ts.Row p stop j ns last) (hc : ts.Coded b)
    (hb : b ≤ j) (hbrink : ts.Brink stop) (hlast : last ≤ stop)
    (hcalm : ts.continues last ts.size = false) (hplain : ts.Plain last e) :
    ∃ qs w Y T, (last = e → Y = []) ∧
      ts.Ends p (max e (ts.startOf last ts.size)) P ns (ts.between j ts.size) qs w Y T := by
  have hsize := hbrink.le_size
  have hle : last ≤ ts.startOf last ts.size := le_leading (le_significant (Nat.le_trans hlast hsize))
  have hsig : ts.startOf last ts.size ≤ ts.significant last ts.size := leading_le ..
  have hsig' := ts.significant_le last ts.size
  have hj := h.le
  obtain ⟨ps, hps⟩ := h.exists_quotes hc hb
  refine ⟨ps, _, _, _, fun he => ?_, hps.sound, hps.bare, ?_, hps.chain P hP, fun Q hQ => ?_,
    closing_read hc (Nat.le_trans hb hj) (Nat.le_trans hlast hsize) hcalm hplain⟩
  · rw [Nat.max_eq_right (he ▸ hle)]
    simp
  · rw [← hps.text, between_append hle (by omega), between_append hj (by omega)]
  · rw [← ts.drop_split (Nat.le_max_right ..)]
    exact (hps.last P hP Q hQ).meets hc (Nat.le_trans hb hj) hbrink hlast hle (by omega)
      (loose_leading ts last ts.size)

theorem clear_of_head {Z : List Token}
    (h : ∀ t, Z.head? = some t → t.kind ≠ .lineComment ∧ t.kind ≠ .whitespace) (w : Text) :
    Clear (blank w ++ Z) := by
  rintro n hn ⟨Y, hZ⟩
  cases w with
  | nil =>
    have hhead : Z.head? = n.head? := by cases hn <;> exact (congrArg List.head? hZ).symm
    cases hn with
    | near v => exact (h _ hhead).1 rfl
    | apart v hw => exact (h _ hhead).2 rfl
  | cons c w =>
    cases hn with
    | near v => cases (List.cons.inj hZ).1
    | apart v hw =>
      have hhead : Z.head? = some ⟨.lineComment, v⟩ := (congrArg List.head? (List.cons.inj hZ).2).symm
      exact (h _ hhead).1 rfl

section

variable {lead site : Nat} {P : Part} (hc : ts.Coded b) (hb : b ≤ j) (hclose : ts.isPunct stop '\x7d' = true)
  (hno : '\n' ∉ ts.between j stop) (hcl : ts.ClosesAt last stop lead site) (hplain : ts.Plain last stop)
include hc hb hclose hno hcl

theorem meets_trimmed (hj : j ≤ last) (hP : P.Fronts ts stop last) : P.Meets (ts.between last lead)
    ((ts.extract lead site).toList ++ ts.toList.drop stop)
      (ts.between lead site ++ ts.between stop ts.size) := by
  have hle := hcl.le
  have hls := hcl.le_site
  have hsite := hcl.site_le
  have hlt : stop < ts.size := lt_size_of_isCode (isCode_of_isPunct hclose)
  have hnote : P.note = [] := by
    by_contra hne
    unfold Part.Fronts at hP
    rw [if_neg hne] at hP
    obtain ⟨t, ht⟩ := between_brace hclose (show last ≤ stop by omega)
    rw [ht] at hP
    rcases hP with hnil | hbreaks
    · simp at hnil
    · rw [← between_append hj (show last ≤ stop by omega)] at hno
      exact hno (List.mem_append_right _ (hbreaks.of_append rfl).mem)
  unfold Part.Meets
  rw [if_pos hnote]
  refine fun _ => clear_of_head (fun t ht => ?_) _
  rcases Nat.lt_or_eq_of_le hls with hlt' | heq
  · have hcomment := hcl.first hlt'
    obtain ⟨kind, hk, -⟩ := (Option.any_eq_true _ _).1 hcomment
    obtain ⟨t', ht', -⟩ := Option.map_eq_some_iff.1 hk
    rw [← extract_split (Nat.le_succ lead) hlt', extract_singleton ht'] at ht
    cases ht
    rw [isComment_of ht'] at hcomment
    refine ⟨fun hline => ?_, fun hwhite => by rw [hwhite] at hcomment; cases hcomment⟩
    exact not_lineComment hc hb hclose hno (show j ≤ lead by omega) (by omega)
      ((kind?_of ht').trans (congrArg some hline))
  · have hnil : (ts.extract lead site).toList = [] := by simp [heq]
    rw [hnil, ts.drop_split (Nat.le_succ stop), extract_singleton (isPunct_iff.1 hclose)] at ht
    cases ht
    exact ⟨nofun, nofun⟩

include hplain

/-- Behind the last entry the comments are left of what stands in front of the brace. -/
theorem trim_comments (hj : j ≤ last) : (ts.between last stop).trim = ts.between lead site := by
  have hle := hcl.le
  have hls := hcl.le_site
  have hsite := hcl.site_le
  have hlt : stop < ts.size := lt_size_of_isCode (isCode_of_isPunct hclose)
  have hgap := (hc.blank (show b ≤ last by omega) hle
    (fun k hk hkl => ⟨hplain k hk (by omega), hcl.gap k hk hkl⟩) (by omega)).2
  have hrest := (hc.blank (show b ≤ site by omega) hsite
    (fun k hk hks => ⟨hplain k (by omega) hks, hcl.rest k hk hks⟩) (Nat.le_of_lt hlt)).2
  rw [← between_append hle (show lead ≤ stop by omega), ← between_append hls hsite]
  rcases Nat.lt_or_eq_of_le hls with hlt' | rfl
  · exact (solid_comments hc hb hclose hno hj hcl hlt' hrest).trim_between (white_of_space hgap)
      (white_of_space hrest)
  · rw [between_self, List.nil_append]
    exact trim_white (List.forall_mem_append.2 ⟨white_of_space hgap, white_of_space hrest⟩)

/-- An import up to the last comment of its scope, and nothing but white space around it. -/
theorem trim_import (hp : p ≠ .members) (h : ts.Row p stop j (n :: ns) last) (hn : n.isImport = true) :
    (ts.between j stop).trim = ts.between (ts.startOf j stop) site := by
  have hle := hcl.le
  have hls := hcl.le_site
  have hsite := hcl.site_le
  have hlt : stop < ts.size := lt_size_of_isCode (isCode_of_isPunct hclose)
  have hended := h.ended hc hb (List.cons_ne_nil n ns)
  have hrest := (hc.blank (show b ≤ site by have := h.le; omega) hsite
    (fun k hk hks => ⟨hplain k (by omega) hks, hcl.rest k hk hks⟩) (Nat.le_of_lt hlt)).2
  cases h with
  | @cons _ _ r _ _ hq hrow =>
    have hstart := hq.entry.le_start
    have hfinish := hq.entry.lt_finish
    have hmid := hrow.le
    have hgap := (hc.blank hb hstart (loose_leading ts j stop)
      (show ts.startOf j stop ≤ ts.size by omega)).2
    have hsolid : (ts.between (ts.startOf j stop) site).Solid := by
      constructor
      · obtain ⟨t, ht, c, u, hcu, hcw⟩ := hq.first_of_import hp hc hb hn
        refine ⟨c, u ++ ts.between (ts.startOf j stop + 1) site, ?_, hcw⟩
        rw [← between_append (Nat.le_succ _) (show ts.startOf j stop + 1 ≤ site by omega), between_succ ht,
          hcu]
        rfl
      · rcases Nat.lt_or_eq_of_le hls with hlt' | heq
        · obtain ⟨d, hd, hdw⟩ := (solid_comments hc hb hclose hno (by omega) hcl hlt' hrest).last
          refine ⟨d, ?_, hdw⟩
          rw [← between_append (show ts.startOf j stop ≤ lead by omega) hls, List.getLast?_append, hd]
          rfl
        · obtain rfl : site = last := heq.symm.trans (hcl.empty heq)
          obtain ⟨z, hz, hpunct⟩ := hended.resolve_right
            (not_lineComment hc hb hclose hno (show j ≤ site - 1 by omega) (by omega))
          have hend := between_succ (isPunct_iff.1 hpunct)
          rw [Nat.sub_add_cancel (by omega)] at hend
          refine ⟨z, ?_, by rcases isBarrier_cases hz with rfl | rfl | rfl <;> rfl⟩
          rw [← between_append (show ts.startOf j stop ≤ site - 1 by omega) (Nat.sub_le site 1), hend,
            List.getLast?_concat]
    rw [← between_append hstart (show ts.startOf j stop ≤ stop by omega),
      ← between_append (show ts.startOf j stop ≤ site by omega) hsite]
    exact hsolid.trim_between (white_of_space hgap) (white_of_space hrest)

/-- The last entries and the comments behind them, on a line of their own. -/
theorem exists_ends_trimmed (hp : p ≠ .members) (h : ts.Row p stop j ns last)
    (hns : ∀ n ∈ ns, n.isImport = true) (hg : ∀ c ∈ g, isSpace c = true) (hbreaks : Breaks g) (P : Part) :
    ∃ qs w Y T, (last = stop → Y = []) ∧
      ts.Ends p stop P ns (g ++ (ts.between j stop).trim ++ ts.between stop ts.size) qs w Y T := by
  have hle := hcl.le
  have hls := hcl.le_site
  have hsite := hcl.site_le
  have hlt : stop < ts.size := lt_size_of_isCode (isCode_of_isPunct hclose)
  have hj := h.le
  have hgap := (hc.blank (show b ≤ last by omega) hle
    (fun k hk hkl => ⟨hplain k hk (by omega), hcl.gap k hk hkl⟩) (by omega)).2
  have hempty : last = stop → (ts.extract lead site).toList = [] := fun he => by
    rw [show lead = site by omega]
    simp
  cases ns with
  | nil =>
    cases h
    refine ⟨[], g, _, _, hempty, List.forall_mem_nil _, rfl, ?_, .singleton P, ?_,
      closing_trimmed hc hb hclose hno hj hcl hplain hg⟩
    · rw [trim_comments hc hb hclose hno hcl hplain hj, List.append_assoc]
      rfl
    · rintro Q ⟨⟩
      unfold Part.Meets
      split
      · exact fun _ => clear_blank hbreaks.mem _
      · exact .inr (hbreaks.append _)
  | cons n ns =>
    have htrim := trim_import hc hb hclose hno hcl hplain hp h (hns n List.mem_cons_self)
    cases h with
    | @cons _ _ r _ _ hq hrow =>
      have hstart := hq.entry.le_start
      have hfinish := hq.entry.lt_finish
      have hmid := hrow.le
      obtain ⟨ps, hps⟩ := hrow.exists_quotes hc (show b ≤ (ts.finish stop r).2 by omega)
      have hfronts := hq.entry.fronts hc hb g
      refine ⟨ts.entryPart j stop r g :: ps, ts.between last lead, _, _, hempty,
        List.forall_mem_cons.2 ⟨hq.sound hc hb hg, hps.sound⟩, ?_, ?_,
        List.isChain_cons_cons.2 ⟨.of_breaks hbreaks, hps.chain _ hfronts⟩, fun Q hQ => ?_,
        closing_trimmed hc hb hclose hno hj hcl hplain hgap⟩
      · rw [List.map_cons, List.map_cons, hps.bare, hq.bare]
        rfl
      · rw [htrim, List.flatMap_cons, ← hps.text, Row.text_entryPart hq.entry,
          ← between_append (show ts.startOf j stop ≤ last by omega) (show last ≤ site by omega),
          ← between_append (Nat.le_of_lt hfinish) hmid, ← between_append hle hls]
        simp only [List.append_assoc]
      · rw [List.getLast?_cons_cons] at hQ
        exact meets_trimmed hc hb hclose hno hcl hj (hps.last _ hfronts Q hQ)

end

end Tokens
end PhpGraft
