import PhpGraft.Proofs.ClassParts
import PhpGraft.Proofs.Elision
import PhpGraft.Proofs.Junction
import PhpGraft.Proofs.Numbering

/-!
Entries of a file, quoted: what was read as an entry is read so again behind other white space, with
the comment that ends its last line.
-/
namespace PhpGraft

namespace Lexer

variable {zs : List Token} {x : Token} {t : Text}

theorem Reads.solid (h : Reads .code (x :: zs) t) (hx : x.kind ≠ .whitespace) :
    ∃ c u, x.text = c :: u ∧ isSpace c = false := by
  cases h with
  | cons hs hr =>
    exact ⟨_, _, rfl, Bool.eq_false_iff.2 fun hc => hx ((rule_of_scanCode hs).space hc).1⟩

/-- White space is one token. -/
theorem Reads.head_white (h : Reads .code (x :: zs) t) (hx : x.kind = .whitespace) :
    (Token.spell zs).head?.any isSpace = false := by
  cases h with
  | @cons _ c u t k _ hs hr =>
    obtain rfl : k = .whitespace := hx
    have hrule := rule_of_scanCode hs
    have hspace := hrule.whitespace_space c List.mem_cons_self
    obtain ⟨-, hsize⟩ := hrule.space hspace
    rw [hr.spell]
    exact (takeWhile_append_eq hsize).2

theorem Reads.head_line (h : Reads .code zs ('\n' :: t)) :
    ∃ v, zs.head? = some ⟨.whitespace, '\n' :: v⟩ := by
  generalize hs : '\n' :: t = s at h
  cases h with
  | nil => cases hs
  | @cons _ c u t' k _ hscan hr =>
    obtain ⟨rfl, -⟩ := List.cons.inj hs
    obtain ⟨rfl, -⟩ := (rule_of_scanCode hscan).space rfl
    exact ⟨u, rfl⟩

theorem Reads.of_nil (h : Reads .code zs []) : zs = [] := by
  cases h
  rfl

theorem Breaks.of_append {w u : Text} {c : Char} (h : Breaks (w ++ c :: u)) (hc : isSpace c = false) :
    Breaks w := by
  match w, h with
  | [], h =>
    rcases h with ⟨s, h⟩ | ⟨s, h⟩ <;> obtain ⟨rfl, -⟩ := List.cons.inj h <;> cases hc
  | d :: w, .inl ⟨s, h⟩ =>
    obtain ⟨rfl, -⟩ := List.cons.inj h
    exact .inl ⟨w, rfl⟩
  | [d], .inr ⟨s, h⟩ =>
    obtain ⟨-, htail⟩ := List.cons.inj h
    obtain ⟨rfl, -⟩ := List.cons.inj htail
    cases hc
  | d :: e :: w, .inr ⟨s, h⟩ =>
    obtain ⟨rfl, htail⟩ := List.cons.inj h
    obtain ⟨rfl, -⟩ := List.cons.inj htail
    exact .inr ⟨w, rfl⟩

end Lexer

namespace Tokens

open Lexer

variable {ts : Tokens} {p : Place} {b i j k mid stop : Nat} {r : Node × Nat} {gap : Text}

/-! Code without close tags. -/

/-- From `b` on there is nothing but code. -/
structure Coded (ts : Tokens) (b : Nat) : Prop where
  reads : Reads .code (ts.toList.drop b) (ts.between b ts.size)
  whole : ∀ k, b ≤ k → ts.kind? k ≠ some .closeTag

namespace Coded

variable (h : ts.Coded b)
include h

theorem onward (hj : b ≤ j) : Reads .code (ts.toList.drop j) (ts.between j ts.size) := by
  have hreads := h.reads
  rw [ts.drop_split hj] at hreads
  have hrest := hreads.of_append
  rw [afterAll_code (forall_extract fun k hk _ t ht he => h.whole k hk
    ((kind?_of ht).trans (congrArg some he))), spell_drop] at hrest
  exact hrest

theorem onward_cons (hk : b ≤ k) {t : Token} (ht : ts[k]? = some t) :
    Reads .code (t :: ts.toList.drop (k + 1)) (ts.between k ts.size) := by
  have hreads := h.onward hk
  rwa [ts.drop_split (Nat.le_succ k), extract_singleton ht] at hreads

theorem token (hk : b ≤ k) {t : Token} (ht : ts[k]? = some t) : t.kind.isOutside = false ∧
    (t.kind = .whitespace → ∀ c ∈ t.text, isSpace c = true) := by
  have hreads : Reads .code ([t] ++ ts.toList.drop (k + 1)) _ := h.onward_cons hk ht
  refine reads_kinds_append hreads (List.forall_mem_singleton.2 fun he => ?_) t
    List.mem_cons_self
  exact h.whole k hk ((kind?_of ht).trans (congrArg some he))

theorem inside (hi : b ≤ i) (j : Nat) : ∀ t ∈ (ts.extract i j).toList, t.kind.isOutside = false :=
  forall_extract fun _ hk _ _ ht => (h.token (Nat.le_trans hi hk) ht).1

/-- Behind a line comment the line ends. -/
theorem behind_line (hk : b ≤ k) (hline : ts.kind? k = some .lineComment) :
    ts.between (k + 1) ts.size = [] ∨ ∃ w, ts.between (k + 1) ts.size = '\n' :: w := by
  obtain ⟨t, ht, hkind⟩ := Option.map_eq_some_iff.1 hline
  have honward : Reads .code ([] ++ t :: ts.toList.drop (k + 1)) _ := h.onward_cons hk ht
  have hends := honward.endsLine_behind hkind
  rw [spell_drop] at hends
  refine hends.imp_right fun hends => hends.resolve_right fun ⟨w, hw⟩ => ?_
  have hreads := h.onward (Nat.le_succ_of_le hk)
  rw [hw] at hreads
  obtain ⟨x, hx, hclose⟩ := hreads.head_closeTag
  obtain ⟨n, hn⟩ := List.mem_iff_getElem?.1 hx
  rw [List.getElem?_drop, Array.getElem?_toList] at hn
  exact h.whole _ (by omega) ((kind?_of hn).trans (congrArg some hclose))

/-- A line break is white space. -/
theorem white_of_newline (hj : b ≤ j) {w : Text} (hw : ts.between j ts.size = '\n' :: w) :
    ∃ v, ts[j]? = some ⟨.whitespace, '\n' :: v⟩ := by
  have hreads := h.onward hj
  rw [hw] at hreads
  obtain ⟨v, hv⟩ := hreads.head_line
  rw [List.head?_drop, Array.getElem?_toList] at hv
  exact ⟨v, hv⟩

/-- No comment stands behind the end of a line. -/
theorem trailing_of_line (hj : b ≤ j) (stop : Nat)
    (hline : ts.between j ts.size = [] ∨ ∃ w, ts.between j ts.size = '\n' :: w) :
    ts.trailing j stop = j := by
  rcases hline with hnil | ⟨w, hw⟩
  · have hreads := h.onward hj
    rw [hnil] at hreads
    have hdrop := hreads.of_nil
    have hnone : ts.kind? j = none := by
      rw [kind?, ← Array.getElem?_toList, ← List.head?_drop, hdrop]
      rfl
    have hne : ∀ kind, ts.kind? j ≠ some kind := fun kind hk => by
      rw [hnone] at hk
      cases hk
    exact trailing_none (hne _) fun hk => absurd hk (hne _)
  · obtain ⟨v, hv⟩ := h.white_of_newline hj hw
    refine trailing_none (fun hk => ?_) fun _ hline => ?_
    · rw [kind?_of hv] at hk
      cases hk
    · rw [text_of hv] at hline
      simp at hline

/-- White space in front of something. -/
theorem blank (hi : b ≤ i) (hij : i ≤ j) (hl : ts.Loose i j) (hj : j ≤ ts.size) :
    (ts.extract i j).toList = blank (ts.between i j) ∧ ∀ c ∈ ts.between i j, isSpace c = true := by
  rcases Nat.eq_or_lt_of_le hij with rfl | hlt
  · have hnil : (ts.extract i i).toList = [] := by simp
    rw [between_self, hnil]
    exact ⟨rfl, nofun⟩
  have hwhite : ∀ k, i ≤ k → k < j → ∀ t, ts[k]? = some t → t.kind = .whitespace := by
    intro k hk hkj t ht
    obtain ⟨hcode, hcomment⟩ := hl k hk hkj
    rw [isCode_of ht] at hcode
    rw [isComment_of ht] at hcomment
    exact whitespace_of_not hcode hcomment (h.token (Nat.le_trans hi hk) ht).1
  obtain ⟨t, ht⟩ : ∃ t, ts[i]? = some t := ⟨ts[i], Array.getElem?_eq_getElem (by omega)⟩
  have hreads := h.onward_cons hi ht
  have hkind := hwhite i (Nat.le_refl i) hlt t ht
  obtain rfl : j = i + 1 := by
    refine Nat.le_antisymm (Nat.le_of_not_lt fun hgt => ?_) hlt
    obtain ⟨t', ht'⟩ : ∃ t', ts[i + 1]? = some t' := ⟨ts[i + 1], Array.getElem?_eq_getElem (by omega)⟩
    have hkind' := hwhite (i + 1) (Nat.le_succ i) hgt t' ht'
    have hspace := (h.token (Nat.le_succ_of_le hi) ht').2 hkind'
    have hsolid := hreads.head_white hkind
    have hreads' := h.onward_cons (Nat.le_succ_of_le hi) ht'
    rw [ts.drop_split (Nat.le_succ (i + 1)), extract_singleton ht', Token.spell, List.flatMap_append,
      List.flatMap_singleton] at hsolid
    obtain ⟨c, u, hc⟩ := List.exists_cons_of_ne_nil (hreads'.text_ne_nil t' List.mem_cons_self)
    rw [hc, List.cons_append, List.head?_cons, Option.any_some,
      hspace c (by rw [hc]; exact List.mem_cons_self)] at hsolid
    cases hsolid
  have hspell : ts.between i (i + 1) = t.text := by
    rw [between, extract_singleton ht]
    exact List.append_nil _
  have hspace := (h.token hi ht).2 hkind
  rw [hspell, extract_singleton ht]
  refine ⟨?_, hspace⟩
  obtain ⟨c, u, hc⟩ := List.exists_cons_of_ne_nil (hreads.text_ne_nil t List.mem_cons_self)
  rw [hc, Lexer.blank, ← hc, ← hkind]

end Coded
/-! Entries. -/

/-- Where a list of entries ends: at a closing brace, or with the tokens. -/
def Brink (ts : Tokens) (stop : Nat) : Prop := stop = ts.size ∨ ts.isPunct stop '\x7d' = true

theorem Brink.le_size (h : ts.Brink stop) : stop ≤ ts.size := by
  rcases h with rfl | h
  · exact Nat.le_refl _
  · exact Nat.le_of_lt (lt_size_of_isCode (isCode_of_isPunct h))

theorem Brink.not_isPunct (h : ts.Brink stop) {z : Char} (hz : z ≠ '\x7d') :
    ts.isPunct stop z = false := by
  rcases h with rfl | h
  · refine Bool.eq_false_iff.2 fun hp => ?_
    exact Nat.lt_irrefl _ (lt_size_of_isCode (isCode_of_isPunct hp))
  · exact not_isPunct_of_ne h (Ne.symm hz)

theorem Brink.kind? (h : ts.Brink stop) {kind : TokenKind} (hk : ts.kind? stop = some kind) :
    kind = .punct := by
  rcases h with rfl | h
  · exact absurd (lt_size_of_kind? hk) (Nat.lt_irrefl _)
  · rw [Tokens.kind?, isPunct_iff.1 h] at hk
    exact (Option.some.inj hk).symm

/-- Where the search behind a line finds no comment, none starts there. -/
theorem clear_of_trailing (h : ts.Brink stop) (hi : i ≤ stop) (ht : ts.trailing i stop = i) :
    Clear (ts.toList.drop i) := by
  rintro n hn ⟨zs, hzs⟩
  have hget : ∀ k, ts[i + k]? = (n ++ zs)[k]? := fun k => by
    rw [hzs, List.getElem?_drop, Array.getElem?_toList]
  have hzero := hget 0
  rw [Nat.add_zero] at hzero
  have hne : ∀ {k t}, ts[k]? = some t → t.kind ≠ .punct → k ≠ stop := by
    rintro k t hk hkind rfl
    exact hkind (h.kind? (kind?_of hk))
  cases hn with
  | near c =>
    have hlt := hne hzero nofun
    rw [trailing_near hzero (by omega)] at ht
    omega
  | apart c hw =>
    have hlt := hne hzero nofun
    have hlt' := hne (hget 1) nofun
    rw [trailing_apart hzero hw (hget 1) (by omega)] at ht
    omega

/-- An entry that is read behind `mid`. -/
structure EntryAt (ts : Tokens) (p : Place) (stop mid : Nat) (r : Node × Nat) : Prop where
  lt : ts.significant mid stop < stop
  read : ts.entry p (ts.leading mid (ts.significant mid stop)) (ts.significant mid stop) stop = .ok r
  brink : ts.Brink stop

/-- Where the entry starts, with the comments in front of it. -/
def startOf (ts : Tokens) (mid stop : Nat) : Nat := ts.leading mid (ts.significant mid stop)

/-- Behind the white space stands code or a comment. -/
theorem token_startOf (h : ts.startOf mid stop < stop) :
    ∃ t, ts[ts.startOf mid stop]? = some t ∧ t.kind ≠ .whitespace ∧ t.kind.isOutside = false := by
  have hle : ts.startOf mid stop ≤ ts.significant mid stop := leading_le ..
  have hkind : ∃ kind, ts.kind? (ts.startOf mid stop) = some kind ∧
      (kind.isComment = true ∨ kind.isCode = true) := by
    rcases Nat.lt_or_eq_of_le hle with hlt | heq
    · have hcomment : ts.isComment (ts.startOf mid stop) = true := firstFrom_pos hlt
      exact ((Option.any_eq_true _ _).1 hcomment).imp fun _ hk => ⟨hk.1, .inl hk.2⟩
    · have hcode := isCode_significant (heq ▸ h)
      rw [← heq] at hcode
      exact ((Option.any_eq_true _ _).1 hcode).imp fun _ hk => ⟨hk.1, .inr hk.2⟩
  obtain ⟨kind, hk, hkind⟩ := hkind
  obtain ⟨t, ht, rfl⟩ := Option.map_eq_some_iff.1 hk
  refine ⟨t, ht, fun hwhite => ?_, Bool.eq_false_iff.2 fun hout => ?_⟩
  · rw [hwhite] at hkind
    rcases hkind with hkind | hkind <;> cases hkind
  · revert hkind hout
    cases t.kind <;> decide

/-- The entry behind white space. -/
def entryPart (ts : Tokens) (mid stop : Nat) (r : Node × Nat) (gap : Text) : Part where
  gap := gap
  code := (ts.extract (ts.startOf mid stop) r.2).toList
  note := (ts.extract r.2 (ts.finish stop r).2).toList
  node := r.1

namespace EntryAt

theorem first_lt (h : ts.EntryAt p stop mid r) : ts.significant mid stop < r.2 := lt_of_entry h.read h.lt

theorem le_first (h : ts.EntryAt p stop mid r) : mid ≤ ts.significant mid stop := le_firstFrom_of_lt h.lt

theorem start_le (_ : ts.EntryAt p stop mid r) : ts.startOf mid stop ≤ ts.significant mid stop :=
  leading_le ..

theorem le_start (h : ts.EntryAt p stop mid r) : mid ≤ ts.startOf mid stop := le_leading h.le_first

theorem start_lt (h : ts.EntryAt p stop mid r) : ts.startOf mid stop < r.2 :=
  Nat.lt_of_le_of_lt h.start_le h.first_lt

theorem stands (h : ts.EntryAt p stop mid r) : Stands ts (ts.startOf mid stop) stop r :=
  stands_entry h.read (leading_le ..) h.lt h.brink.le_size (h.brink.not_isPunct (by decide))

theorem le_stop (h : ts.EntryAt p stop mid r) : r.2 ≤ stop := h.stands.le_stop

theorem finish_le (h : ts.EntryAt p stop mid r) : (ts.finish stop r).2 ≤ stop :=
  (stands_finish h.stands h.brink.le_size).le_stop

theorem lt_finish (h : ts.EntryAt p stop mid r) : ts.startOf mid stop < (ts.finish stop r).2 :=
  Nat.lt_of_lt_of_le h.start_lt (ts.le_finish stop r)

theorem startOf_lt (h : ts.EntryAt p stop mid r) : ts.startOf mid stop < stop :=
  Nat.lt_of_le_of_lt h.start_le h.lt

/-- The line comment behind the code. -/
theorem note_cases (ts : Tokens) (stop : Nat) (r : Node × Nat) :
    (ts.finish stop r).2 = r.2 ∨ r.1.decl.isScope = false ∧
      Note (ts.extract r.2 (ts.finish stop r).2).toList ∧
        r.2 < (ts.finish stop r).2 ∧ ts.kind? ((ts.finish stop r).2 - 1) = some .lineComment := by
  unfold finish
  split
  · exact .inl rfl
  rename_i hscope
  rw [withTrailing_snd]
  rcases trailing_cases ts r.2 stop with he | ⟨-, hk, he⟩ | ⟨-, hk, hline, hk', he⟩
  · exact .inl he
  · obtain ⟨⟨_, c⟩, hget, rfl⟩ := Option.map_eq_some_iff.1 hk
    refine .inr ⟨Bool.eq_false_iff.2 hscope, ?_, by omega, by rw [he]; exact hk⟩
    rw [he, extract_singleton hget]
    exact .near c
  · obtain ⟨⟨_, w⟩, hget, rfl⟩ := Option.map_eq_some_iff.1 hk
    obtain ⟨⟨_, c⟩, hget', rfl⟩ := Option.map_eq_some_iff.1 hk'
    refine .inr ⟨Bool.eq_false_iff.2 hscope, ?_, by omega, by rw [he]; exact hk'⟩
    rw [text_of hget] at hline
    rw [he, ← extract_split (Nat.le_succ r.2) (Nat.le_succ _), extract_singleton hget,
      extract_singleton hget']
    exact .apart c hline

end EntryAt

/-! Entries elsewhere. -/

/-- The node `n` was read as an entry that can be read apart from its neighbours. -/
structure Quoted (ts : Tokens) (p : Place) (stop mid : Nat) (n : Node) (r : Node × Nat) : Prop where
  entry : ts.EntryAt p stop mid r
  /-- It is no namespace that goes on up to the next one. -/
  braced : ∀ name?, r.1.decl ≠ .scope name? false
  calm : ts.isOneOf (ts.significant mid stop) continuations = false
  ended : ts.continues r.2 stop = false
  origin : ∃ body?, n.origin = .anchored ⟨⟨ts.startOf mid stop, (ts.finish stop r).2⟩, body?⟩
  body : n.origin.anchor?.bind Anchor.body? = r.1.origin.anchor?.bind Anchor.body?
  bare : n.bare = r.1.bare

namespace Quoted

variable {n : Node} (h : ts.Quoted p stop mid n r) (hc : ts.Coded b) (hb : b ≤ mid)
include h hc hb

theorem closes : ∃ z, isBarrier z = true ∧ ts.isPunct (r.2 - 1) z = true := by
  refine (ended_entry h.entry.read h.braced).resolve_left (hc.whole _ ?_)
  have hle := h.entry.le_first
  have hlt := h.entry.first_lt
  omega

/-- What was read as an entry is read so wherever it stands. -/
theorem phrase : Phrase p (ts.extract (ts.startOf mid stop) r.2).toList r.1 := by
  obtain ⟨z, hz, hp⟩ := h.closes hc hb
  have hlt := h.entry.first_lt
  have hle := h.entry.start_le
  have hmid := h.entry.le_start
  have hstop := h.entry.le_stop
  have hsize := h.entry.brink.le_size
  have hlen : (ts.extract (ts.startOf mid stop) r.2).toList.length = r.2 - ts.startOf mid stop :=
    length_extract (Nat.le_trans hstop hsize)
  intro A B stop' hcalm hs hs'
  generalize hus : (A ++ ((ts.extract (ts.startOf mid stop) r.2).toList ++ B)).toArray = us
  have hshift : shift (ts.startOf mid stop) A.length r.2 =
      A.length + (ts.extract (ts.startOf mid stop) r.2).toList.length := by rw [hlen, shift]
  have C : Copy ts us (ts.startOf mid stop) A.length r.2 stop stop' := by
    refine .of_equal (.wall (by omega) (firm_of_barrier hz hp) hstop (hshift ▸ hs)) (fun _ _ => ?_)
      fun k hk hkr => ?_
    · rw [h.ended, hshift, ← hus, ← List.append_assoc, ← List.length_append]
      exact continues_of_calm hcalm stop'
    · rw [← hus, shift, getElem?_append, List.getElem?_append_left (by omega), getElem?_extract hk hkr]
  have hskip := settles_of_entry h.entry.read h.entry.lt (Nat.le_refl _)
    fun hc' => absurd hc' (hc.whole _ (by omega))
  have hread := C.entry h.entry.read (Nat.le_refl _) hle h.entry.lt hsize (Nat.le_refl _) hskip
    fun _ => h.braced
  obtain ⟨hsig, -, -⟩ := C.toWindow.significant (Nat.le_refl (ts.startOf mid stop)) (by omega)
  have hlead := C.toWindow.leading (i := ts.startOf mid stop) (Nat.le_refl _) hlt
  have hfirst : ts.significant (ts.startOf mid stop) stop = ts.significant mid stop :=
    (significant_of_skip hmid (by omega) fun k hk hkl => ts.plain_significant mid stop k hk (by omega)).symm
  have hself : ts.leading (ts.startOf mid stop) (ts.significant mid stop) = ts.startOf mid stop :=
    leading_leading ..
  rw [hself, shift_self] at hlead
  rw [hfirst, shift_self] at hsig
  change Tokens.entry us p (shift (ts.startOf mid stop) A.length (ts.startOf mid stop)) _ _ = _ at hread
  rw [shift_self] at hread
  refine ⟨_, _, hsig, ?_, hlead, hread, hshift, Node.bare_move _ _⟩
  rw [← hshift]
  exact (shift_lt hle).2 hlt

omit hc hb in
theorem find?_code : ∃ t, (ts.extract (ts.startOf mid stop) r.2).toList.find? (·.kind.isCode) = some t ∧
    (t.kind = .name → t.text.lower ∉ continuations) := by
  have hle := h.entry.start_le
  have hlt := h.entry.first_lt
  have hmid := h.entry.le_start
  obtain ⟨kind, hk, hcode⟩ := (Option.any_eq_true _ _).1 (isCode_significant h.entry.lt)
  obtain ⟨t, ht, rfl⟩ := Option.map_eq_some_iff.1 hk
  have hget : (ts.extract (ts.startOf mid stop) r.2).toList[_]? = _ := getElem?_extract hle hlt
  rw [ht] at hget
  obtain ⟨hlt', hget⟩ := List.getElem?_eq_some_iff.1 hget
  refine ⟨t, List.find?_eq_some_iff_getElem.2 ⟨hcode, _, hlt', hget, fun j hj => ?_⟩, fun hname hmem => ?_⟩
  · have hplain := ts.plain_significant mid stop (ts.startOf mid stop + j) (by omega) (by omega)
    have hj' : (ts.extract (ts.startOf mid stop) r.2).toList[_]? = _ :=
      getElem?_extract (Nat.le_add_right (ts.startOf mid stop) j) (by omega)
    rw [Nat.add_sub_cancel_left, List.getElem?_eq_getElem (by omega)] at hj'
    rw [isCode_of hj'.symm] at hplain
    rw [hplain]
    rfl
  · have hcalm := h.calm
    rw [isOneOf, List.any_eq_false] at hcalm
    refine hcalm _ hmem ?_
    simp [isKeyword, isName, kind?, Tokens.text, ht, hname]

/-- An entry that was read is sound behind any white space. -/
theorem sound (hgap : ∀ c ∈ gap, isSpace c = true) : (ts.entryPart mid stop r gap).Sound p := by
  have hmid := h.entry.le_start
  have hlt := h.entry.start_lt
  have hfin := ts.le_finish stop r
  have hreads := hc.onward (Nat.le_trans hb hmid)
  rw [ts.drop_split (Nat.le_of_lt hlt), ts.drop_split hfin] at hreads
  obtain ⟨z, hz, hp⟩ := h.closes hc hb
  obtain ⟨t, ht, hspace, -⟩ := token_startOf h.entry.startOf_lt
  have hcons : (ts.extract (ts.startOf mid stop) r.2).toList =
      t :: (ts.extract (ts.startOf mid stop + 1) r.2).toList := by
    rw [← extract_split (Nat.le_succ _) hlt, extract_singleton ht]
    rfl
  refine ⟨hgap, h.phrase hc hb, ?_, ⟨_, _, hreads⟩, ?_, h.find?_code, ?_, ?_⟩
  · refine ⟨(ts.extract (ts.startOf mid stop) (r.2 - 1)).toList, z, ?_, hz⟩
    have hone := extract_singleton (isPunct_iff.1 hp)
    rw [Nat.sub_add_cancel (by omega)] at hone
    rw [← hone, extract_split (by omega) (by omega)]
    rfl
  · rw [hcons] at hreads
    obtain ⟨c, u, hcu, hc'⟩ := hreads.solid hspace
    rw [entryPart, hcons, Token.spell, List.flatMap_cons, hcu]
    exact hc'
  · rcases EntryAt.note_cases ts stop r with he | ⟨hscope, hnote, -⟩
    · left
      rw [entryPart, he]
      simp
    · have hrest := hc.onward (j := r.2) (by omega)
      rw [ts.drop_split hfin] at hrest
      exact .inr ⟨hscope, hnote, _, _, hrest⟩
  · rw [entryPart, extract_split (Nat.le_of_lt hlt) hfin]
    exact hc.inside (Nat.le_trans hb hmid) _

end Quoted

/-! What stands behind an entry. -/

/-- The entry may stand in front of what is read from `i` on. -/
def Part.Fronts (ts : Tokens) (stop i : Nat) (P : Part) : Prop :=
  if P.note = [] then P.node.decl.isScope = false → ts.trailing i stop = i
  else ts.between i ts.size = [] ∨ Breaks (ts.between i ts.size)

namespace EntryAt

variable (h : ts.EntryAt p stop mid r) (hc : ts.Coded b) (hb : b ≤ mid)
include h hc hb

/-- The comment on the last line of an entry is the last one there. -/
theorem trailing_finish (hscope : r.1.decl.isScope = false) :
    ts.trailing (ts.finish stop r).2 stop = (ts.finish stop r).2 := by
  have hmid := h.le_start
  have hlt := h.start_lt
  rcases note_cases ts stop r with he | ⟨-, -, hgt, hline⟩
  · rw [he]
    exact (finish_snd_of_not_isScope hscope stop).symm.trans he
  · obtain ⟨k, hk⟩ := Nat.exists_eq_add_of_lt hgt
    have hend := hc.behind_line (k := (ts.finish stop r).2 - 1) (by omega) hline
    rw [Nat.sub_add_cancel (by omega)] at hend
    exact hc.trailing_of_line (by omega) stop hend

/-- An entry may stand where it was read. -/
theorem fronts (gap : Text) : (ts.entryPart mid stop r gap).Fronts ts stop (ts.finish stop r).2 := by
  have hmid := h.le_start
  have hlt := h.start_lt
  unfold Part.Fronts
  split
  · exact h.trailing_finish hc hb
  · rename_i hne
    rcases note_cases ts stop r with he | ⟨-, -, hgt, hline⟩
    · refine absurd ?_ hne
      rw [entryPart, he]
      simp
    · have hend := hc.behind_line (k := (ts.finish stop r).2 - 1) (by omega) hline
      rw [Nat.sub_add_cancel (by omega)] at hend
      exact hend.imp_right fun hw => .inl hw

end EntryAt

namespace Part.Fronts

variable {P : Part} (h : P.Fronts ts stop i) (hc : ts.Coded b) (hb : b ≤ i)
include h hc hb

/-- White space and what stands behind it may follow. -/
theorem meets (hbrink : ts.Brink stop) (hi : i ≤ stop) (hij : i ≤ j) (hj : j ≤ ts.size)
    (hl : ts.Loose i j) :
    P.Meets (ts.between i j) (ts.toList.drop j) (ts.between j ts.size) := by
  unfold Part.Fronts at h
  unfold Part.Meets
  split at h
  · rename_i hnil
    rw [if_pos hnil]
    intro hscope
    have hclear := clear_of_trailing hbrink hi (h hscope)
    rwa [ts.drop_split hij, (hc.blank hb hij hl hj).1] at hclear
  · rename_i hne
    rw [if_neg hne, between_append hij hj]
    exact h.imp_left fun hnil => .inl hnil

/-- The entry that is read there may follow. -/
theorem links (hq : ts.EntryAt p stop i r) :
    P.Links (ts.entryPart i stop r (ts.between i (ts.startOf i stop))) := by
  have hle := hq.le_start
  have hlt := hq.start_lt
  have hfirst := hq.lt
  have hstart := hq.start_le
  have hfirst' := hq.le_first
  have hsize := hq.brink.le_size
  have hl : ts.Loose i (ts.startOf i stop) := loose_leading ts i stop
  obtain ⟨hblank, hspace⟩ := hc.blank hb hle hl (by omega)
  obtain ⟨t, ht, hkind, -⟩ := token_startOf hq.startOf_lt
  unfold Part.Fronts at h
  unfold Part.Links
  split at h
  · rename_i hnil
    rw [if_pos hnil]
    intro hscope
    have hclear := clear_of_trailing hq.brink (by omega) (h hscope)
    rw [ts.drop_split hle, hblank, ts.drop_split (Nat.le_succ _), extract_singleton ht] at hclear
    by_cases hline : '\n' ∈ ts.between i (ts.startOf i stop)
    · exact .inl hline
    refine .inr fun t' ht' hk => ?_
    obtain ⟨-, hget⟩ := head?_extract ht'
    obtain rfl := Option.some.inj (ht.symm.trans hget)
    obtain ⟨kind, v⟩ := t
    obtain rfl : kind = .lineComment := hk
    cases hg : ts.between i (ts.startOf i stop) with
    | nil =>
      rw [hg] at hclear
      exact hclear _ (.near v) (List.prefix_append _ _)
    | cons c w =>
      rw [hg] at hclear hline
      refine hclear _ (.apart (w := c :: w) v ?_) (List.prefix_append [_, _] _)
      simpa using hline
  · rename_i hne
    rw [if_neg hne]
    have hreads := hc.onward_cons (Nat.le_trans hb hle) ht
    obtain ⟨c, u, hcu, hsolid⟩ := hreads.solid hkind
    have hsplit : ts.between i _ ++ ts.between _ ts.size = _ :=
      between_append hle (show ts.startOf i stop ≤ ts.size by omega)
    rw [← hreads.spell, Token.spell, List.flatMap_cons, hcu, List.cons_append] at hsplit
    rw [← hsplit] at h
    rcases h with hnil | hbreaks
    · exact absurd hnil (by simp)
    · exact hbreaks.of_append hsolid

end Part.Fronts

/-! Entries one behind the other. -/

/-- Nodes that were read one behind the other. -/
inductive Row (ts : Tokens) (p : Place) (stop : Nat) : Nat → List Node → Nat → Prop
  | nil {i : Nat} : Row ts p stop i [] i
  | cons {i : Nat} {n : Node} {r : Node × Nat} {ns : List Node} {last : Nat} : ts.Quoted p stop i n r →
      Row ts p stop (ts.finish stop r).2 ns last → Row ts p stop i (n :: ns) last

variable {ns ms : List Node} {n : Node} {last : Nat}

/-- Behind the last entry of a list nothing carries a statement on. -/
theorem not_continues_of_halts (h : ts.Halts p i stop) : ts.continues i stop = false := by
  refine Bool.eq_false_iff.2 fun hc => ?_
  obtain ⟨hlt, hword⟩ := Bool.and_eq_true_iff.1 hc
  have hspace := (Bool.and_eq_true_iff.1 (h (of_decide_eq_true hlt)).2).1
  obtain ⟨hkeyword, -⟩ := Bool.and_eq_true_iff.1 hspace
  obtain ⟨hname, htext⟩ := Bool.and_eq_true_iff.1 hkeyword
  obtain ⟨w, hw, hkey⟩ := List.any_eq_true.1 hword
  have hlower := beq_iff_eq.1 (Bool.and_eq_true_iff.1 hkey).2
  rw [beq_iff_eq.1 htext] at hlower
  rw [← hlower] at hw
  revert hw
  decide

/-- What does not carry the statement in front of it on. -/
structure Independent (ts : Tokens) (stop : Nat) (n : Node) : Prop where
  braced : ∀ name?, n.decl ≠ .scope name? false
  calm : ∀ a ∈ n.origin.anchor?, ts.isOneOf (ts.significant a.span.start stop) continuations = false

instance (d : Decl) : Decidable (∀ name?, d ≠ .scope name? false) :=
  match d with
  | .scope name? false => isFalse fun h => h name? rfl
  | .scope _ true | .file | .imports _ | .classLike _ | .method _ | .verbatim _ => isTrue fun _ => nofun

instance (ts : Tokens) (stop : Nat) (n : Node) : Decidable (ts.Independent stop n) :=
  decidable_of_iff ((∀ name?, n.decl ≠ .scope name? false) ∧ ∀ a ∈ n.origin.anchor?,
    ts.isOneOf (ts.significant a.span.start stop) continuations = false)
    ⟨fun h => ⟨h.1, h.2⟩, fun h => ⟨h.braced, h.calm⟩⟩

/-- What was read one by one, and then numbered. -/
theorem row_of_items (h : ts.Items p stop i ns last) (hhalts : ts.Halts p last stop)
    (hbrink : ts.Brink stop) (hns : ∀ n ∈ ns, ts.Independent stop n) (k : Nat) :
    ts.Row p stop i (Node.numberList k ns).1 last := by
  induction h generalizing k with
  | nil => exact .nil
  | @cons i r ns last hs he hrest ih =>
    obtain ⟨hn, hns⟩ := List.forall_mem_cons.1 hns
    have hat : ts.EntryAt p stop i r := ⟨hs, he, hbrink⟩
    obtain ⟨body?, ho⟩ := (stands_finish hat.stands hbrink.le_size).origin
    have hcalm : ts.isOneOf (ts.significant i stop) continuations = false := by
      have hstart := hn.calm _ (congrArg Origin.anchor? ho)
      rwa [← significant_of_skip hat.le_start (Nat.le_trans hat.start_le (Nat.le_of_lt hs)) fun k hk hkl =>
        ts.plain_significant i stop k hk (Nat.lt_of_lt_of_le hkl hat.start_le)] at hstart
    have hended : ts.continues r.2 stop = false := by
      have hnext : ts.continues (ts.finish stop r).2 stop = false := by
        cases hrest with
        | nil => exact not_continues_of_halts hhalts
        | @cons _ q _ _ hs' he' _ =>
          have hat' : ts.EntryAt p stop _ q := ⟨hs', he', hbrink⟩
          obtain ⟨body?, ho'⟩ := (stands_finish hat'.stands hbrink.le_size).origin
          have hstart := (List.forall_mem_cons.1 hns).1.calm _ (congrArg Origin.anchor? ho')
          rw [← significant_of_skip hat'.le_start (Nat.le_trans hat'.start_le (Nat.le_of_lt hs'))
            fun k hk hkl => ts.plain_significant _ stop k hk (Nat.lt_of_lt_of_le hkl hat'.start_le)] at hstart
          rw [continues, hstart, Bool.and_false]
      rwa [continues, significant_finish] at hnext
    rw [Node.numberList]
    refine .cons ⟨hat, fun name? hd => hn.braced name? ((decl_finish ts stop r).trans hd), hcalm, hended,
      ⟨body?, (number_origin k _).trans ho⟩, ?_, ?_⟩ (ih hhalts hns _)
    · rw [number_origin, body_finish]
    · rw [Node.bare_number, bare_finish]

namespace Row

theorem split (h : ts.Row p stop i (ns ++ ms) last) :
    ∃ mid, ts.Row p stop i ns mid ∧ ts.Row p stop mid ms last := by
  induction ns generalizing i with
  | nil => exact ⟨i, .nil, h⟩
  | cons n ns ih =>
    cases h with
    | cons hq h =>
      obtain ⟨mid, h₁, h₂⟩ := ih h
      exact ⟨mid, .cons hq h₁, h₂⟩

theorem le (h : ts.Row p stop i ns last) : i ≤ last := by
  induction h with
  | nil => exact Nat.le_refl _
  | cons hq _ ih =>
    have hle := hq.entry.le_start
    have hlt := hq.entry.lt_finish
    omega

/-- Where a node of the row was read. -/
theorem quoted (h : ts.Row p stop i ns last) (hn : n ∈ ns) :
    ∃ mid r, i ≤ mid ∧ (ts.finish stop r).2 ≤ last ∧ ts.Quoted p stop mid n r := by
  obtain ⟨before, behind, rfl⟩ := List.append_of_mem hn
  obtain ⟨mid, hbefore, hrest⟩ := h.split
  cases hrest with
  | cons hq hbehind => exact ⟨mid, _, hbefore.le, hbehind.le, hq⟩

end Row

/-- Parts that may follow each other may stand in front of what the last of them may. -/
theorem linked_of_chain {ps : List Part} {Z : List Token} {w T : Text} (h : ps.IsChain Part.Links)
    (hlast : ∀ P, ps.getLast? = some P → P.Meets w Z T) : Part.Linked w Z T ps := by
  induction ps with
  | nil => trivial
  | cons P ps ih =>
    cases ps with
    | nil => exact hlast P rfl
    | cons Q ps =>
      obtain ⟨hlink, hrest⟩ := List.isChain_cons_cons.1 h
      exact ⟨hlink, ih hrest fun R hR => hlast R (by rwa [List.getLast?_cons_cons])⟩

namespace Row

/-- A row as parts behind the white space that it was read behind. -/
structure Quotes (ts : Tokens) (p : Place) (stop i : Nat) (ns : List Node) (last : Nat) (ps : List Part) :
    Prop where
  sound : ∀ P ∈ ps, P.Sound p
  text : ts.between i last = ps.flatMap Part.text
  bare : ps.map (·.node.bare) = ns.map Node.bare
  chain : ∀ P, P.Fronts ts stop i → (P :: ps).IsChain Part.Links
  last : ∀ P, P.Fronts ts stop i → ∀ Q, (P :: ps).getLast? = some Q → Q.Fronts ts stop last

theorem text_entryPart (h : ts.EntryAt p stop mid r) (gap : Text) : (ts.entryPart mid stop r gap).text =
    gap ++ ts.between (ts.startOf mid stop) (ts.finish stop r).2 := by
  rw [← between_append (Nat.le_of_lt h.start_lt) (ts.le_finish stop r)]
  rfl

theorem exists_quotes (h : ts.Row p stop i ns last) (hc : ts.Coded b) (hb : b ≤ i) :
    ∃ ps, Quotes ts p stop i ns last ps := by
  induction h with
  | nil =>
    refine ⟨[], List.forall_mem_nil _, by rw [between_self]; rfl, rfl, fun P _ => .singleton P, ?_⟩
    rintro P hP Q hQ
    cases hQ
    exact hP
  | @cons i n r ns last hq hrest ih =>
    have hle := hq.entry.le_start
    have hlt := hq.entry.lt_finish
    have hsize := hq.entry.brink.le_size
    have hfinish := hq.entry.finish_le
    obtain ⟨ps, hps⟩ := ih (by omega)
    have hgap := (hc.blank hb hle (loose_leading ts i stop) (show ts.startOf i stop ≤ ts.size by omega)).2
    have hfronts := hq.entry.fronts hc hb (ts.between i (ts.startOf i stop))
    refine ⟨ts.entryPart i stop r (ts.between i (ts.startOf i stop)) :: ps,
      List.forall_mem_cons.2 ⟨hq.sound hc hb hgap, hps.sound⟩, ?_, ?_, fun P hP => ?_, fun P hP Q hQ => ?_⟩
    · rw [List.flatMap_cons, ← hps.text, text_entryPart hq.entry, between_append hle (Nat.le_of_lt hlt),
        between_append (by omega) hrest.le]
    · rw [List.map_cons, List.map_cons, hps.bare, hq.bare]
      rfl
    · exact List.isChain_cons_cons.2 ⟨hP.links hc hb hq.entry, hps.chain _ hfronts⟩
    · rw [List.getLast?_cons_cons] at hQ
      exact hps.last _ hfronts Q hQ

end Row

end Tokens
end PhpGraft
