import PhpGraft.Proofs.Indentation
import PhpGraft.Proofs.Splice

/-!
Texts whose line breaks are all CR LF, and how generated code comes to be one: its lines have no
break inside of them, whatever the text it is made from breaks its lines with.
-/
namespace PhpGraft

namespace Text

variable {c : Char} {s t u : Text}

/-- CR and LF stand only as pairs. -/
def isCrlf : Text → Bool
  | [] => true
  | '\r' :: '\n' :: t => isCrlf t
  | c :: t => c != '\r' && c != '\n' && isCrlf t

/-- CR stands only directly in front of LF. -/
def isPaired : Text → Bool
  | [] => true
  | '\r' :: '\n' :: t => isPaired t
  | c :: t => c != '\r' && isPaired t

/-- Neither CR nor LF. -/
def Unbroken (t : Text) : Prop := ∀ c ∈ t, c ≠ '\r' ∧ c ≠ '\n'

theorem isCrlf_cons (hc : c ≠ '\r') : isCrlf (c :: t) = (c != '\n' && isCrlf t) := by
  refine (isCrlf.eq_3 c t fun _ h _ => hc h).trans ?_
  rw [bne_iff_ne.2 hc, Bool.true_and]

theorem isCrlf_cr : isCrlf ('\r' :: t) = true ↔ ∃ r, t = '\n' :: r ∧ isCrlf r = true := by
  constructor
  · intro h
    cases t with
    | nil => exact absurd h (by decide)
    | cons d r =>
      by_cases hd : d = '\n'
      · subst hd
        exact ⟨r, rfl, h⟩
      · rw [isCrlf.eq_3 _ _ fun _ _ he => hd (List.cons.inj he).1] at h
        exact absurd h (by simp)
  · rintro ⟨r, rfl, h⟩
    exact h

theorem isPaired_cons (hc : c ≠ '\r') : isPaired (c :: t) = isPaired t := by
  refine (isPaired.eq_3 c t fun _ h _ => hc h).trans ?_
  rw [bne_iff_ne.2 hc, Bool.true_and]

theorem isPaired_cr : isPaired ('\r' :: t) = true ↔ ∃ r, t = '\n' :: r ∧ isPaired r = true := by
  constructor
  · intro h
    cases t with
    | nil => exact absurd h (by decide)
    | cons d r =>
      by_cases hd : d = '\n'
      · subst hd
        exact ⟨r, rfl, h⟩
      · rw [isPaired.eq_3 _ _ fun _ _ he => hd (List.cons.inj he).1] at h
        exact absurd h (by simp)
  · rintro ⟨r, rfl, h⟩
    exact h

theorem isCrlf_append (hs : isCrlf s = true) (ht : isCrlf t = true) : isCrlf (s ++ t) = true := by
  fun_induction isCrlf s with
  | case1 => exact ht
  | case2 s ih => exact isCrlf_cr.2 ⟨s ++ t, rfl, ih hs⟩
  | case3 c s hne ih =>
    simp only [Bool.and_eq_true, bne_iff_ne, ne_eq] at hs
    rw [List.cons_append, isCrlf_cons hs.1.1, ih hs.2]
    simpa using hs.1.2

theorem Unbroken.isCrlf (h : Unbroken t) : isCrlf t = true := by
  induction t with
  | nil => rfl
  | cons c t ih =>
    obtain ⟨hc, ht⟩ := List.forall_mem_cons.1 h
    rw [isCrlf_cons hc.1, ih ht]
    simpa using hc.2

theorem unbroken_of_all (h : t.all (fun c => c != '\r' && c != '\n') = true) : Unbroken t := by
  intro c hc
  simpa using List.all_eq_true.1 h c hc

theorem isCrlf_flatten {ts : List Text} (h : ∀ t ∈ ts, isCrlf t = true) :
    isCrlf ts.flatten = true := by
  induction ts with
  | nil => rfl
  | cons t ts ih =>
    obtain ⟨ht, hts⟩ := List.forall_mem_cons.1 h
    exact isCrlf_append ht (ih hts)

/-- Cut where no CR stands in front, both parts keep their pairs. -/
theorem isCrlf_of_append (h : isCrlf (s ++ t) = true) (hs : s.getLast? ≠ some '\r') :
    isCrlf s = true ∧ isCrlf t = true := by
  fun_induction isCrlf s with
  | case1 => exact ⟨rfl, h⟩
  | case2 s ih =>
    obtain ⟨r, hr, h⟩ := isCrlf_cr.1 h
    cases hr
    refine ih h fun hlast => hs ?_
    rw [List.getLast?_cons, List.getLast?_cons, hlast]
    rfl
  | case3 c s hne ih =>
    have hc : c ≠ '\r' := by
      rintro rfl
      obtain ⟨r, hr, -⟩ := isCrlf_cr.1 h
      cases s with
      | nil => exact hs rfl
      | cons d s =>
        cases hr
        exact hne s rfl rfl
    rw [List.cons_append, isCrlf_cons hc, Bool.and_eq_true] at h
    obtain ⟨hn, h⟩ := h
    have hrest := ih h fun hlast => hs (by rw [List.getLast?_cons, hlast]; rfl)
    refine ⟨?_, hrest.2⟩
    rw [hrest.1, Bool.and_true, hn, Bool.and_true]
    simpa using hc

theorem isPaired_of_append (h : isPaired (s ++ t) = true) (hs : s.getLast? ≠ some '\r') :
    isPaired s = true ∧ isPaired t = true := by
  fun_induction isPaired s with
  | case1 => exact ⟨rfl, h⟩
  | case2 s ih =>
    obtain ⟨r, hr, h⟩ := isPaired_cr.1 h
    cases hr
    refine ih h fun hlast => hs ?_
    rw [List.getLast?_cons, List.getLast?_cons, hlast]
    rfl
  | case3 c s hne ih =>
    have hc : c ≠ '\r' := by
      rintro rfl
      obtain ⟨r, hr, -⟩ := isPaired_cr.1 h
      cases s with
      | nil => exact hs rfl
      | cons d s =>
        cases hr
        exact hne s rfl rfl
    rw [List.cons_append, isPaired_cons hc] at h
    have hrest := ih h fun hlast => hs (by rw [List.getLast?_cons, hlast]; rfl)
    refine ⟨?_, hrest.2⟩
    rw [hrest.1, Bool.and_true]
    simpa using hc

/-- No LF, and no CR but for one at the end. -/
def IsLine (t : Text) : Prop := '\n' ∉ t ∧ ∃ l, (t = l ∨ t = l ++ ['\r']) ∧ '\r' ∉ l

theorem IsLine.cons (h : IsLine t) (hc : c ≠ '\r') (hn : '\n' ∉ c :: t) : IsLine (c :: t) := by
  obtain ⟨-, l, hl, hcr⟩ := h
  refine ⟨hn, c :: l, ?_, by simp [hcr, Ne.symm hc]⟩
  rcases hl with rfl | rfl
  · exact .inl rfl
  · exact .inr rfl

theorem IsLine.of_suffix (h : IsLine t) (hs : s <:+ t) : IsLine s := by
  obtain ⟨hn, l, hl, hcr⟩ := h
  refine ⟨fun hmem => hn (hs.subset hmem), ?_⟩
  rcases hl with rfl | rfl
  · exact ⟨s, .inl rfl, fun hmem => hcr (hs.subset hmem)⟩
  · rcases List.suffix_concat_iff.1 hs with rfl | ⟨r, rfl, hr⟩
    · exact ⟨[], .inl rfl, by simp⟩
    · exact ⟨r, .inr rfl, fun hmem => hcr (hr.subset hmem)⟩

/-- In front of a line break stands a line. -/
theorem isPaired_line (h : isPaired (s ++ '\n' :: t) = true) (hs : '\n' ∉ s) :
    IsLine s ∧ isPaired t = true := by
  induction s with
  | nil =>
    rw [List.nil_append, isPaired_cons (by decide)] at h
    exact ⟨⟨hs, [], .inl rfl, by simp⟩, h⟩
  | cons c s ih =>
    obtain ⟨-, hs'⟩ : '\n' ≠ c ∧ '\n' ∉ s := by simpa using hs
    by_cases hc : c = '\r'
    · subst hc
      obtain ⟨r, hr, h⟩ := isPaired_cr.1 h
      cases s with
      | nil =>
        cases hr
        exact ⟨⟨hs, [], .inr rfl, by simp⟩, h⟩
      | cons d s =>
        cases hr
        simp at hs'
    · rw [List.cons_append, isPaired_cons hc] at h
      obtain ⟨hline, ht⟩ := ih h hs'
      exact ⟨hline.cons hc (by simpa using hs), ht⟩

/-- The last line holds none. -/
theorem not_mem_of_isPaired (h : isPaired s = true) (hs : '\n' ∉ s) : '\r' ∉ s := by
  induction s with
  | nil => simp
  | cons c s ih =>
    obtain ⟨hn, hs⟩ : '\n' ≠ c ∧ '\n' ∉ s := by simpa using hs
    by_cases hc : c = '\r'
    · subst hc
      obtain ⟨r, rfl, -⟩ := isPaired_cr.1 h
      simp at hs
    · rw [isPaired_cons hc] at h
      simp [ih h hs, Ne.symm hc]

/-! Trimming. -/

theorem Unbroken.of_subset (h : Unbroken t) (hs : ∀ c ∈ s, c ∈ t) : Unbroken s :=
  fun c hc => h c (hs c hc)

/-- A line loses the CR that it ends in with the white space at its end. -/
theorem IsLine.unbroken (h : IsLine t) : Unbroken (trimEnd t) := by
  obtain ⟨hn, l, hl, hcr⟩ := h
  have hsub : ∀ c ∈ trimEnd t, c ∈ l := by
    rcases hl with rfl | rfl
    · exact fun c hc => mem_of_mem_trimEnd hc
    · intro c hc
      rw [trimEnd, List.reverse_append, List.reverse_singleton, List.singleton_append,
        List.dropWhile_cons_of_pos (by decide)] at hc
      exact mem_of_mem_trimEnd hc
  intro c hc
  refine ⟨?_, ?_⟩
  · rintro rfl
    exact hcr (hsub _ hc)
  · rintro rfl
    exact hn (mem_of_mem_trimEnd hc)

theorem isPaired_of_suffix (h : isPaired t = true) (hs : s <:+ t) : isPaired s = true := by
  obtain ⟨p, rfl⟩ := hs
  induction p with
  | nil => exact h
  | cons c p ih =>
    refine ih ?_
    by_cases hc : c = '\r'
    · subst hc
      obtain ⟨r, hr, h⟩ := isPaired_cr.1 h
      change p ++ s = _ at hr
      rwa [hr, isPaired_cons (by decide)]
    · rwa [List.cons_append, isPaired_cons hc] at h

/-- A part of a text, without the white space around it. -/
theorem isPaired_trim (h : isPaired (t ++ u) = true) : isPaired (trim t) = true := by
  obtain ⟨p, hp⟩ := isSuffix_trimStart t
  obtain ⟨w, hw, -⟩ := trimEnd_append_white (trimStart t)
  have hsuffix : isPaired (trim t ++ (w ++ u)) = true := by
    have hjoin : trim t ++ w = trimStart t := hw.symm
    refine isPaired_of_suffix h ⟨p, ?_⟩
    rw [← List.append_assoc (trim t), hjoin, ← List.append_assoc, hp]
  refine (isPaired_of_append hsuffix fun hlast => ?_).1
  exact absurd (getLast_trimEnd hlast) (by decide)

theorem unbroken_of_isPaired (h : isPaired t = true) (hn : '\n' ∉ t) : Unbroken t := by
  intro c hc
  refine ⟨?_, ?_⟩
  · rintro rfl
    exact not_mem_of_isPaired h hn hc
  · rintro rfl
    exact hn hc

theorem mem_dropBytes? {n : Nat} (h : dropBytes? n t = some s) (hc : c ∈ s) : c ∈ t := by
  fun_induction dropBytes? n t with
  | case1 => 
    cases h
    exact hc
  | case2 => cases h
  | case3 _ _ _ _ ih => exact List.mem_cons_of_mem _ (ih h)
  | case4 => cases h

end Text

open Text

/-! Generated lines. -/

namespace Line

variable {st : Bool} {q : List (Char × Bool)} {ls : List Line}

/-- The end of a line trimmed, no break is left in it. -/
theorem Lines.unbroken (h : Lines st q ls) (hp : isPaired (q.map Prod.fst) = true) :
    ∀ l ∈ ls, Unbroken l.text.trimEnd := by
  have hline : ∀ {a : List (Char × Bool)}, (∀ p ∈ a, p.1 ≠ '\n') → '\n' ∉ a.map Prod.fst := by
    intro a ha hn
    obtain ⟨p, hp, he⟩ := List.mem_map.1 hn
    exact ha p hp he
  induction h with
  | last ha =>
    refine List.forall_mem_cons.2 ⟨?_, nofun⟩
    exact (unbroken_of_isPaired hp (hline ha)).of_subset fun c hc => mem_of_mem_trimEnd hc
  | more ha _ ih =>
    rw [List.map_append, List.map_cons] at hp
    obtain ⟨hl, hrest⟩ := isPaired_line hp (hline ha)
    exact List.forall_mem_cons.2 ⟨hl.unbroken, ih hrest⟩

theorem Lines.nonempty (h : Lines st q ls) : ls ≠ [] := by
  cases h <;> exact List.cons_ne_nil _ _

theorem Lines.ends (h : Lines st q ls) (hs : ∀ l ∈ ls, l.starts = false) :
    ∀ l ∈ ls, l.ends = false := by
  induction h with
  | last => simp
  | more _ h ih =>
    obtain ⟨-, hs⟩ := List.forall_mem_cons.1 hs
    refine List.forall_mem_cons.2 ⟨?_, ih hs⟩
    cases h with
    | last => exact hs _ List.mem_cons_self
    | more => exact hs _ List.mem_cons_self

/-- No line of the code starts inside a quoted string. -/
def Unquoted (code : Text) : Prop := ∀ l ∈ ofCode code, l.starts = false

end Line

variable {indent : Text}

/-- Code without breaks in its strings, moved to another place in a file with CR LF. -/
theorem isCrlf_reindent {code : Text} (hp : isPaired code = true) (hq : Line.Unquoted code.trim)
    (hi : Unbroken indent) : isCrlf (reindent code indent LineEnding.crlf.text) = true := by
  have hlines : Line.Lines false _ (Line.ofCode code.trim) := Line.lines_split ..
  have hunbroken := hlines.unbroken (by
    rw [Line.quotedChars_fst]
    exact isPaired_trim (u := []) (by rwa [List.append_nil]))
  have hends := hlines.ends hq
  have htrimmed : ∀ l ∈ Line.ofCode code.trim, Unbroken l.trimmed := by
    intro l hl
    rw [Line.trimmed, hends l hl]
    exact hunbroken l hl
  cases hls : Line.ofCode code.trim with
  | nil => exact absurd hls hlines.nonempty
  | cons l ls =>
    rw [hls] at htrimmed
    obtain ⟨hl, hls'⟩ := List.forall_mem_cons.1 htrimmed
    rw [Line.reindent_eq _ _ hls]
    refine isCrlf_append (hl.of_subset fun c hc => mem_of_mem_trimStart hc).isCrlf
      (isCrlf_flatten ?_)
    intro t ht
    obtain ⟨m, hm, rfl⟩ := List.mem_map.1 ht
    have hstarts := hq m (by rw [hls]; exact List.mem_cons_of_mem _ hm)
    rw [Line.moved, hstarts, if_neg Bool.false_ne_true]
    split
    · decide
    · refine isCrlf_append (isCrlf_append (by decide) hi.isCrlf) ?_
      refine ((hls' m hm).of_subset fun c hc => ?_).isCrlf
      cases hd : m.trimmed.dropBytes? (Line.commonIndent ls) with
      | none =>
        rw [hd] at hc
        exact mem_of_mem_trimStart hc
      | some r =>
        rw [hd] at hc
        exact mem_dropBytes? hd hc

theorem isLine_of_mem_splitOn {t l : Text} (h : isPaired t = true) (hl : l ∈ Text.splitOn '\n' t) :
    IsLine l := by
  induction t generalizing l with
  | nil =>
    obtain rfl : l = [] := by simpa [splitOn] using hl
    exact ⟨by simp, [], .inl rfl, by simp⟩
  | cons c t ih =>
    simp only [splitOn] at hl
    split at hl
    · rename_i hn
      subst hn
      rw [isPaired_cons (by decide)] at h
      rcases List.mem_cons.1 hl with rfl | hl
      · exact ⟨by simp, [], .inl rfl, by simp⟩
      · exact ih h hl
    · rename_i hn
      by_cases hc : c = '\r'
      · subst hc
        obtain ⟨r, rfl, hr⟩ := isPaired_cr.1 h
        simp only [splitOn, if_true] at hl
        rcases List.mem_cons.1 hl with rfl | hl
        · exact ⟨by decide, [], .inr rfl, by simp⟩
        · exact ih (by rwa [isPaired_cons (by decide)]) (by simp [splitOn, hl])
      · rw [isPaired_cons hc] at h
        cases hw : Text.splitOn '\n' t with
        | nil => exact absurd hw (splitOn_ne_nil _ _)
        | cons w ws =>
          rw [hw] at hl
          rcases List.mem_cons.1 hl with rfl | hl
          · have := ih h (by rw [hw]; exact List.mem_cons_self)
            exact this.cons hc (by simp [this.1, Ne.symm hn])
          · exact ih h (by rw [hw]; exact List.mem_cons_of_mem _ hl)

theorem isCrlf_reindentComment {comment : Text} (hp : isPaired comment = true)
    (hi : Unbroken indent) :
    isCrlf (reindentComment comment indent LineEnding.crlf.text) = true := by
  have hlines : ∀ l ∈ (comment.trim.splitOn '\n').map trim, Unbroken l := by
    intro l hl
    obtain ⟨m, hm, rfl⟩ := List.mem_map.1 hl
    have hline := isLine_of_mem_splitOn (isPaired_trim (u := []) (by rwa [List.append_nil])) hm
    exact (hline.of_suffix (isSuffix_trimStart m)).unbroken
  unfold reindentComment
  cases hls : (Text.splitOn '\n' comment.trim).map trim with
  | nil => rfl
  | cons l ls =>
    rw [hls] at hlines
    obtain ⟨hl, hls'⟩ := List.forall_mem_cons.1 hlines
    refine isCrlf_append hl.isCrlf (isCrlf_flatten ?_)
    intro t ht
    obtain ⟨m, hm, rfl⟩ := List.mem_map.1 ht
    refine isCrlf_append (isCrlf_append (isCrlf_append (by decide) hi.isCrlf) ?_) (hls' m hm).isCrlf
    split <;> decide

/-! Generated declarations. -/

theorem Text.Unbroken.append {s t : Text} (hs : Unbroken s) (ht : Unbroken t) : Unbroken (s ++ t) :=
  fun c hc => (List.mem_append.1 hc).elim (hs c) (ht c)

theorem unbroken_indentation {style : Style} (h : Unbroken style.indent) (level : Nat) :
    Unbroken (style.indentation level) := by
  intro c hc
  obtain ⟨t, ht, hc⟩ := List.mem_flatten.1 hc
  obtain ⟨-, rfl⟩ := List.mem_replicate.1 ht
  exact h c hc

theorem unbroken_of_isNameChar {t : Text} (h : ∀ c ∈ t, isNameChar c = true ∨ c = '\\') :
    Unbroken t := by
  intro c hc
  refine ⟨?_, ?_⟩
  · rintro rfl
    rcases h _ hc with h | h <;> exact absurd h (by decide)
  · rintro rfl
    rcases h _ hc with h | h <;> exact absurd h (by decide)

theorem mem_splitOn (sep : Char) {c : Char} {t : Text} (hc : c ∈ t) :
    c = sep ∨ ∃ w ∈ Text.splitOn sep t, c ∈ w := by
  induction t with
  | nil => cases hc
  | cons d t ih =>
    simp only [splitOn]
    split
    · rename_i hd
      rcases List.mem_cons.1 hc with rfl | hc
      · exact .inl hd
      · exact (ih hc).imp_right (Exists.imp fun _ => And.imp_left (List.mem_cons_of_mem _))
    · cases hs : Text.splitOn sep t with
      | nil => exact absurd hs (splitOn_ne_nil _ _)
      | cons v vs =>
        rcases List.mem_cons.1 hc with rfl | hc
        · exact .inr ⟨_, List.mem_cons_self, List.mem_cons_self⟩
        · refine (ih hc).imp_right fun hin => ?_
          obtain ⟨w, hw, hcw⟩ := hin
          rw [hs] at hw
          rcases List.mem_cons.1 hw with rfl | hw
          · exact ⟨_, List.mem_cons_self, List.mem_cons_of_mem _ hcw⟩
          · exact ⟨w, List.mem_cons_of_mem _ hw, hcw⟩

theorem isNameChar_of_isIdentifier {c : Char} {t : Text} (h : Name.isIdentifier t = true)
    (hc : c ∈ t) : isNameChar c = true := by
  cases t with
  | nil => cases hc
  | cons d t =>
    obtain ⟨hd, ht⟩ := Bool.and_eq_true_iff.1 h
    rcases List.mem_cons.1 hc with rfl | hc
    · rw [isNameChar, hd, Bool.true_or]
    · exact List.all_eq_true.1 ht c hc

theorem isNameChar_of_isQualified {c : Char} {t : Text} (h : Name.isQualified t = true)
    (hc : c ∈ t) : isNameChar c = true ∨ c = '\\' := by
  have hroot : c ∈ Name.withoutRoot t ∨ c = '\\' := by
    unfold Name.withoutRoot dropPrefix?
    split
    · rename_i hp
      obtain ⟨r, rfl⟩ := List.isPrefixOf_iff_prefix.1 hp
      exact (List.mem_cons.1 hc).symm
    · exact .inl hc
  refine hroot.elim (fun hc => ?_) .inr
  rcases mem_splitOn '\\' hc with rfl | ⟨w, hw, hcw⟩
  · exact .inr rfl
  · exact .inl (isNameChar_of_isIdentifier (List.all_eq_true.1 h w hw) hcw)

theorem unbroken_import {name : Text} (h : Name.isQualified name = true) :
    Unbroken (Import.ofClass name).print := by
  have hname := unbroken_of_isNameChar fun c hc => isNameChar_of_isQualified h hc
  have huse : Unbroken "use " := unbroken_of_all rfl
  have hend : Unbroken ";" := unbroken_of_all rfl
  rw [Import.print_ofClass]
  exact (huse.append hname).append hend

/-- The statements of a fragment are parts of it. -/
theorem isPaired_statements {ts : Tokens} {i stop : Nat} {sts : List Text}
    (h : ts.statements i stop = .ok sts) (hp : isPaired ts.source = true) :
    ∀ t ∈ sts, isPaired t = true := by
  have hbetween : ∀ a b, isPaired (ts.between a b).trim = true := by
    intro a b
    rw [Tokens.between_eq]
    refine isPaired_trim (u := Token.spell ((ts.toList.drop a).drop (b - a))) ?_
    refine isPaired_of_suffix hp ⟨Token.spell (ts.toList.take a), ?_⟩
    rw [Tokens.source, Token.spell, Token.spell, Token.spell, Token.spell, ← List.flatMap_append,
      List.take_append_drop, ← List.flatMap_append, List.take_append_drop]
  fun_induction Tokens.statements ts i stop generalizing sts with
  | case1 => cases h
  | case2 => cases h
  | case3 => cases h
  | case4 => 
    rename_i hrest ih
    cases h
    exact List.forall_mem_cons.2 ⟨hbetween _ _, ih hrest⟩
  | case5 => 
    cases h
    split
    · exact List.forall_mem_nil _
    · exact List.forall_mem_cons.2 ⟨hbetween _ _, List.forall_mem_nil _⟩

theorem isPaired_parseFragment {code : Text} {sts : List Text} (h : parseFragment code = .ok sts)
    (hp : isPaired code = true) : ∀ t ∈ sts, isPaired t = true := by
  have hsuffix : ∀ {t : Text}, t <:+ code → ∀ {ts : List Token}, lexCode t = .ok ts →
      isPaired (Tokens.source ts.toArray) = true := by
    intro t ht ts hts
    have hread := Lexer.reads_of_run (show Lexer.run .code .start t = .ok ts from hts)
    rw [Tokens.source, List.toList_toArray, hread.spell]
    exact isPaired_of_suffix hp ht
  unfold parseFragment at h
  dsimp only at h
  split at h
  · cases h
  rename_i ts hts
  refine isPaired_statements h (hsuffix ?_ hts)
  split
  · exact (List.drop_suffix _ _).trans (isSuffix_trimStart code)
  · exact List.suffix_refl code

/-- A method whose parts break their lines with LF or CR LF, and not inside of strings. -/
structure NewMethod.Paired (m : NewMethod) : Prop where
  body : isPaired m.body = true
  doc : isPaired m.doc.render = true
  unquoted : ∀ sts, parseFragment m.body = .ok sts → ∀ t ∈ sts, Line.Unquoted t.trim

theorem unquoted_of_all {body : Text}
    (h : (parseFragment body).toOption.all (fun sts => sts.all fun t =>
      (Line.ofCode t.trim).all (!·.starts)) = true) :
    ∀ sts, parseFragment body = .ok sts → ∀ t ∈ sts, Line.Unquoted t.trim := by
  intro sts hsts t ht l hl
  rw [hsts] at h
  simpa using List.all_eq_true.1 (List.all_eq_true.1 h t ht) l hl

theorem isCrlf_method {style : Style} {m : NewMethod} {d : Method} (hd : m.method? = .ok d)
    (hname : Name.isIdentifier m.name = true) (hm : m.Paired) (hs : style.lineEnding = .crlf)
    (hi : Unbroken style.indent) (level : Nat) : isCrlf (d.print style level) = true := by
  unfold NewMethod.method? at hd
  split at hd
  · cases hd
  rename_i sts hsts
  cases hd
  have hindent := fun level => (unbroken_indentation hi level)
  have hnewline : style.newline = LineEnding.crlf.text := congrArg LineEnding.text hs
  have hwords : isCrlf (Text.join " " [m.visibility.word, "function"] ++ " ") = true := by
    cases m.visibility <;> decide
  have hmname : isCrlf m.name = true :=
    (unbroken_of_isNameChar fun c hc => .inl (isNameChar_of_isIdentifier hname hc)).isCrlf
  have hsignature := isCrlf_append (isCrlf_append hwords hmname) (show isCrlf "()" = true by decide)
  have hstatements : isCrlf (sts.flatMap fun t => LineEnding.crlf.text ++
      style.indentation (level + 1) ++
        reindent t (style.indentation (level + 1)) LineEnding.crlf.text) = true := by
    refine isCrlf_flatten fun line hline => ?_
    obtain ⟨t, ht, rfl⟩ := List.mem_map.1 hline
    have hpaired := isPaired_parseFragment hsts hm.body t ht
    exact isCrlf_append (isCrlf_append (by decide) (hindent _).isCrlf)
      (isCrlf_reindent hpaired (hm.unquoted sts hsts t ht) (hindent _))
  have hopen := isCrlf_append (isCrlf_append (show isCrlf LineEnding.crlf.text = true by decide)
    (hindent level).isCrlf) (show isCrlf "\x7b" = true by decide)
  have hclose := isCrlf_append (isCrlf_append (show isCrlf LineEnding.crlf.text = true by decide)
    (hindent level).isCrlf) (show isCrlf "\x7d" = true by decide)
  have hdoc := isCrlf_append (isCrlf_append (isCrlf_reindentComment hm.doc (hindent level))
    (show isCrlf LineEnding.crlf.text = true by decide)) (hindent level).isCrlf
  have := isCrlf_append (isCrlf_append (isCrlf_append (isCrlf_append hdoc hsignature) hopen)
    hstatements) hclose
  simpa [Method.print, Method.signature, hnewline] using this

end PhpGraft
