import PhpGraft.Proofs.LineBreaks
import PhpGraft.Proofs.Operations
import PhpGraft.Proofs.Steps

/-!
Files with CR LF. A token ends between the two characters of a line break only if it is a line
comment; where no declaration ends so, edited files keep their line breaks.
-/
namespace PhpGraft

open Text

namespace Text

variable {s t : Text}

theorem isPaired_of_isCrlf (h : isCrlf t = true) : isPaired t = true := by
  fun_induction isCrlf t with
  | case1 => rfl
  | case2 t ih => exact isPaired_cr.2 ⟨t, rfl, ih h⟩
  | case3 c t hne ih =>
    simp only [Bool.and_eq_true, bne_iff_ne, ne_eq] at h
    rw [isPaired_cons h.1.1]
    exact ih h.2

/-- A CR in front of more text is in front of LF. -/
theorem head?_of_isPaired (h : isPaired (s ++ t) = true) (hs : s.getLast? = some '\r') :
    t.head? = some '\n' := by
  obtain ⟨l, rfl⟩ := List.getLast?_eq_some_iff.1 hs
  rw [List.append_assoc] at h
  obtain ⟨r, rfl, -⟩ := isPaired_cr.1 (isPaired_of_suffix h ⟨l, rfl⟩)
  rfl

end Text

namespace Lexer

variable {c : Char} {t u : Text} {k : TokenKind} {n : Nat}

theorem not_mem_take_numberSize (t : Text) : '\r' ∉ t.take (numberSize t) := by
  induction t with
  | nil => simp
  | cons c t ih =>
    unfold numberSize
    split
    · rename_i hc
      rw [List.take_succ_cons, List.mem_cons, not_or]
      refine ⟨?_, ih⟩
      rintro rfl
      simp at hc
    · simp

theorem not_mem_take_nameSize (t : Text) : '\r' ∉ t.take (nameSize t) := by
  induction t with
  | nil => simp
  | cons c t ih =>
    unfold nameSize
    split
    · rename_i hc
      rw [List.take_succ_cons, List.mem_cons, not_or]
      refine ⟨?_, ih⟩
      rintro rfl
      simp [isNameChar, isNameStart] at hc
    · simp

theorem getLast?_closeTag (r : Text) :
    (c :: '>' :: r.take (lineBreakSize r)).getLast? ≠ some '\r' := by
  unfold lineBreakSize
  split <;> simp

/-- In code only a line comment ends in front of the LF of a line break. -/
theorem Rule.cr (h : Rule c (u ++ t) k u.length) (hk : k ≠ .lineComment)
    (hlast : (c :: u).getLast? = some '\r') : t.head? ≠ some '\n' := by
  have hmem : '\r' ∈ c :: u := List.mem_of_getLast? hlast
  have hstring := h.string_bounds
  generalize hn : u.length = n at h
  have htake : (u ++ t).take n = u := by rw [← hn, List.take_left]
  cases h with
  | closeTag h =>
    obtain ⟨r, hr⟩ := List.isPrefixOf_iff_prefix.1 h.2
    rw [← hr, List.singleton_append, List.drop_succ_cons, List.drop_zero, Nat.add_comm,
      List.take_succ_cons] at htake
    rw [← htake] at hlast
    exact absurd hlast (getLast?_closeTag r)
  | whitespace =>
    have hspaces : (u ++ t).takeWhile isSpace = u :=
      (List.prefix_iff_eq_take.1 (List.takeWhile_prefix _)).trans htake
    have hhead := any_head_takeWhile (p := isSpace) (r := t) (t := u ++ t) (by rw [hspaces])
    rintro hnl
    rw [hnl] at hhead
    exact absurd hhead (by decide)
  | comment h hc =>
    obtain ⟨r, hr⟩ := List.isPrefixOf_iff_prefix.1 h.2
    have hend := getLast?_commentSize? hc
    rw [← hr, List.singleton_append, List.drop_succ_cons, List.drop_zero] at hend
    rw [← hr, List.singleton_append, Nat.add_comm, List.take_succ_cons] at htake
    rw [← htake, List.getLast?_cons, List.getLast?_cons, hend] at hlast
    cases hlast
  | lineComment => exact absurd rfl hk
  | var h =>
    have hname : (u ++ t).takeWhile isNameChar = u :=
      (List.prefix_iff_eq_take.1 (List.takeWhile_prefix _)).trans htake
    rcases List.mem_cons.1 hmem with rfl | hmem
    · exact absurd h.1 (by decide)
    · rw [← hname] at hmem
      exact absurd (List.all_eq_true.1 List.all_takeWhile _ hmem) (by decide)
  | @heredoc m h hs =>
    obtain ⟨r, hr⟩ := List.isPrefixOf_iff_prefix.1 h.2
    rw [← hr] at htake hs
    rw [Nat.add_comm] at htake
    change heredocSize r = .ok _ at hs
    change '<' :: '<' :: r.take _ = u at htake
    have hlen : (r.take m).length = m := by
      rw [List.length_take]
      exact Nat.min_eq_left (heredocSize_le hs)
    obtain ⟨⟨d, hd, hname⟩, -⟩ := heredocSize_last (u := r.take m) (r := r.drop m)
      (by rw [List.take_append_drop, hlen]; exact hs)
    rw [← htake, List.getLast?_cons, List.getLast?_cons, List.getLast?_cons, hd] at hlast
    cases hlast
    exact absurd hname (by decide)
  | string =>
    obtain ⟨hwhite, hc⟩ := hstring rfl
    obtain rfl : c = '\r' := Option.some.inj (hc.symm.trans hlast)
    exact absurd hwhite (by decide)
  | number h =>
    have := not_mem_take_numberSize (u ++ t)
    rw [htake] at this
    rcases List.mem_cons.1 hmem with rfl | hmem
    · exact absurd h (by decide)
    · exact absurd hmem this
  | name h =>
    have := not_mem_take_nameSize (u ++ t)
    rw [htake] at this
    rcases List.mem_cons.1 hmem with rfl | hmem
    · rcases h with h | h
      · exact absurd h (by decide)
      · exact absurd h.1 (by decide)
    · exact absurd hmem this
  | punct _ hspace =>
    obtain rfl : u = [] := List.length_eq_zero_iff.1 hn
    cases hlast
    exact absurd hspace (by decide)

theorem not_mem_of_lower {w : Text} (h : Text.lower w = "?php") : '\r' ∉ w := by
  intro hmem
  have : Char.toLower '\r' ∈ Text.lower w := List.mem_map_of_mem hmem
  rw [h] at this
  exact absurd this (by decide)

theorem take_of_drop {w s : Text} {m : Nat} (h : w.drop m = s) (n : Nat) :
    w.take (m + n) = w.take m ++ s.take n := by
  rw [← h, List.take_add]

theorem openTag?_cr {c : Char} (h : openTag? c (u ++ t) = some u.length)
    (hlast : (c :: u).getLast? = some '\r') : t.head? ≠ some '\n' := by
  have hmem : '\r' ∈ c :: u := List.mem_of_getLast? hlast
  generalize hw : u ++ t = w at h
  have hu : w.take u.length = u := by rw [← hw, List.take_left]
  generalize hn : u.length = n at h hu
  unfold openTag? at h
  split at h
  · cases h
    rw [← hu] at hmem
    simp at hmem
  · split at h
    · rename_i hphp
      have hfour := not_mem_of_lower hphp
      split at h
      · cases h
        rw [← hu] at hmem
        rcases List.mem_cons.1 hmem with he | hmem
        · cases he
        · exact absurd hmem hfour
      · rename_i r hd
        cases h
        rw [← hu, take_of_drop hd 2, ← List.cons_append, List.getLast?_append] at hlast
        cases hlast
      · rename_i d r hne hd
        split at h
        · cases h
          have hu : w.take 4 ++ [d] = u := (take_of_drop hd 1).symm.trans hu
          have ht : t = r := by
            have hsplit := List.take_append_drop 4 w
            rw [hd, ← List.singleton_append, ← List.append_assoc, hu, ← hw] at hsplit
            exact (List.append_cancel_left hsplit).symm
          rw [← hu, ← List.cons_append, List.getLast?_append] at hlast
          cases hlast
          subst ht
          cases t with
          | nil => nofun
          | cons f t =>
            rintro ⟨⟩
            exact hne t rfl rfl
        · cases h
    · cases h
  · cases h

/-- In front of text outside of code, or behind it, stands no LF. -/
theorem htmlSize_head (h : htmlSize (u ++ t) = u.length) : t.head? ≠ some '\n' := by
  induction u with
  | nil =>
    cases t with
    | nil => nofun
    | cons c t =>
      rw [List.nil_append, htmlSize] at h
      split at h
      · rename_i hc
        rintro ⟨⟩
        exact absurd hc (by simp [openTag?])
      · cases h
  | cons c u ih =>
    rw [List.cons_append, htmlSize] at h
    split at h
    · cases h
    · exact ih (Nat.succ.inj h)

theorem scan_cr {m : Mode} (h : scan m c (u ++ t) = .ok (k, u.length)) (hk : k ≠ .lineComment)
    (hlast : (c :: u).getLast? = some '\r') : t.head? ≠ some '\n' := by
  cases m with
  | code => exact (rule_of_scanCode h).cr hk hlast
  | html =>
    simp only [scan, scanHtml, Except.ok.injEq] at h
    split at h
    · obtain ⟨-, hn⟩ := Prod.mk.inj h
      exact openTag?_cr (hn ▸ ‹_›) hlast
    · exact htmlSize_head (Prod.mk.inj h).2

end Lexer

namespace Tokens

variable {ts : Tokens} {text : Text} {i j k last : Nat} {ns : List Node}

/-- The text in front of token `i` does not end in the CR of a line break. -/
def Unsplit (ts : Tokens) (i : Nat) : Prop := (ts.between 0 i).getLast? ≠ some '\r'

theorem Unsplit.append (h : ts.Unsplit i) (hij : i ≤ j)
    (hlast : (ts.between i j).getLast? ≠ some '\r') : ts.Unsplit j := by
  rw [Unsplit, ← between_append (Nat.zero_le i) hij, List.getLast?_append]
  cases hl : (ts.between i j).getLast? with
  | none => exact h
  | some c => rwa [hl] at hlast

theorem source_split (ts : Tokens) (i : Nat) :
    ts.between 0 i ++ Token.spell (ts.toList.drop i) = ts.source := by
  rw [between_eq, List.drop_zero, Nat.sub_zero, Token.spell, Token.spell, ← List.flatMap_append,
    List.take_append_drop]
  rfl

theorem isCrlf_between (h : isCrlf ts.source = true) (hi : ts.Unsplit i) (hj : ts.Unsplit j)
    (hij : i ≤ j) : isCrlf (ts.between i j) = true := by
  rw [← ts.source_split j, ← between_append (Nat.zero_le i) hij, List.append_assoc] at h
  have hrest := (isCrlf_of_append h hi).2
  refine (isCrlf_of_append hrest fun hlast => hj ?_).1
  rw [← between_append (Nat.zero_le i) hij, List.getLast?_append, hlast]
  rfl

/-- Of all tokens only a line comment ends inside a line break. -/
theorem unsplit_succ (h : Lexer.Reads .html ts.toList text) (hp : isPaired text = true)
    (hk : k < ts.size) (hkind : ts.kind? k ≠ some .lineComment) : ts.Unsplit (k + 1) := by
  have htok : ts[k]? = some ts[k] := Array.getElem?_eq_getElem hk
  obtain ⟨m, c, u, ht, hs⟩ := h.get (show ts.toList[k]? = some ts[k] by rw [Array.getElem?_toList, htok])
  intro hlast
  have hsplit := ts.source_split (k + 1)
  rw [source, h.spell] at hsplit
  rw [← hsplit] at hp
  refine Lexer.scan_cr hs (fun he => hkind ?_) ?_ (head?_of_isPaired hp hlast)
  · rw [kind?, htok, Option.map_some, he]
  · rwa [← between_append (Nat.zero_le k) (Nat.le_succ k), between_succ htok, ht,
      List.getLast?_append, List.getLast?_cons, Option.some_or, ← List.getLast?_cons] at hlast

theorem kind?_ne_of_not_isComment (h : ts.isComment k = false) :
    ts.kind? k ≠ some .lineComment := by
  intro he
  rw [isComment, he] at h
  cases h

theorem Unsplit.loose (hi : ts.Unsplit i) (h : Lexer.Reads .html ts.toList text)
    (hp : isPaired text = true) (hl : ts.Loose i j) (hij : i ≤ j) (hj : j ≤ ts.size) :
    ts.Unsplit j := by
  rcases Nat.eq_or_lt_of_le hij with rfl | hlt
  · exact hi
  · obtain ⟨k, rfl⟩ := Nat.exists_eq_add_one.2 (Nat.zero_lt_of_lt hlt)
    exact unsplit_succ h hp hj (kind?_ne_of_not_isComment (hl k (by omega) (Nat.lt_succ_self k)).2)

theorem unsplit_of_isPunct (hp : isPaired ts.source = true) {c : Char} (h : ts.isPunct j c = true)
    (hc : c ≠ '\n') : ts.Unsplit j := by
  intro hlast
  have hlt := lt_size_of_isCode (isCode_of_isPunct h)
  have hget := isPunct_iff.1 h
  rw [Array.getElem?_eq_getElem hlt, Option.some.injEq] at hget
  have hspell : Token.spell (ts.toList.drop j) = c :: Token.spell (ts.toList.drop (j + 1)) := by
    rw [List.drop_eq_getElem_cons (by simpa using hlt), Array.getElem_toList, hget]
    rfl
  rw [← ts.source_split j, hspell] at hp
  exact hc (Option.some.inj (head?_of_isPaired hp hlast))

end Tokens

namespace Source

variable {s : Source} {text : Text} {style : Style} {c : Container} {i j last stop : Nat}
  {ns : List Node} {n : Node}

/-- No declaration of the list ends inside a line break. -/
def Ended (s : Source) (ns : List Node) : Prop :=
  ∀ n ∈ ns, ∀ a, n.origin = .anchored a → (s.tokens.slice a.span).getLast? ≠ some '\r'

/-- No line break is split where a declaration starts or ends. -/
theorem unsplit_siblings (hf : s.Faithful text) (hp : isPaired text = true)
    (h : Siblings s.tokens i ns last) (hi : s.tokens.Unsplit i) (hns : s.Ended ns)
    (hlast : last ≤ s.tokens.size) :
    (∀ n ∈ ns, ∀ a, n.origin = .anchored a →
      s.tokens.Unsplit a.span.start ∧ s.tokens.Unsplit a.span.stop) := by
  induction ns generalizing i with
  | nil => exact nofun
  | cons n ns ih =>
    obtain ⟨hn, hns⟩ := List.forall_mem_cons.1 hns
    cases h with
    | @cons _ _ a _ _ ho hle hl hplaced hs =>
      have hlt := hplaced.start_lt ho
      have hstop := hs.le
      have hstart := hi.loose hf.reads hp hl hle (by omega)
      have hend := hstart.append (Nat.le_of_lt hlt) (hn a ho)
      refine List.forall_mem_cons.2 ⟨fun b hb => ?_, ih hs hend hns⟩
      rw [ho] at hb
      cases hb
      exact ⟨hstart, hend⟩

/-- A child that can stand in a body up to `stop`. -/
structure Joins (s : Source) (style : Style) (stop : Nat) (n : Node) : Prop where
  bounds : ∀ a, n.origin.anchor? = some a →
    s.tokens.Unsplit a.span.start ∧ s.tokens.Unsplit a.span.stop ∧ a.span.stop ≤ stop
  print : ∀ level, isCrlf (s.print style level n) = true

theorem isCrlf_newlines (hstyle : style.lineEnding = .crlf) (count : Nat) :
    isCrlf (style.newlines count) = true := by
  refine isCrlf_flatten fun t ht => ?_
  obtain ⟨-, rfl⟩ := List.mem_replicate.1 ht
  rw [Style.newline, hstyle]
  decide

/-- The children of a body and what it ends with, in front of the text up to `j`. -/
theorem isCrlf_printList (hsource : isCrlf s.tokens.source = true)
    (hstyle : style.lineEnding = .crlf) (hindent : Unbroken style.indent) (level parent : Nat)
    {cur : Cursor} (hcur : s.tokens.Unsplit cur.index) (hle : cur.index ≤ stop) (hj : s.tokens.Unsplit j)
    (hstop : stop ≤ j) (hblock : c = .block → s.tokens.Unsplit stop)
    (hns : ∀ n ∈ ns, s.Joins style stop n) :
    isCrlf (s.printList style c level parent stop cur ns ++ s.tokens.between stop j) = true := by
  have hnewline : isCrlf style.newline = true := by
    rw [Style.newline, hstyle]
    decide
  have hindentation := fun level => (unbroken_indentation hindent level).isCrlf
  induction ns generalizing cur with
  | nil =>
    rw [printList, tail]
    split
    · rename_i hcond
      simp only [Bool.and_eq_true, decide_eq_true_eq, Bool.not_eq_true'] at hcond
      have hend := hblock hcond.1.2
      have hrest := Tokens.isCrlf_between hsource hcur hend hle
      have hunbroken := unbroken_of_isPaired (isPaired_of_isCrlf hrest)
        fun hn => by simp [hn] at hcond
      refine isCrlf_append (isCrlf_append (isCrlf_append hnewline (hindentation level)) ?_)
        (Tokens.isCrlf_between hsource hend hj hstop)
      exact (hunbroken.of_subset fun c hc => mem_of_mem_trimStart (mem_of_mem_trimEnd hc)).isCrlf
    · rw [Tokens.between_append hle hstop]
      exact Tokens.isCrlf_between hsource hcur hj (Nat.le_trans hle hstop)
  | cons n ns ih =>
    obtain ⟨hn, hns⟩ := List.forall_mem_cons.1 hns
    have hgap : isCrlf (s.gap style c (c.childLevel level) (s.keeps parent cur n) cur n) = true := by
      unfold gap
      split
      · rename_i a hk ha
        have hstart : cur.index ≤ a.span.start := by
          cases ho : n.origin with
          | anchored b =>
            rw [ho] at ha
            cases ha
            rw [keeps, ho, Bool.and_eq_true, decide_eq_true_eq] at hk
            exact hk.1
          | _ =>
            rw [keeps, ho] at hk
            cases hk
        exact Tokens.isCrlf_between hsource hcur (hn.bounds a ha).1 hstart
      · exact isCrlf_append (isCrlf_newlines hstyle _) (hindentation _)
    rw [printList, List.append_assoc]
    refine isCrlf_append (isCrlf_append hgap (hn.print _)) (ih ?_ ?_ hns)
    · rw [Cursor.pass]
      split
      · rename_i a ha
        rcases Nat.le_total cur.index a.span.stop with h | h
        · rw [Nat.max_eq_right h]
          exact (hn.bounds a ha).2.1
        · rwa [Nat.max_eq_left h]
      · exact hcur
    · rw [Cursor.pass]
      split
      · rename_i a ha
        exact Nat.max_le.2 ⟨hle, (hn.bounds a ha).2.2⟩
      · exact hle

/-- A child as it was read. -/
theorem Faithful.joins (hf : s.Faithful text) (style : Style) (hcrlf : isCrlf text = true)
    (hs : Siblings s.tokens i ns last) (hi : s.tokens.Unsplit i) (hns : s.Ended ns)
    (hlast : last ≤ s.tokens.size) (hstop : last ≤ stop) (hmem : ∀ n ∈ ns, n ∈ s.tree.root.subnodes) :
    ∀ n ∈ ns, s.Joins style stop n := by
  intro n hn
  have hsource : isCrlf s.tokens.source = true := by rwa [hf.spells]
  obtain ⟨a, ha⟩ := (hs.placed n hn).anchor
  have hle := (hs.bounds hn ha).2
  have hlt := (hs.placed n hn).start_lt ha
  obtain ⟨hstart, hend⟩ := unsplit_siblings hf (isPaired_of_isCrlf hcrlf) hs hi hns hlast n hn a ha
  refine ⟨fun b hb => ?_, fun level => ?_⟩
  · rw [ha] at hb
    cases hb
    exact ⟨hstart, hend, Nat.le_trans hle hstop⟩
  · rw [intact_of_placed hf.distinct (hs.placed n hn) (hmem n hn) level a ha]
    exact Tokens.isCrlf_between hsource hstart hend (Nat.le_of_lt hlt)

theorem Faithful.unsplit_body (hf : s.Faithful text) (hp : isPaired text = true) {span body : Span}
    {decl : Decl} (he : Encloses s.tokens decl span body last) (hle : body.start ≤ s.tokens.size) :
    s.tokens.Unsplit body.start := by
  obtain ⟨k, hk, hcomment⟩ := he.opened
  rw [hk] at hle ⊢
  exact Tokens.unsplit_succ hf.reads hp hle (Tokens.kind?_ne_of_not_isComment hcomment)

namespace ClassScope

variable {sc : s.ClassScope} {P : Method → Prop} {x : Node} {before behind : List Node} {t : Tree}

/-- The class stands between braces. -/
theorem cls_stands (hf : s.Faithful text) (sc : s.ClassScope) : ∃ span body last,
    sc.cls.origin = .anchored ⟨span, some body⟩ ∧
      Siblings s.tokens body.start sc.cls.children last ∧
      Encloses s.tokens sc.cls.decl span body last := by
  have hplaced := hf.placed.of_mem_subnodes _ (Node.mem_subnodes_of_child sc.cls_mem (node_mem sc))
  have hclass := sc.isClass
  generalize sc.cls = cls at hplaced hclass
  cases hplaced with
  | leaf hdecl =>
    rw [Decl.isContainer_of_isClass hclass] at hdecl
    cases hdecl
  | container _ hs he => exact ⟨_, _, _, rfl, hs, he⟩

/-- The class with its new methods. -/
theorem Extended.joins (hf : s.Faithful text) (hcrlf : isCrlf text = true)
    (hstyle : style.lineEnding = .crlf) (hindent : Unbroken style.indent)
    (h : sc.Extended (fun d => ∀ level, isCrlf (d.print style level) = true) x)
    (hns : s.Ended sc.cls.children) (hcls : s.Joins style stop sc.cls) : s.Joins style stop x := by
  refine ⟨fun a ha => hcls.bounds a (h.anchor ▸ ha), fun level => ?_⟩
  have hsource : isCrlf s.tokens.source = true := by rwa [hf.spells]
  obtain ⟨new, hchildren, hnew⟩ := h.children
  obtain ⟨span, body, last, ho, hs, he⟩ := sc.cls_stands hf
  have hanchor : sc.cls.origin.anchor? = some ⟨span, some body⟩ := by rw [ho]; rfl
  have hsize : last ≤ s.tokens.size := Nat.le_trans he.last_le (Nat.le_trans he.stop_le he.le_size)
  have hstart := hf.unsplit_body (isPaired_of_isCrlf hcrlf) he (Nat.le_trans hs.le hsize)
  obtain ⟨hspan, hend, -⟩ := hcls.bounds _ hanchor
  obtain ⟨-, -, -, hclose⟩ := he.braces (Container.ofDecl_of_isClass sc.isClass)
  have hmem := Node.mem_subnodes_of_child sc.cls_mem (node_mem sc)
  have hchild := hf.joins style hcrlf hs hstart hns hsize he.last_le
    fun n hn => Node.mem_subnodes_of_child hn hmem
  rw [print_container (h.anchor.trans hanchor), List.append_assoc]
  refine isCrlf_append (Tokens.isCrlf_between hsource hspan hstart he.start_le)
    (isCrlf_printList hsource hstyle hindent level x.id hstart (Nat.le_trans hs.le he.last_le) hend
      he.stop_le (fun _ => Tokens.unsplit_of_isPunct (isPaired_of_isCrlf hsource) hclose (by decide))
      fun n hn => ?_)
  rw [hchildren] at hn
  rcases List.mem_append.1 hn with hn | hn
  · exact hchild n hn
  · obtain ⟨id, d, rfl, hd⟩ := hnew n hn
    refine ⟨nofun, fun level => ?_⟩
    rw [print_new rfl]
    exact hd level

/-- What is printed of an edited tree. -/
theorem Edited.print_crlf (hp : Source.parse text = .ok s) (hcrlf : isCrlf text = true)
    (hstyle : style.lineEnding = .crlf) (hindent : Unbroken style.indent)
    (h : sc.Edited (fun d => ∀ level, isCrlf (d.print style level) = true) t before x behind)
    (hns : s.Ended sc.node.children) (hmembers : s.Ended sc.cls.children) :
    isCrlf (s.print style 0 t.root) = true := by
  have hf := faithful_of_parse hp
  have hsource : isCrlf s.tokens.source = true := by rwa [hf.spells]
  obtain ⟨span, body, last, hst⟩ := sc.stands hf
  have he := hst.encloses
  have hlast : last ≤ s.tokens.size :=
    Nat.le_trans he.last_le (Nat.le_trans he.stop_le he.le_size)
  have hstart := hf.unsplit_body (isPaired_of_isCrlf hcrlf) he (Nat.le_trans hst.siblings.le hlast)
  have hzero : s.tokens.Unsplit 0 := by
    rw [Tokens.Unsplit, Tokens.between_self]
    nofun
  have hsize : s.tokens.Unsplit s.tokens.size := by
    intro hend
    rw [Tokens.between_size] at hend
    have := head?_of_isPaired (t := []) (by rw [List.append_nil]; exact isPaired_of_isCrlf hsource) hend
    cases this
  have hchild := hf.joins style hcrlf hst.siblings hstart hns hlast he.last_le
    fun n hn => Node.mem_subnodes_of_child hn (node_mem sc)
  rw [print_children hp h.root hst, List.append_assoc]
  refine isCrlf_append (Tokens.isCrlf_between hsource hzero hstart (Nat.zero_le _))
    (isCrlf_printList hsource hstyle hindent 0 sc.node.id hstart
      (Nat.le_trans hst.siblings.le he.last_le) hsize (Nat.le_trans he.stop_le he.le_size)
      (fun hblock => ?_) fun n hn => ?_)
  · obtain ⟨-, -, -, hclose⟩ := he.braces hblock
    exact Tokens.unsplit_of_isPunct (isPaired_of_isCrlf hsource) hclose (by decide)
  · have hothers : n ∈ before ++ behind → s.Joins style body.stop n := fun hn => by
      rcases h.others n hn with hn | ⟨id, name, -, -, hq, rfl⟩
      · exact hchild n hn
      · refine ⟨nofun, fun level => ?_⟩
        rw [print_new rfl]
        exact (unbroken_import hq).isCrlf
    rcases List.mem_append.1 hn with hn | hn
    · exact hothers (List.mem_append_left _ hn)
    rcases List.mem_cons.1 hn with rfl | hn
    · exact h.cls.joins hf hcrlf hstyle hindent hmembers (hchild _ sc.cls_mem)
    · exact hothers (List.mem_append_right _ hn)

end ClassScope

end Source

theorem LineEnding.detect?_of_isCrlf {text : Text} (h : isCrlf text = true) (hn : '\n' ∈ text) :
    detect? text = some .crlf := by
  fun_induction isCrlf text with
  | case1 => cases hn
  | case2 => rfl
  | case3 c t hne ih =>
    simp only [Bool.and_eq_true, bne_iff_ne, ne_eq] at h
    rw [detect?.eq_4 c t (fun he => h.1.2 he) fun r he => absurd he h.1.1]
    exact ih h.2 ((List.mem_cons.1 hn).resolve_left fun he => h.1.2 he.symm)

/-- No declaration of the whole file ends inside a line break. -/
def Source.isEnded (s : Source) : Bool :=
  s.tree.root.subnodes.all fun n =>
    n.origin.anchor?.all fun a => (s.tokens.slice a.span).getLast? != some '\r'

theorem Source.ended_of_isEnded {s : Source} (h : s.isEnded = true) (sc : s.ClassScope) :
    s.Ended (sc.node.children ++ sc.cls.children) := by
  have hnode := ClassScope.node_mem sc
  have hcls := Node.mem_subnodes_of_child sc.cls_mem hnode
  intro n hn a ha
  have hmem : n ∈ s.tree.root.subnodes := by
    rcases List.mem_append.1 hn with hn | hn
    · exact Node.mem_subnodes_of_child hn hnode
    · exact Node.mem_subnodes_of_child hn hcls
  have := List.all_eq_true.1 h n hmem
  rw [ha] at this
  simpa [Origin.anchor?] using this

/-- A file with CR LF keeps them under any operations, where no declaration next to the class and no
member of the class ends in a line comment that takes the CR at the end of its line. -/
theorem render_applyAll {text : Text} {style : Style} {e e' : Editor} {ops : List Operation}
    (h : Editor.parse text style = .ok e) (hcrlf : isCrlf text = true) (hbreak : '\n' ∈ text)
    (hindent : Unbroken style.indent) (hops : ∀ m, .addMethod m ∈ ops → m.Paired)
    (hends : ∀ sc : e.source.ClassScope, e.source.Ended (sc.node.children ++ sc.cls.children))
    (ha : e.applyAll ops = .ok e') : isCrlf e'.render = true := by
  cases ops with
  | nil =>
    cases ha
    rwa [(render_parse text style).1 e h]
  | cons op ops =>
    obtain ⟨s, hp, rfl⟩ := Editor.parse_eq h
    have hlineEnding : (style.matching text).lineEnding = .crlf := by
      rw [Style.matching, LineEnding.detect?_of_isCrlf hcrlf hbreak]
      rfl
    have hadds : ∀ op' ∈ op :: ops,
        Editor.Adds (fun d => ∀ level, isCrlf (d.print (style.matching text) level) = true) op' := by
      intro op' hop
      cases op' with
      | addMethod m =>
        intro d hd hname level
        exact isCrlf_method hd hname (hops m hop) hlineEnding hindent level
      | addImports => trivial
    have hfirst := ha
    rw [Editor.applyAll] at hfirst
    split at hfirst
    · cases hfirst
    rename_i hop
    obtain ⟨sc, hw⟩ := Editor.exists_classScope_of_apply rfl hop
    obtain ⟨hsource, hstyle, before, x, behind, hw⟩ := Editor.applyAll_edited hw hadds ha
    rw [Editor.render, hsource, hstyle]
    exact hw.print_crlf hp hcrlf hlineEnding hindent
      (fun n hn => hends sc n (List.mem_append_left _ hn))
      (fun n hn => hends sc n (List.mem_append_right _ hn))

/-- A method and an import for a class in a namespace. -/
theorem render_applyAll_crlf : ∃ e e',
    Editor.parse "<?php\r\nnamespace N;\r\n\r\nuse Z; /* z */\r\nclass C\r\n\x7b\r\n    public $x;\r\n\x7d\r\n" =
      .ok e ∧
      e.applyAll [.addMethod { name := "f", body := "f();\n\nreturn 1;" }, .addImports ["A"]] = .ok e' ∧
      isCrlf e'.render = true := by
  let text : Text :=
    "<?php\r\nnamespace N;\r\n\r\nuse Z; /* z */\r\nclass C\r\n\x7b\r\n    public $x;\r\n\x7d\r\n"
  have hrun : (Editor.parse text).toOption.any (fun e => e.source.isEnded &&
      (e.applyAll [.addMethod { name := "f", body := "f();\n\nreturn 1;" },
        .addImports ["A"]]).isOk) = true := by
    decide +kernel
  have hpaired : NewMethod.Paired { name := "f", body := "f();\n\nreturn 1;" } :=
    ⟨rfl, by decide +kernel, unquoted_of_all (by decide +kernel)⟩
  obtain ⟨e, h, hrun⟩ := Steps.exists_of_any hrun
  obtain ⟨hended, hok⟩ := Bool.and_eq_true_iff.1 hrun
  obtain ⟨e', ha⟩ := Steps.exists_of_isOk hok
  refine ⟨e, e', h, ha, render_applyAll h (by decide +kernel) (by decide +kernel)
    (unbroken_of_all rfl) ?_ (Source.ended_of_isEnded hended) ha⟩
  intro m hm
  rcases List.mem_cons.1 hm with hm | hm
  · cases hm
    exact hpaired
  · simp at hm

/-- A line comment in front of the new method takes a CR with it. -/
theorem applyAll_doubles_cr : ∃ e e',
    Editor.parse "<?php\r\nclass A\r\n\x7b\r\n    public $x; // x\r\n\x7d\r\n" = .ok e ∧
      isCrlf "<?php\r\nclass A\r\n\x7b\r\n    public $x; // x\r\n\x7d\r\n" = true ∧
      NewMethod.Paired { name := "f" } ∧
      e.applyAll [.addMethod { name := "f" }] = .ok e' ∧ isCrlf e'.render = false := by
  have hrun : (Editor.parse "<?php\r\nclass A\r\n\x7b\r\n    public $x; // x\r\n\x7d\r\n").toOption.any
      (fun e => (e.applyAll [.addMethod { name := "f" }]).toOption.any
        fun e' => isCrlf e'.render == false) = true := by
    decide +kernel
  have hpaired : NewMethod.Paired { name := "f" } :=
    ⟨rfl, by decide +kernel, unquoted_of_all (by decide +kernel)⟩
  obtain ⟨e, h, hrun⟩ := Steps.exists_of_any hrun
  obtain ⟨e', ha, hrun⟩ := Steps.exists_of_any hrun
  exact ⟨e, e', h, by decide +kernel, hpaired, ha, beq_iff_eq.1 hrun⟩

end PhpGraft
