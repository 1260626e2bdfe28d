import PhpGraft.Proofs.ClassPlace
import PhpGraft.Proofs.Gathered
import PhpGraft.Proofs.GatheredReading

/-!
The same imports asked for again. Where what stands in front of the class is read as it was printed, the
text with imports gathered has them gathered, and so nothing changes any more.
-/
namespace PhpGraft

namespace Node

variable {n : Node} {ns ms : List Node}

theorem exists_of_map_bare (h : ns.map bare = ms.map bare) (hn : n ∈ ns) : ∃ m ∈ ms, m.bare = n.bare :=
  List.mem_map.1 (h ▸ List.mem_map_of_mem hn)

theorem map_decl_of_bare (h : ns.map bare = ms.map bare) : ns.map decl = ms.map decl := by
  have hdecl := congrArg (List.map decl) h
  rw [List.map_map, List.map_map] at hdecl
  simpa only [Function.comp_def, bare_decl] using hdecl

theorem isImport_of_decl {m n : Node} (h : m.decl = n.decl) : m.isImport = n.isImport := by
  rw [isImport, isImport, h]

theorem others_eq_self (h : ∀ n ∈ ns, n.isImport = false) : others ns = ns :=
  List.filter_eq_self.2 fun n hn => by rw [h n hn]; rfl

theorem filter_isImport_eq_nil (h : ∀ n ∈ ns, n.isImport = false) : ns.filter isImport = [] :=
  List.filter_eq_nil_iff.2 fun n hn => by rw [h n hn]; exact Bool.false_ne_true

theorem importName_of_mem_importsOf {next : Nat} {names : List Text} (h : n ∈ importsOf next names) :
    n.importName ∈ names := by
  induction names generalizing next with
  | nil => cases h
  | cons name names ih =>
    rcases List.mem_cons.1 h with rfl | h
    · exact List.mem_cons_self
    · exact .tail _ (ih h)

theorem map_split_numberList {α : Type} {f : Node → α} (hf : ∀ k n, f (number k n).1 = f n) {k : Nat}
    {before before' behind behind' : List Node} {c c' : Node}
    (h : before' ++ c' :: behind' = (numberList k (before ++ c :: behind)).1)
    (hlen : before'.length = before.length) :
    before'.map f = before.map f ∧ f c' = f c ∧ behind'.map f = behind.map f := by
  have hmap := congrArg (List.map f) h
  rw [map_numberList hf, List.map_append, List.map_append, List.map_cons, List.map_cons] at hmap
  obtain ⟨hbefore, hrest⟩ := List.append_inj hmap (by rw [List.length_map, List.length_map, hlen])
  exact ⟨hbefore, List.cons.inj hrest⟩

/-- The child in front of the class that is edited. -/
def classFront? (root : Node) : Option Node :=
  root.classScope?.bind fun p => (root.at? p.1).bind fun n => (n.children.take p.2).getLast?

end Node

namespace Source.ClassScope

open Tokens

variable {s s' : Source} {sc : s.ClassScope} {style : Style} {is : List Node} {b : Nat} {root n : Node}
  {t : Tree} {text : Text}

/-- The scope as a place in the tree. -/
def place (sc : s.ClassScope) : s.tree.root.ClassPlace :=
  ⟨sc.path, sc.node, sc.before, sc.cls, sc.behind, sc.edited, sc.reached, sc.split, sc.isClass, sc.last⟩

theorem Arranged.scopeImports (h : sc.Arranged is t) : t.root.scopeImports = is := by
  rw [Node.scopeImports, h.classScope?]
  simp only [h.at?]
  exact sc.filter_arranged h.imports.isImport

theorem Arranged.classFront? (h : sc.Arranged is t) :
    t.root.classFront? = (is ++ Node.others sc.before).getLast? := by
  have htake : ((sc.node.withChildren fun _ => sc.arranged is).children).take
      (is ++ Node.others sc.before).length = is ++ Node.others sc.before := by
    change (is ++ (Node.others sc.before ++ _)).take _ = _
    rw [← List.append_assoc, List.take_left]
  rw [Node.classFront?, h.classScope?, Option.bind_some, h.at?, Option.bind_some, htake]

/-- The text with imports gathered is read in the style that it was printed in. -/
theorem Arranged.matching_print (h : sc.Arranged is t) (hp : Source.parse text = .ok s)
    (hpaired : Text.isPaired text = true) (style : Style) :
    style.matching (s.print (style.matching text) 0 t.root) = style.matching text := by
  obtain ⟨k, u, hprint⟩ := h.exists_newline hp (style.matching text)
  have htext : text = s.tokens.between 0 k ++ s.tokens.between k s.tokens.size := by
    rw [← (faithful_of_parse hp).spells, ← s.tokens.spell_drop, s.tokens.source_split]
  rw [hprint]
  have hmatching := style.matching_newline (htext ▸ hpaired) u
  rwa [← htext] at hmatching

/-- Printed in the style of the file, a scope is steady where the names asked for are read as they are
spelled. -/
theorem Arranged.steady {names : List Text} {span body : Span} {last : Nat}
    (h : sc.Arranged (Node.mergeImports s.tree.next names sc.node.children) t)
    (hp : Source.parse text = .ok s) (hpaired : Text.isPaired text = true)
    (hst : sc.Stands span body last) (hnames : ∀ name ∈ names, Name.reread? name = some name)
    (hended : style.lineEnding = .crlf → ∀ x ∈ t.root.classFront?, ∀ a ∈ x.origin.anchor?,
      s.tokens.kind? (a.span.stop - 1) ≠ some .lineComment) :
    sc.Steady style body.start (Node.mergeImports s.tree.next names sc.node.children) := by
  refine ⟨fun x hx ho => ?_, fun hline => ?_, ?_⟩
  · rcases Node.mem_mergeImports.1 hx with hold | hnew
    · have hmem := (List.mem_filter.1 ((Node.distinctImports_sublist _ _).subset hold)).1
      obtain ⟨a, ha⟩ := (hst.siblings.placed x hmem).anchor
      rw [ho] at ha
      cases ha
    · exact hnames _ ((Node.unboundNames_sublist _ _).subset (Node.importName_of_mem_importsOf hnew))
  · rw [← h.classFront?]
    exact hended hline
  · have hle := Nat.le_trans hst.siblings.le (Nat.le_trans hst.encloses.last_le
      (Nat.le_trans hst.encloses.stop_le hst.encloses.le_size))
    exact (faithful_of_parse hp).unsplit_body hpaired hst.encloses hle

section

variable {front back left : List Node} {c : Node} {place : Span} {us : Tokens} {j : Nat}

/-- The class of a scope that is read again is still the one that is edited. -/
theorem Regained.classScope? (h : sc.Regained style is us b j front c place back left)
    (his : ∀ x ∈ is, x.isImport = true) :
    (s.tree.root.modifyAt (.withChildren fun _ => front ++ c :: back) sc.path).classScope? =
      some (sc.path, front.length) := by
  have hbare : (front ++ c :: back).map Node.bare = ((is ++ Node.others sc.before) ++
      sc.cls :: (Node.others sc.behind ++ left)).map Node.bare := by
    rw [List.map_append, List.map_cons, h.ahead, h.cls, h.behind, ← List.map_cons, ← List.map_append]
  have hlen : front.length = (is ++ Node.others sc.before).length := by
    rw [← List.length_map (f := Node.bare), h.ahead, List.length_map]
  have hread : ∀ {x : Node}, x ∈ sc.node.children →
      x.scopeClass? = none ∨ ∃ k ∈ sc.node.children, x.scopeClass? = k.scopeClass? :=
    fun hx => .inr ⟨_, hx, rfl⟩
  rw [Node.classScope?_of_bare (Node.bare_withChildren_congr rfl hbare sc.path), hlen]
  refine Node.classScope?_withChildren sc.edited sc.reached sc.isClass (fun x hx => ?_) fun x hx => ?_
  · rcases List.mem_append.1 hx with hx | hx
    · exact sc.last x (Node.mem_others.1 hx).1
    · exact Node.isClass_of_isImport (h.dropped x hx).2
  · rcases List.mem_append.1 hx with hx | hx
    · rcases List.mem_append.1 hx with hx | hx
      · exact .inl (Node.scopeClass?_of_isImport (his x hx))
      · exact hread (by rw [sc.split]; simp [(Node.mem_others.1 hx).1])
    rcases List.mem_cons.1 hx with rfl | hx
    · exact hread (cls_mem sc)
    rcases List.mem_append.1 hx with hx | hx
    · exact hread (by rw [sc.split]; simp [(Node.mem_others.1 hx).1])
    · exact hread (h.dropped x hx).1

end

theorem Reopened.decl (h : sc.Reopened style is b us root n) : n.decl = sc.node.decl := by
  have hat : some n.bare = some (sc.node.withChildren fun _ => n.children).bare := by
    rw [← Option.map_some, ← h.reached, ← Node.at?_bare, h.bare, Node.at?_bare, Node.at?_modifyAt sc.reached]
    rfl
  have hdecl := Node.decl_of_bare (Option.some.inj hat)
  exact hdecl

/-- The scope `sc'` has what gathering imports makes of `sc`: the imports `is` in front of the other
children, and behind them the imports `left` that were left out. -/
structure Repeats (sc : s.ClassScope) (is left : List Node) (sc' : s'.ClassScope) : Prop where
  decl : sc'.node.decl = sc.node.decl
  ahead : sc'.before.map Node.bare = (is ++ Node.others sc.before).map Node.bare
  cls : sc'.cls.bare = sc.cls.bare
  behind : sc'.behind.map Node.bare = (Node.others sc.behind ++ left).map Node.bare

section

variable {sc' : s'.ClassScope} {is' left left' : List Node}

/-- The imports of such a scope are told from its other children. -/
theorem Repeats.exists_split (h : sc.Repeats is left sc') (his : ∀ x ∈ is, x.isImport = true)
    (hleft : ∀ x ∈ left, x.isImport = true) : ∃ is' left',
      sc'.before = is' ++ Node.others sc'.before ∧ sc'.behind = Node.others sc'.behind ++ left' ∧
      is'.map Node.bare = is.map Node.bare ∧ left'.map Node.bare = left.map Node.bare ∧
      (Node.others sc'.behind).map Node.bare = (Node.others sc.behind).map Node.bare ∧
      sc'.node.children.filter Node.isImport = is' ++ left' := by
  have himport : ∀ {ns ms : List Node} {v : Bool}, ns.map Node.bare = ms.map Node.bare →
      (∀ m ∈ ms, m.isImport = v) → ∀ n ∈ ns, n.isImport = v := by
    intro ns ms v hbare hms n hn
    obtain ⟨m, hm, he⟩ := Node.exists_of_map_bare hbare hn
    rw [← hms m hm]
    exact Node.isImport_of_decl (Node.decl_of_bare he.symm)
  have hothers : ∀ ns, ∀ m ∈ Node.others ns, m.isImport = false := fun ns m hm => (Node.mem_others.1 hm).2
  have hahead := h.ahead
  have hbehind := h.behind
  rw [List.map_append] at hahead hbehind
  obtain ⟨is', os, hbefore, his', hos⟩ := List.map_eq_append_iff.1 hahead
  obtain ⟨bs, left', hback, hbs, hleft'⟩ := List.map_eq_append_iff.1 hbehind
  have his₁ := himport his' his
  have hleft₁ := himport hleft' hleft
  have hos₁ := himport hos (hothers _)
  have hbs₁ := himport hbs (hothers _)
  have hbefore' : Node.others sc'.before = os := by
    rw [hbefore, Node.others_append, Node.others_of_imports his₁, List.nil_append, Node.others_eq_self hos₁]
  have hback' : Node.others sc'.behind = bs := by
    rw [hback, Node.others_append, Node.others_of_imports hleft₁, List.append_nil, Node.others_eq_self hbs₁]
  refine ⟨is', left', by rw [hbefore', hbefore], by rw [hback', hback], his', hleft', by rw [hback', hbs], ?_⟩
  rw [sc'.split, hbefore, hback, List.filter_append, List.filter_append, List.filter_cons_of_neg
    (by rw [Node.isImport_of_isClass sc'.isClass]; exact Bool.false_ne_true), List.filter_append,
    List.filter_eq_self.2 his₁, List.filter_eq_self.2 hleft₁, Node.filter_isImport_eq_nil hos₁,
    Node.filter_isImport_eq_nil hbs₁, List.append_nil, List.nil_append]

theorem Repeats.classGap (h : sc.Repeats is left sc') (hbefore : sc'.before = is' ++ Node.others sc'.before)
    (style : Style) : sc'.classGap style is' = sc.classGap style is := by
  have hlast := congrArg List.getLast? (Node.map_decl_of_bare h.ahead)
  rw [List.getLast?_map, List.getLast?_map] at hlast
  have hcls : sc'.cls.decl = sc.cls.decl := Node.decl_of_bare h.cls
  rw [ClassScope.classGap, ClassScope.classGap, ← hbefore, hlast, h.decl, hcls]

end

theorem Reopened.exists_gathered (h : sc.Reopened style is b s'.tokens root n)
    (hroot : s'.tree.root = (root.number 0).1) (hf : s'.Faithful text)
    (his : ∀ x ∈ is, x.isImport = true) (hsteady : sc.Steady style b is) :
    ∃ (sc' : s'.ClassScope) (is' left' : List Node) (span body : Span) (last : Nat) (a : Anchor),
      sc'.Stands span body last ∧ sc'.Gathered style body is' left' a ∧
        sc'.node.children.filter Node.isImport = is' ++ left' ∧
        is'.map Node.decl = is.map Node.decl ∧
        ∀ x ∈ left', ∃ m ∈ sc.node.children, m.isImport = true ∧ m.decl = x.decl := by
  obtain ⟨inner, hinner, rfl, hfilled⟩ := h.filled
  obtain ⟨j, ⟨front, c, place, back, left, hns, hre⟩, hblock⟩ := hfilled.regains hsteady
  have hscope : s'.tree.root.classScope? = some (sc.path, front.length) := by
    rw [hroot, Node.classScope?_of_bare (Node.bare_number 0 root), Node.classScope?_of_bare h.bare, hns]
    exact hre.classScope? his
  obtain ⟨sc', hpath, hlen⟩ := exists_classScope hscope
  obtain ⟨span, body, last, hst⟩ := sc'.stands hf
  have hreached := sc'.reached
  rw [hpath, hroot] at hreached
  obtain ⟨d, i, hd, hnode⟩ := Node.at?_number hreached
  obtain rfl := Option.some.inj (hd.symm.trans h.reached)
  have hsplit : sc'.before ++ sc'.cls :: sc'.behind = (Node.numberList i (front ++ c :: back)).1 := by
    rw [← sc'.split, hnode, ← hns]
    cases d
    rw [Node.number]
  obtain ⟨hfront, hcls, hback⟩ := Node.map_split_numberList Node.bare_number hsplit hlen
  obtain ⟨hstops, hplace, -⟩ := Node.map_split_numberList
    (fun k n => congrArg (·.anchor?.map Anchor.span) (number_origin k n) : ∀ k n, Node.span? _ = _)
    hsplit hlen
  have hrepeats : sc.Repeats is left sc' :=
    ⟨by rw [hnode, number_decl, h.decl], hfront.trans hre.ahead, hcls.trans hre.cls, hback.trans hre.behind⟩
  obtain ⟨is', left', hbefore, hbehind, his', hleft', hothers, himports⟩ :=
    hrepeats.exists_split his fun x hx => (hre.dropped x hx).2
  obtain ⟨a, ha⟩ := (hst.siblings.placed _ (cls_mem sc')).anchor
  obtain rfl : place = a.span := by
    have hspan := hplace.trans hre.span
    rw [Node.span?, ha] at hspan
    exact (Option.some.inj hspan).symm
  obtain rfl : inner = body := by
    have ho := hst.origin
    rw [hnode, number_origin] at ho
    rw [ho] at hinner
    exact (Option.some.inj hinner).symm
  refine ⟨sc', is', left', span, inner, last, a, hst, ⟨hbefore, hbehind, ha, ?_, fun hdecl hnil => ?_⟩,
    himports, Node.map_decl_of_bare his', fun x hx => ?_⟩
  · rw [Node.lastStop_eq, hstops, ← Node.lastStop_eq, hre.gap, hrepeats.classGap hbefore]
  · rw [hrepeats.decl] at hdecl
    rw [hnil] at hothers
    rw [hblock hdecl]
    exact hre.ends hdecl (List.map_eq_nil_iff.1 hothers.symm)
  · obtain ⟨m, hm, he⟩ := Node.exists_of_map_bare hleft' hx
    obtain ⟨hmem, himport⟩ := hre.dropped m hm
    exact ⟨m, hmem, himport, Node.decl_of_bare he⟩

end Source.ClassScope

open Tokens in
/-- Imports asked for again change nothing, in a scope without close tags that keeps its declarations apart:
if no import is left over that binds what the others bind, the names are read as they are spelled, and no
line comment takes a part of the line break in front of the class. -/
theorem addImports_again {text : Text} {style : Style} {e e' : Editor} {names : List Text}
    (h : Editor.parse text style = .ok e) (hi : ∀ c ∈ style.indent, Lexer.isIndent c = true)
    (hpaired : Text.isPaired text = true) (hwhole : ∀ t ∈ e.source.tokens, t.kind ≠ .closeTag)
    (hsep : ∀ n ∈ e.source.tree.root.editedScope?, e.source.tokens.Separate n)
    (ha : e.addImports names = .ok e')
    (hnames : ∀ name ∈ names, Name.reread? (Editor.plainName name) = some (Editor.plainName name))
    (hdistinct : (Node.distinctImports [] e'.working.root.scopeImports).1 = e'.working.root.scopeImports)
    (hended : e'.style.lineEnding = .crlf → ∀ n ∈ e'.working.root.classFront?, ∀ a ∈ n.origin.anchor?,
      e.source.tokens.kind? (a.span.stop - 1) ≠ some .lineComment) :
    ∃ e₁ e₂, Editor.parse e'.render style = .ok e₁ ∧ e₁.addImports names = .ok e₂ ∧
      e₂.render = e'.render := by
  obtain ⟨s, hparse, rfl⟩ := Editor.parse_eq h
  have hf := Source.faithful_of_parse hparse
  obtain ⟨sc, qs, hqs, hsource, hstyle, hw⟩ := Editor.addImports_parsed hf rfl ha
  have hq := Editor.isQualified_of_mapM hqs
  obtain rfl := Editor.mapM_importedName hqs
  obtain ⟨span, body, last, hst⟩ := sc.stands hf
  have hscope : s.tree.root.editedScope? = some sc.node := by
    rw [Node.editedScope?, sc.edited]
    exact sc.reached
  have hkinds : ∀ k, s.tokens.kind? k ≠ some .closeTag := fun k hk => by
    obtain ⟨t, ht, hkind⟩ := Option.map_eq_some_iff.1 hk
    exact hwhole t (Array.mem_of_getElem? ht) hkind
  have hi' : ∀ c ∈ (style.matching text).indent, Lexer.isIndent c = true := hi
  rw [hw.scopeImports] at hdistinct
  rw [hstyle] at hended
  have hsteady := hw.steady hparse hpaired hst (List.forall_mem_map.2 hnames) hended
  have hrender : e'.render = s.print (style.matching text) 0 e'.working.root := by
    rw [Editor.render, hsource, hstyle]
  -- The text is read again, and its scope has its imports in front.
  obtain ⟨s', root, n, hs', hroot, hn⟩ := hw.exists_reopened hparse hkinds (hsep _ hscope) hi' hst
  obtain ⟨sc', is', left', span', body', last', a, hst', hgathered, himports, hdecls, hleft⟩ :=
    hn.exists_gathered hroot (Source.faithful_of_parse hs') hw.imports.isImport hsteady
  have hmatching := hw.matching_print hparse hpaired style
  have hmerge : Node.mergeImports s'.tree.next (names.map Editor.plainName) sc'.node.children = is' := by
    refine Node.mergeImports_again himports hdecls hdistinct fun b hb => ?_
    obtain ⟨x, hx, hb⟩ := List.mem_flatMap.1 hb
    obtain ⟨m, hm, himport, hdecl⟩ := hleft x hx
    refine List.mem_flatMap.2 ⟨m, List.mem_filter.2 ⟨hm, himport⟩, ?_⟩
    rwa [Node.importBindings, hdecl]
  have hopen : Editor.parse e'.render style = .ok ⟨s', s'.tree, style.matching text⟩ := by
    rw [hrender, Editor.parse, hs']
    simp only [hmatching]
  refine ⟨_, _, hopen, Editor.addImports_of_place sc'.place hq, ?_⟩
  rw [hrender, Editor.render]
  exact hgathered.print_eq hs' hst' (by rw [← hmerge]; rfl)

/-- The import behind the class is left out of the scope, but stays in the text. -/
theorem addImports_again_behind : ∃ e e' e₁ e₂,
    Editor.parse "<?php\r\nf(); /* f */\r\nuse A;\r\nclass C \x7b\x7d // c\r\nuse A;\r\n" = .ok e ∧
      (∀ t ∈ e.source.tokens, t.kind ≠ .closeTag) ∧
      (∀ n ∈ e.source.tree.root.editedScope?, e.source.tokens.Separate n) ∧
      e.addImports ["\\A", " A "] = .ok e' ∧ Editor.parse e'.render = .ok e₁ ∧
      e₁.addImports ["\\A", " A "] = .ok e₂ ∧ e₂.render = e'.render := by
  let text : Text := "<?php\r\nf(); /* f */\r\nuse A;\r\nclass C \x7b\x7d // c\r\nuse A;\r\n"
  let names : List Text := ["\\A", " A "]
  have hrun : (Editor.parse text).toOption.any (fun (e : Editor) =>
      decide ((∀ t ∈ e.source.tokens, t.kind ≠ .closeTag) ∧
        ∀ n ∈ e.source.tree.root.editedScope?, e.source.tokens.Separate n) &&
      (e.addImports names).toOption.any fun (e' : Editor) =>
        decide ((Node.distinctImports [] e'.working.root.scopeImports).1 = e'.working.root.scopeImports ∧
          ∀ n ∈ e'.working.root.classFront?, ∀ a ∈ n.origin.anchor?,
            e.source.tokens.kind? (a.span.stop - 1) ≠ some .lineComment)) = true := by
    decide +kernel
  obtain ⟨e, h, hrun⟩ := Steps.exists_of_any hrun
  rw [Bool.and_eq_true, decide_eq_true_eq] at hrun
  obtain ⟨⟨hwhole, hsep⟩, hrun⟩ := hrun
  obtain ⟨e', ha, hrun⟩ := Steps.exists_of_any hrun
  obtain ⟨hdistinct, hended⟩ := of_decide_eq_true hrun
  obtain ⟨e₁, e₂, h₁, h₂, hagain⟩ := addImports_again h (List.all_eq_true.1 rfl) rfl hwhole hsep ha
    (by decide) hdistinct fun _ => hended
  exact ⟨e, e', e₁, e₂, h, hwhole, hsep, ha, h₁, h₂, hagain⟩

/-- Behind a line comment every run adds a carriage return. -/
theorem addImports_grows : ∃ e e' e₁ e₂,
    Editor.parse "<?php\r\nuse Z; // z\r\nclass C \x7b\x7d\r\n" = .ok e ∧ e.addImports ["Z"] = .ok e' ∧
      Editor.parse e'.render = .ok e₁ ∧ e₁.addImports ["Z"] = .ok e₂ ∧
      e'.render = "<?php\r\nuse Z; // z\r\r\n\r\nclass C \x7b\x7d\r\n" ∧
      e₂.render = "<?php\r\nuse Z; // z\r\r\r\n\r\nclass C \x7b\x7d\r\n" := by
  have hrun : (Editor.parse "<?php\r\nuse Z; // z\r\nclass C \x7b\x7d\r\n").toOption.any (fun (e : Editor) =>
      (e.addImports ["Z"]).toOption.any fun (e' : Editor) =>
        (Editor.parse e'.render).toOption.any fun (e₁ : Editor) =>
          (e₁.addImports ["Z"]).toOption.any fun (e₂ : Editor) =>
            decide (e'.render = "<?php\r\nuse Z; // z\r\r\n\r\nclass C \x7b\x7d\r\n" ∧
              e₂.render = "<?php\r\nuse Z; // z\r\r\r\n\r\nclass C \x7b\x7d\r\n")) = true := by
    decide +kernel
  obtain ⟨e, h, hrun⟩ := Steps.exists_of_any hrun
  obtain ⟨e', ha, hrun⟩ := Steps.exists_of_any hrun
  obtain ⟨e₁, h₁, hrun⟩ := Steps.exists_of_any hrun
  obtain ⟨e₂, h₂, hrun⟩ := Steps.exists_of_any hrun
  obtain ⟨hprint, hagain⟩ := of_decide_eq_true hrun
  exact ⟨e, e', e₁, e₂, h, ha, h₁, h₂, hprint, hagain⟩

end PhpGraft
