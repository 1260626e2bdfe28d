import PhpGraft.Proofs.Interleaving
import PhpGraft.Proofs.ClassPlace
import PhpGraft.Proofs.LookAhead
import PhpGraft.Proofs.Phrase
import PhpGraft.Proofs.Skeleton
import PhpGraft.Proofs.Territory

/-!
A declaration of directives at the start of a file. It stays the first code of the file, unless
imports gather next to a class outside of any namespace: those go to the top.
-/
namespace PhpGraft

namespace Lexer

variable {d : Token} {w r t : Text} {front behind : List Token} {m : Mode} {ts : List Token}

theorem Reads.closeTag_length (h : Reads m ts t) {x : Token} (hx : x ∈ ts)
    (hk : x.kind = .closeTag) : 2 ≤ x.text.length := by
  obtain ⟨k, hget⟩ := List.getElem?_of_mem hx
  obtain ⟨m', c, u, htext, hs⟩ := h.get hget
  rw [hk] at hs
  rw [htext]
  cases m' with
  | html =>
    rcases kind_scanHtml c (u ++ Token.spell (ts.drop (k + 1))) with ⟨n, -, he⟩ | ⟨-, he⟩ <;>
      rw [scan, he] at hs <;> cases hs
  | code =>
    exact Nat.succ_le_succ (rule_of_scanCode hs).closeTag_bounds.2

/-- A name of seven characters behind all but code is the first code, whatever stands farther
behind than a close tag, another two characters or what keeps tokens apart. -/
theorem Reads.firstCode (h : Reads .html (front ++ d :: behind) t)
    (hfront : ∀ x ∈ front, x.kind.isCode = false) (hd : d.kind = .name) (hlen : 7 ≤ d.text.length)
    (hw : Token.spell behind = w ++ r) (hend : 2 ≤ w.length ∨ ∃ z, w = [z] ∧ isBarrier z = true)
    (r' : Text) : (Token.spell front ++ (d.text ++ (w ++ r'))).FirstCode d := by
  have hcode : d.kind.isCode = true := by rw [hd]; rfl
  have hmode : Mode.html.afterAll front = .code := by
    have := h.mode_of_isCode (k := front.length) (x := d) (by simp) hcode
    rwa [List.take_left] at this
  have hreads := h.of_append
  rw [hmode] at hreads
  refine ⟨hcode, front, hfront, w ++ r', by simp [spell_append, spell_singleton], ?_⟩
  generalize Token.spell (d :: behind) = T at hreads
  cases hreads with
  | @cons _ c u T k _ hs hr =>
    have hs : scanCode c (u ++ (w ++ r')) = .ok (k, u.length) := by
      rw [← hr.spell, hw] at hs
      rcases hend with hend | ⟨z, rfl, hz⟩
      · exact scanCode_ahead hend hs r'
      · exact scan_edge (m := .code) (y := []) (isEdge_of_isBarrier hz) hs r'
    have hys : Token.spell (⟨k, c :: u⟩ :: behind) = (c :: u ++ w) ++ r := by
      rw [← List.singleton_append, spell_append, spell_singleton, hw, List.append_assoc]
    have hahead := run_ahead h hys (by simp only [List.length_append] at hlen ⊢; omega) r' .start
    rw [hmode, List.append_assoc, List.cons_append, run_cons (m := .code) hs] at hahead
    have hafter : Mode.html.afterAll (front ++ [⟨k, c :: u⟩]) = Mode.code.after k := by
      rw [Mode.afterAll, List.foldl_append]
      exact congrArg (·.after k) hmode
    rw [hafter, Position.after, spell_append, spell_singleton, List.foldl_append, lex]
    refine hahead.trans ?_
    cases Lexer.run (Mode.code.after k) _ (w ++ r') <;> simp [Except.map]

end Lexer

/-- The keyword that starts a declaration of directives. -/
structure Token.IsDeclare (d : Token) : Prop where
  kind : d.kind = .name
  text : d.text.lower = "declare"

theorem Token.IsDeclare.length {d : Token} (h : d.IsDeclare) : d.text.length = 7 := by
  have := congrArg List.length h.text
  rwa [Text.lower, List.length_map] at this

namespace Tokens

variable {ts : Tokens} {d : Token} {start first i stop : Nat} {r : Node × Nat}

theorem isKeyword_declare (hd : d.IsDeclare) (h : ts[i]? = some d) (word : Text) :
    ts.isKeyword i word = (("declare" : Text) == word) := by
  rw [isKeyword_of h, hd.kind, hd.text]
  rfl

theorem classStart?_declare (hd : d.IsDeclare) (h : ts[first]? = some d) :
    ts.classStart? first stop = none := by
  have hmods : ts.modifiers classModifiers first stop = ([], first) := by
    rw [modifiers]
    split
    · rw [if_neg]
      simp [isOneOf, isKeyword_declare hd h, classModifiers]
    · rfl
  rw [classStart?, skipAttributes_of h hd.kind]
  simp only [hmods, text_of h, ClassKind.ofKeyword?, hd.text]
  split
  · rfl
  · rfl

theorem statementEnd_declare {next : Nat} {block : Bool} (hd : d.IsDeclare) (h : ts[first]? = some d)
    (he : ts.statementEnd first stop block = .ok next) : first + 1 < next ∧ ts.Ended next := by
  refine ⟨?_, ended_statementEnd he⟩
  have hno : ts.delimiter? first = none := by
    rw [delimiter?_of h, Token.delimiter?, hd.kind]
  rw [statementEnd, statementEndFrom] at he
  split at he
  · rw [hno] at he
    exact (statementEndFrom_bounds he).1
  · cases he

/-- A declaration of directives is kept as it stands. -/
theorem entry_declare (hd : d.IsDeclare) (h : ts[first]? = some d)
    (he : ts.entry .file start first stop = .ok r) : ∃ code next,
      r = (.ofSource (.verbatim code) ⟨start, next⟩ none [], next) ∧ first + 1 < next ∧
        ts.Ended next := by
  have hblock : ts.isBlock first = true := by
    simp [isBlock, isOneOf, isKeyword_declare hd h, blockKeywords]
  have hspace : ts.isNamespace first stop = false := by
    rw [isNamespace, isKeyword_declare hd h]
    rfl
  rw [entry_of_declaration (p := .file) (by decide) hspace, declaration, isKeyword_declare hd h,
    if_neg (by decide), classStart?_declare hd h, skipAttributes_of h hd.kind] at he
  dsimp only at he
  rw [hblock, verbatim] at he
  split at he
  · cases he
  rename_i next hnext
  cases he
  exact ⟨_, next, rfl, statementEnd_declare hd h hnext⟩

/-- The first node of a file that begins with a declaration of directives at token `i`. -/
structure Leads (ts : Tokens) (i : Nat) (c : Node) (a : Anchor) : Prop where
  origin : c.origin = .anchored a
  isImport : c.isImport = false
  isClass : c.isClass = false
  isScope : c.decl.isScope = false
  ends : ∃ n, i + 1 < n ∧ n ≤ a.span.stop ∧ ts.Ended n

theorem Leads.number {c : Node} {a : Anchor} (h : ts.Leads i c a) (k : Nat) :
    ts.Leads i (c.number k).1 a := by
  obtain ⟨id, origin, decl, children⟩ := c
  exact ⟨h.origin, h.isImport, h.isClass, h.isScope, h.ends⟩

theorem exists_leads {text : Text} {root : Node} (h : ts.file = .ok root)
    (hreads : Lexer.Reads .html ts.toList text) (hd : d.IsDeclare) (hi : ts[i]? = some d)
    (hplain : ts.Plain 0 i) : ∃ c cs a, root.children = c :: cs ∧ ts.Leads i c a := by
  have hcode : ts.isCode i = true := by
    rw [isCode_of hi, hd.kind]
    rfl
  obtain ⟨body, hbody, ⟨last, hitems, hhalts⟩, -⟩ := entries_of_file h
  obtain ⟨hstart, hstop⟩ := codeSpan?_isCode hreads hbody hcode
  have hfirst : ts.significant body.start body.stop = i :=
    firstFrom_eq hstart (Nat.le_of_lt hstop) (fun k _ hk => hplain k (Nat.zero_le k) hk)
      fun _ => hcode
  generalize root.children = ns at hitems
  cases hitems with
  | nil => exact absurd (hhalts (hfirst ▸ hstop)).1 nofun
  | @cons _ r ns _ hs he hrest =>
    rw [hfirst] at he
    obtain ⟨code, next, rfl, hnext, hended⟩ := entry_declare hd hi he
    exact ⟨_, ns, _, rfl, rfl, rfl, rfl, rfl, next, hnext, Nat.le_max_left .., hended⟩

theorem Ended.between {n : Nat} {text : Text} (h : ts.Ended n)
    (hreads : Lexer.Reads .html ts.toList text) (hi : i < n) : 2 ≤ (ts.between i n).length ∨
      ∃ z, ts.between i n = [z] ∧ Lexer.isBarrier z = true := by
  have hsplit : ts.between i n = ts.between i (n - 1) ++ ts.between (n - 1) (n - 1 + 1) := by
    rw [between_append (by omega) (by omega), Nat.sub_add_cancel (by omega)]
  have hnonempty : i < n - 1 → n - 1 ≤ ts.size → 0 < (ts.between i (n - 1)).length := by
    intro hlt hsize
    have hget : ts[i]? = some ts[i] := Array.getElem?_eq_getElem (by omega)
    rw [← between_append (Nat.le_succ i) hlt, between_succ hget, List.length_append]
    have hne := hreads.text_ne_nil ts[i] (by simp)
    exact Nat.add_pos_left (List.length_pos_iff.2 hne) _
  rcases h with hclose | ⟨z, hz, hpunct⟩
  · obtain ⟨x, hx, hk⟩ := Option.map_eq_some_iff.1 hclose
    have hlen := hreads.closeTag_length (Array.mem_toList_iff.2 (Array.mem_of_getElem? hx)) hk
    rw [hsplit, between_succ hx, List.length_append]
    exact .inl (Nat.le_add_left_of_le hlen)
  · have hx := isPunct_iff.1 hpunct
    have hsize := (Array.getElem?_eq_some_iff.1 hx).1
    rw [hsplit, between_succ hx]
    by_cases hlt : i < n - 1
    · have := hnonempty hlt (Nat.le_of_lt hsize)
      rw [List.length_append, List.length_singleton]
      exact .inl (by omega)
    · rw [show n - 1 = i by omega, between_self]
      exact .inr ⟨z, rfl, hz⟩

theorem Leads.firstCode {c : Node} {a : Anchor} {text t : Text} (h : ts.Leads i c a)
    (hreads : Lexer.Reads .html ts.toList text) (hd : d.IsDeclare) (hi : ts[i]? = some d)
    (hplain : ts.Plain 0 i) (ht : ts.between 0 a.span.stop <+: t) : t.FirstCode d := by
  obtain ⟨n, hin, hle, hended⟩ := h.ends
  have hlist : ts.toList = ts.toList.take i ++ d :: ts.toList.drop (i + 1) := by
    obtain ⟨hlt, rfl⟩ := Array.getElem?_eq_some_iff.1 hi
    rw [← Array.getElem_toList, ← List.drop_eq_getElem_cons, List.take_append_drop]
  have hfront : ∀ x ∈ ts.toList.take i, x.kind.isCode = false := by
    intro x hx
    obtain ⟨k, hk⟩ := List.getElem?_of_mem hx
    have hki : k < i := by
      have := (List.getElem?_eq_some_iff.1 hk).1
      rw [List.length_take] at this
      omega
    rw [List.getElem?_take_of_lt hki, Array.getElem?_toList] at hk
    rw [← isCode_of hk]
    exact hplain k (Nat.zero_le k) hki
  have hbehind : Token.spell (ts.toList.drop (i + 1)) = ts.between (i + 1) n ++
      Token.spell ((ts.toList.drop (i + 1)).drop (n - (i + 1))) := by
    rw [between_eq, ← Lexer.spell_append, List.take_append_drop]
  have hwhole : ts.between 0 n =
      Token.spell (ts.toList.take i) ++ (d.text ++ ts.between (i + 1) n) := by
    rw [← between_succ hi, between_append (Nat.le_succ i) (by omega),
      ← between_append (Nat.zero_le i) (by omega), between_eq ts 0, List.drop_zero, Nat.sub_zero]
  have hprefix : ts.between 0 n <+: ts.between 0 a.span.stop := by
    rw [← between_append (Nat.zero_le n) hle]
    exact List.prefix_append ..
  obtain ⟨r, rfl⟩ := hprefix.trans ht
  have hends := hended.between hreads hin
  rw [hlist] at hreads
  rw [hwhole, List.append_assoc, List.append_assoc]
  exact hreads.firstCode hfront hd.kind (Nat.le_of_eq hd.length.symm) hbehind hends r

end Tokens

namespace Source

variable {s : Source} {text : Text} {d : Token} {i : Nat}

theorem exists_leads (h : Source.parse text = .ok s) (hd : d.IsDeclare) (hi : s.tokens[i]? = some d)
    (hplain : s.tokens.Plain 0 i) :
    ∃ c cs a, s.tree.root.children = c :: cs ∧ s.tokens.Leads i c a := by
  have hf := faithful_of_parse h
  unfold Source.parse at h
  split at h
  · cases h
  split at h
  · cases h
  rename_i root hfile
  cases h
  obtain ⟨c, cs, a, hchildren, hleads⟩ := Tokens.exists_leads hfile hf.reads hd hi hplain
  obtain ⟨id, origin, decl, children⟩ := root
  obtain rfl : children = c :: cs := hchildren
  exact ⟨_, _, a, rfl, hleads.number 0⟩

namespace ClassScope

variable {sc : s.ClassScope} {p : Progress} {c : Node} {cs : List Node} {a : Anchor}

theorem print_rootAfter (style : Style) (hparse : Source.parse text = .ok s) {span body : Span}
    {last : Nat} (hst : sc.Stands span body last) :
    s.print style 0 (sc.rootAfter p) = s.tokens.between 0 body.start ++
      s.printList style (.ofDecl sc.node.decl) 0 sc.node.id body.stop ⟨body.start, none, true⟩
        (sc.childrenAfter p) ++ s.tokens.between body.stop s.tokens.size :=
  print_children (t := ⟨sc.rootAfter p, 0⟩) hparse rfl hst

/-- Where no imports come in front of it, the first node stays the first. -/
theorem front_leads (hnode : sc.node.children = c :: cs) (hc : s.tokens.Leads i c a)
    (hp : p.imports?.getD [] = []) : ∃ front, sc.front p = c :: front := by
  obtain ⟨before, hbefore⟩ : ∃ before, sc.before = c :: before := by
    have hsplit := sc.split
    rw [hnode] at hsplit
    cases hb : sc.before with
    | nil =>
      rw [hb] at hsplit
      obtain rfl : c = sc.cls := (List.cons.inj hsplit).1
      exact absurd (hc.isClass.symm.trans sc.isClass) nofun
    | cons b before =>
      rw [hb] at hsplit
      exact ⟨before, by rw [(List.cons.inj hsplit).1]⟩
  unfold front
  rw [hbefore]
  cases himports : p.imports? with
  | none => exact ⟨before, rfl⟩
  | some is =>
    rw [himports] at hp
    obtain rfl : is = [] := hp
    have hothers : Node.others (c :: before) = c :: Node.others before :=
      List.filter_cons_of_pos (by simp [hc.isImport])
    exact ⟨Node.others before, hothers⟩

/-- What stands in front of a namespace and what comes first without imports is printed as it was
read. -/
theorem print_leads (style : Style) (hparse : Source.parse text = .ok s)
    (hchildren : s.tree.root.children = c :: cs)
    (hc : s.tokens.Leads i c a) (hp : sc.path = [] → p.imports?.getD [] = []) :
    s.tokens.between 0 a.span.stop <+: s.print style 0 (sc.rootAfter p) := by
  have hf := faithful_of_parse hparse
  obtain ⟨span, body, last, hst⟩ := sc.stands hf
  have hprint := print_rootAfter (p := p) style hparse hst
  obtain ⟨rootSpan, rootBody, rootLast, hroot, hsiblings, -⟩ := hf.placed.body (c := c)
    (by rw [hchildren]; exact List.mem_cons_self)
  rw [hprint]
  rw [hchildren] at hsiblings
  cases hsiblings with
  | cons ho hi hloose hplaced hcs =>
    obtain rfl := Origin.anchored.inj (ho.symm.trans hc.origin)
    have hlt := hplaced.start_lt ho
    rcases sc.decl_cases with ⟨hpath, hnode⟩ | ⟨k, hpath, hk, hscope⟩
    · obtain ⟨front, hfront⟩ := front_leads (hnode ▸ hchildren) hc (hp hpath)
      obtain rfl : rootBody = body := by
        rw [← hnode, hst.origin] at hroot
        cases hroot
        rfl
      have hmem := Node.self_mem_subnodes s.tree.root
      have hkeeps : s.keeps s.tree.root.id ⟨rootBody.start, none, true⟩ c = true :=
        keeps_of_predecessor ho hi (predecessor?_child hf.distinct hmem
          (show s.tree.root.children = [] ++ c :: cs from hchildren)) rfl
      have hintact : s.Intact style c := intact_of_placed hf.distinct hplaced
        (Node.mem_subnodes_of_child (by rw [hchildren]; exact List.mem_cons_self) hmem)
      rw [childrenAfter, hfront, List.cons_append, hnode,
        printList_cons_kept ho hi (Nat.le_of_lt hlt) hkeeps, hintact _ _ ho, Tokens.slice]
      rw [← Tokens.between_append (Nat.zero_le _) (Nat.le_trans hi (Nat.le_of_lt hlt)),
        ← Tokens.between_append hi (Nat.le_of_lt hlt)]
      simp only [List.append_assoc, List.prefix_append_right_inj]
      exact List.prefix_append ..
    · have hnode : sc.node ∈ cs := by
        rw [hchildren] at hk
        cases k with
        | zero =>
          obtain rfl : c = sc.node := Option.some.inj hk
          rw [hc.isScope] at hscope
          cases hscope
        | succ k => exact List.mem_of_getElem? hk
      have hle := (hcs.bounds hnode hst.origin).1
      have hbody := hst.encloses.start_le
      rw [← Tokens.between_append (Nat.zero_le _) (Nat.le_trans hle hbody), List.append_assoc,
        List.append_assoc]
      exact List.prefix_append ..

theorem id_ne_of_imports (hf : s.Faithful text) (hchildren : s.tree.root.children = c :: cs)
    (hc : s.tokens.Leads i c a) (ops : List Operation) :
    ∀ n ∈ (ops.foldl sc.after {}).imports?.getD [], n.id ≠ c.id := by
  have hmem : c ∈ s.tree.root.subnodes :=
    Node.mem_subnodes_of_child (by rw [hchildren]; exact List.mem_cons_self)
      (Node.self_mem_subnodes _)
  refine imports_foldl (fun name heq => ?_) (fun n hn heq => ?_) ops
  · have := hf.fresh c hmem
    rw [← heq] at this
    exact absurd this (Nat.lt_irrefl _)
  · obtain ⟨hn, himport⟩ := List.mem_filter.1 hn
    have hn := Node.mem_subnodes_of_child hn sc.node_mem
    rw [List.inj_on_of_nodup_map hf.distinct hn hmem heq, hc.isImport] at himport
    cases himport

theorem not_keeps_of_ne (hd : s.tree.root.Distinct) (hchildren : s.tree.root.children = c :: cs)
    {n : Node} {i : Nat} (hne : n.id ≠ c.id) :
    s.keeps s.tree.root.id ⟨i, none, true⟩ n = false := by
  have hsome : ∀ (is : List Nat) (prev : Nat),
      Node.predecessor? n.id (some prev) is ≠ some none := by
    intro is
    induction is with
    | nil => rintro prev ⟨⟩
    | cons i is ih =>
      intro prev
      rw [Node.predecessor?]
      split
      · rintro ⟨⟩
      · exact ih i
  rw [keeps]
  split
  · rw [Source.predecessor?, hd.find? (Node.self_mem_subnodes _), Option.bind_some, hchildren,
      List.map_cons, Node.predecessor?, if_neg (Ne.symm hne)]
    simp [hsome]
  · rfl

/-- Imports that gather outside of namespaces come first. -/
theorem print_gathered (style : Style) (hparse : Source.parse text = .ok s)
    (hchildren : s.tree.root.children = c :: cs) (hpath : sc.path = []) {n : Node} {is : List Node}
    (himports : p.imports? = some (n :: is)) (hne : n.id ≠ c.id) :
    ∃ body, s.tokens.codeSpan? = some body ∧
      s.tokens.between 0 body.start ++ style.newline ++ s.print style 0 n <+:
        s.print style 0 (sc.rootAfter p) := by
  have hf := faithful_of_parse hparse
  obtain ⟨span, body, last, hst⟩ := sc.stands hf
  obtain ⟨rootBody, hbody, hroot⟩ := root_body hparse
  have hnode : sc.node = s.tree.root := by
    have := sc.reached
    rw [hpath] at this
    exact (Option.some.inj this).symm
  obtain rfl : rootBody = body := by
    rw [← hnode, hst.origin] at hroot
    cases hroot
    rfl
  refine ⟨rootBody, hbody, ?_⟩
  rw [print_rootAfter style hparse hst, childrenAfter,
    front, himports, hnode, root_decl hparse]
  simp only [List.cons_append, printList]
  rw [not_keeps_of_ne hf.distinct hchildren hne]
  have hgap : s.gap style .file 0 false ⟨rootBody.start, none, true⟩ n = style.newline := by
    simp [gap, Container.gap, Style.newlines, Style.indentation, Text.times]
  change _ <+: s.tokens.between 0 rootBody.start ++ (s.gap style .file 0 false _ n ++ _ ++ _) ++ _
  rw [hgap]
  simp only [List.append_assoc, List.prefix_append_right_inj]
  exact List.prefix_append ..

end ClassScope
end Source

/-- The first code of a file that was read is one of its tokens. -/
theorem Source.Faithful.exists_index {s : Source} {text : Text} {d : Token} (hf : s.Faithful text)
    (h : text.FirstCode d) : ∃ i, s.tokens[i]? = some d ∧ s.tokens.Plain 0 i := by
  have hfind := h.find? (hf.reads.run .start)
  obtain ⟨-, front, behind, hlist, hfront⟩ := List.find?_eq_some_iff_append.1 hfind
  have hget : ∀ k, s.tokens[k]? = (front ++ d :: behind)[k]? := fun k => by
    rw [← Array.getElem?_toList, hlist]
  refine ⟨front.length, by rw [hget]; simp, fun k _ hk => ?_⟩
  have hk' : s.tokens[k]? = some front[k] := by
    rw [hget, List.getElem?_append_left hk, List.getElem?_eq_getElem hk]
  rw [Tokens.isCode_of hk']
  simpa using hfront front[k] (List.getElem_mem hk)

namespace Editor

/-- Imports were asked for, they go to the top of the file, and there are some. -/
structure GathersOnTop (e : Editor) (ops : List Operation) : Prop where
  asked : ∃ names, .addImports names ∈ ops
  scope : e.working.root.classScope?.map Prod.fst = some []
  some : e.working.root.scopeImports ≠ []

variable {e e' : Editor} {s : Source} {sc : s.ClassScope} {p : Progress} {ops : List Operation}

theorem Stands.scopeImports (h : Stands sc p e) :
    e.working.root.scopeImports.map (Node.renumber (min s.tree.next)) = sc.importsAfter p := by
  have hat := Node.at?_renumber (min s.tree.next) sc.path e.working.root
  rw [h.root, Source.ClassScope.at?_rootAfter] at hat
  obtain ⟨n, hn, hchildren⟩ := Option.map_eq_some_iff.1 hat.symm
  rw [Node.scopeImports, h.classScope?]
  simp only [hn, Option.map_some, Option.getD_some]
  rw [← Node.filter_isImport_renumber, ← Node.children_renumber, hchildren]
  exact Source.ClassScope.filter_childrenAfter h.imports

/-- Imports gather from the first time that any are asked for. -/
theorem isSome_imports?_foldl (sc : s.ClassScope) (ops : List Operation) (p : Progress) :
    (ops.foldl sc.after p).imports?.isSome = true ↔
      p.imports?.isSome = true ∨ ∃ names, .addImports names ∈ ops := by
  induction ops generalizing p with
  | nil => simp
  | cons op ops ih =>
    rw [List.foldl_cons, ih]
    cases op with
    | addMethod m =>
      rw [Source.ClassScope.after]
      cases m.method? <;> simp
    | addImports names => simp [Source.ClassScope.after]

theorem Stands.gathersOnTop_iff (h : Stands sc (ops.foldl sc.after {}) e) :
    e.GathersOnTop ops ↔
      sc.path = [] ∧ ∃ n is, (ops.foldl sc.after {}).imports? = some (n :: is) := by
  have hscope := congrArg (Option.map Prod.fst) h.classScope?
  have hasked := isSome_imports?_foldl sc ops {}
  have himports := h.scopeImports
  rw [Source.ClassScope.importsAfter] at himports
  constructor
  · intro hg
    obtain ⟨is, his⟩ := Option.isSome_iff_exists.1 (hasked.2 (.inr hg.asked))
    refine ⟨Option.some.inj (hscope.symm.trans hg.scope), ?_⟩
    rw [his, Option.getD_some] at himports
    cases is with
    | nil => exact absurd (List.map_eq_nil_iff.1 himports) hg.some
    | cons n is => exact ⟨n, is, his⟩
  · rintro ⟨hpath, n, is, his⟩
    refine ⟨(hasked.1 (by rw [his]; rfl)).resolve_left Bool.false_ne_true, by rw [hscope, hpath]; rfl,
      fun hnil => ?_⟩
    rw [his, hnil] at himports
    cases himports

theorem Stands.exists_first {n : Node} {is : List Node} (hf : s.Faithful text) (h : Stands sc p e)
    (hp : p.imports? = some (n :: is)) : ∃ m ms, e.working.root.scopeImports = m :: ms ∧
      ∀ style level, s.print style level n = s.print style level m := by
  have himports := h.scopeImports
  rw [Source.ClassScope.importsAfter, hp, Option.getD_some] at himports
  obtain ⟨m, ms, hm, rfl, -⟩ := List.map_eq_cons_iff.1 himports
  exact ⟨m, ms, hm, fun style level =>
    Source.print_renumber hf (Source.renumbering_min s.tree.next) style level m⟩

theorem exists_classScope_of_applyAll {op : Operation} (hw : e.working = s.tree)
    (ha : e.applyAll (op :: ops) = .ok e') : Nonempty s.ClassScope := by
  rw [applyAll] at ha
  split at ha
  · cases ha
  · obtain ⟨sc, -⟩ := exists_classScope_of_apply (P := fun _ => True) hw ‹_›
    exact ⟨sc⟩

end Editor

end PhpGraft
