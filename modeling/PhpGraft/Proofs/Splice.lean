import PhpGraft.Proofs.Outline
import PhpGraft.Proofs.RoundTrip

/-!
Appending methods splices text into the file: what stands up to the end of the last member and what
stands from the closing brace on stays as it is.
-/
namespace PhpGraft

namespace Node

theorem id_modifyAt {f : Node → Node} (hf : ∀ n, (f n).id = n.id) (path : List Nat) (n : Node) :
    (modifyAt f path n).id = n.id := by
  cases path with
  | nil => exact hf n
  | cons => rfl

theorem origin_modifyAt {f : Node → Node} (hf : ∀ n, (f n).origin = n.origin) (path : List Nat)
    (n : Node) : (modifyAt f path n).origin = n.origin := by
  cases path with
  | nil => exact hf n
  | cons => rfl

def levelAt (level : Nat) : List Nat → Node → Nat
  | [], _ => level
  | i :: path, n =>
    (n.children[i]?.map (levelAt ((Container.ofDecl n.decl).childLevel level) path)).getD level

end Node

namespace Source

variable {s : Source} {style : Style} {level i last stop : Nat} {c : Container}

theorem printList_replace {p n m : Node} {before behind : List Node} {a : Anchor}
    (hd : s.tree.root.Distinct) (hp : p ∈ s.tree.root.subnodes)
    (hc : p.children = before ++ n :: behind) (hs : Siblings s.tokens i p.children last)
    (hid : m.id = n.id) (ho : n.origin = .anchored a) (hm : m.origin = n.origin)
    (hi : ∀ n ∈ p.children, s.Intact style n) :
    s.printList style c level p.id stop ⟨i, none, true⟩ (before ++ m :: behind) =
      s.tokens.between i a.span.start ++ s.print style (c.childLevel level) m ++
        (s.tokens.between a.span.stop last ++ s.tokens.between last stop) := by
  rw [hc] at hs
  obtain ⟨mid, hbefore, hs⟩ := hs.split
  cases hs with
  | @cons _ _ a' _ _ ho' hmid _ hpl hs =>
    obtain rfl : a' = a := Origin.anchored.inj (ho'.symm.trans ho)
    have hlt := hpl.start_lt ho
    have hpred := predecessor?_child hd hp hc
    have hfront : s.printList style c level p.id stop ⟨i, none, true⟩ (before ++ m :: behind) = _ :=
      printList_append hd hp (show p.children = [] ++ before ++ n :: behind from hc) hbefore rfl
        (fun k hk => hi k (by simp [hc, hk]))
    have hback : s.printList style c level p.id stop ⟨a'.span.stop, some m, true⟩ (behind ++ []) = _ :=
      printList_append hd hp (show p.children = (before ++ [n]) ++ behind ++ [] by simp [hc]) hs
        (by simp [hid]) (fun k hk => hi k (by simp [hc, hk]))
    have hk : s.keeps p.id ⟨mid, before.getLast?.or none, true⟩ m = true :=
      keeps_of_predecessor (hm.trans ho) hmid (hid ▸ hpred) (by simp)
    rw [hfront, printList_cons_kept (hm.trans ho) hmid (Nat.le_of_lt hlt) hk, ← List.append_nil behind,
      hback, printList, ← Tokens.between_append hbefore.le hmid]
    simp only [tail, Bool.not_true, Bool.false_and, List.append_assoc]
    rfl

/-- Where the node at a path is changed, all around it is printed as it was read. -/
theorem print_modifyAt (style : Style) (level : Nat) {f : Node → Node} (hd : s.tree.root.Distinct)
    (hid : ∀ n, (f n).id = n.id) (hf : ∀ n, (f n).origin = n.origin) {path : List Nat} {p n : Node}
    {a b : Anchor} (hp : p ∈ s.tree.root.subnodes) (hpl : Placed s.tokens p)
    (hb : p.origin = .anchored b) (hn : p.at? path = some n) (ha : n.origin = .anchored a) :
    s.print style level (p.modifyAt f path) =
      s.tokens.between b.span.start a.span.start ++ s.print style (p.levelAt level path) (f n) ++
        s.tokens.between a.span.stop b.span.stop := by
  induction path generalizing p b level with
  | nil =>
    cases hn
    obtain rfl : b = a := Origin.anchored.inj (hb.symm.trans ha)
    rw [Tokens.between_self, Tokens.between_self]
    simp only [Node.modifyAt, Node.levelAt, List.nil_append, List.append_nil]
  | cons i path ih =>
    obtain ⟨m, hm, hnode⟩ := Option.bind_eq_some_iff.1 hn
    cases hpl with
    | leaf => cases hm
    | @container id decl span body children last hdecl hs he =>
      cases hb
      have hmem : m ∈ children := List.mem_of_getElem? hm
      have hsub : ∀ k ∈ children, k ∈ s.tree.root.subnodes :=
        fun k hk => Node.mem_subnodes_of_child hk hp
      have hmpl := hs.placed m hmem
      obtain ⟨c, hc⟩ := hmpl.anchor
      obtain ⟨hlt, rfl⟩ := List.getElem?_eq_some_iff.1 hm
      have hsplit : children = children.take i ++ children[i] :: children.drop (i + 1) := by
        rw [← List.drop_eq_getElem_cons hlt, List.take_append_drop]
      have hrep : s.printList style (.ofDecl decl) level id body.stop ⟨body.start, none, true⟩
          (children.take i ++ children[i].modifyAt f path :: children.drop (i + 1)) = _ :=
        printList_replace hd hp hsplit hs (Node.id_modifyAt hid path _) hc
          (Node.origin_modifyAt hf path _)
          (fun k hk => intact_of_placed hd (hs.placed k hk) (hsub k hk))
      have hlevel : Node.levelAt level (i :: path) ⟨id, .anchored ⟨span, some body⟩, decl, children⟩ =
          Node.levelAt ((Container.ofDecl decl).childLevel level) path children[i] := by
        simp only [Node.levelAt, List.getElem?_eq_getElem hlt, Option.map_some, Option.getD_some]
      have hout := hs.bounds hmem hc
      have hin := hmpl.bounds hnode hc ha
      have h1 := he.start_le
      have h2 := he.last_le
      have h3 := he.stop_le
      rw [Node.modifyAt, print]
      simp only [Origin.anchor?]
      rw [List.modify_eq_take_cons_drop hlt, hrep, ih _ (hsub _ hmem) hmpl hc hnode, hlevel,
        ← Tokens.between_append h1 (Nat.le_trans hout.1 hin.1),
        ← Tokens.between_append hout.1 hin.1,
        ← Tokens.between_append hin.2 (Nat.le_trans hout.2 (Nat.le_trans h2 h3)),
        ← Tokens.between_append hout.2 (Nat.le_trans h2 h3), ← Tokens.between_append h2 h3]
      simp only [List.append_assoc]

end Source

def NewMethod.method? (m : NewMethod) : Except ParseError Method :=
  match parseFragment m.body with
  | .error e => .error e
  | .ok body =>
    .ok { visibility? := some m.visibility, modifiers := [], byRef := false, name := m.name,
          params := [], returnType? := none, body? := some body, doc? := some m.doc.render }

def Node.ofMethods (next : Nat) : List Method → List Node
  | [] => []
  | m :: ms => ⟨next, .synthesized, .method m, []⟩ :: ofMethods (next + 1) ms

namespace Editor

def addMethods (e : Editor) : List NewMethod → Except Error Editor
  | [] => .ok e
  | m :: ms =>
    match e.addMethod m with
    | .error fault => .error fault
    | .ok e => e.addMethods ms

variable {e e' : Editor} {m : NewMethod} {ms : List NewMethod} {scope : List Nat} {classAt : Nat}

theorem addMethod_eq (h : e.addMethod m = .ok e') :
    ∃ scope classAt d, e.working.root.classScope? = some (scope, classAt) ∧ m.method? = .ok d ∧
      Name.isIdentifier m.name = true ∧
      e' = { e with working :=
        ⟨Node.appendAt (scope ++ [classAt]) (Node.ofMethods e.working.next [d]) e.working.root,
          e.working.next + 1⟩ } := by
  unfold addMethod at h
  split at h
  · cases h
  rename_i hname
  split at h
  · cases h
  rename_i body hbody
  split at h
  · cases h
  rename_i scope classAt hs
  cases h
  refine ⟨scope, classAt, _, hs, ?_, by simpa using hname, rfl⟩
  rw [NewMethod.method?, hbody]

/-- A run of additions puts the methods behind the members of one class, in the order of the
calls. -/
theorem addMethods_eq (h : e.addMethods ms = .ok e')
    (hs : e.working.root.classScope? = some (scope, classAt)) :
    ∃ ds, List.Forall₂ (fun m d => m.method? = .ok d) ms ds ∧ e'.source = e.source ∧
      e'.style = e.style ∧
      e'.working.root =
        Node.appendAt (scope ++ [classAt]) (Node.ofMethods e.working.next ds) e.working.root := by
  induction ms generalizing e with
  | nil =>
    cases h
    exact ⟨[], .nil, rfl, rfl, (Node.appendAt_nil _ _).symm⟩
  | cons m ms ih =>
    rw [addMethods] at h
    split at h
    · cases h
    rename_i e₁ hm
    obtain ⟨scope', classAt', d, hs', hd, -, rfl⟩ := addMethod_eq hm
    obtain ⟨rfl, rfl⟩ := Prod.mk.inj (Option.some.inj (hs'.symm.trans hs))
    obtain ⟨ds, hds, hsource, hstyle, hroot⟩ := ih h
      ((Node.classScope?_congr (Node.outline_appendAt _ hs)).trans hs)
    refine ⟨d :: ds, .cons hd hds, hsource, hstyle, ?_⟩
    rw [hroot, Node.appendAt_appendAt]
    rfl

end Editor

/-- Methods behind the last member, each set off as in generated code. -/
def Method.appendix (style : Style) (level : Nat) (isFirst : Bool) : List Method → Text
  | [] => []
  | m :: ms =>
    style.newlines (if isFirst then 1 else 2) ++ style.indentation level ++ m.print style level ++
      appendix style level false ms

/-- Where methods are added: behind the member that ends at `last`, or behind the opening brace if
there is none. -/
structure Site where
  /-- Of the class. -/
  level : Nat
  isEmpty : Bool
  last : Nat
  /-- Index of the closing brace. -/
  closing : Nat

namespace Source

/-- The place for new methods in the class being edited. -/
def site? (s : Source) : Option Site :=
  s.tree.root.classScope?.bind fun (scope, classAt) =>
    (s.tree.root.at? (scope ++ [classAt])).bind fun c =>
      (c.origin.anchor?.bind Anchor.body?).map fun body =>
        { level := s.tree.root.levelAt 0 (scope ++ [classAt]), isEmpty := c.children.isEmpty,
          last := Node.lastStop body.start c.children, closing := body.stop }

/-- What stands between the last method and the closing brace. -/
def siteTail (s : Source) (style : Style) (site : Site) : Text :=
  let rest := s.tokens.between site.last site.closing
  if rest.contains '\n' then rest
  else style.newline ++ style.indentation site.level ++ rest.trim

variable {s : Source} {style : Style} {level i stop parent next : Nat}

theorem gap_block_method (prev? : Option Decl) (d : Method) :
    Container.block.gap prev? (.method d) = if prev?.isNone then 1 else 2 := by
  cases prev? with
  | none => rfl
  | some p => cases p <;> rfl

theorem printList_methods (prev? : Option Node) (kept : Bool) (ds : List Method) :
    s.printList style .block level parent stop ⟨i, prev?, kept⟩ (Node.ofMethods next ds) =
      Method.appendix style (level + 1) prev?.isNone ds ++
        s.tail style .block level ⟨i, none, kept && ds.isEmpty⟩ stop := by
  induction ds generalizing prev? kept next with
  | nil =>
    rw [Node.ofMethods, printList, List.isEmpty_nil, Bool.and_true]
    rfl
  | cons d ds ih =>
    rw [Node.ofMethods, printList]
    have hk : s.keeps parent ⟨i, prev?, kept⟩ ⟨next, .synthesized, .method d, []⟩ = false := rfl
    have hp : s.print style (level + 1) ⟨next, .synthesized, .method d, []⟩ =
        d.print style (level + 1) := rfl
    simp only [hk, Container.childLevel, hp, gap, Cursor.pass, Origin.anchor?, gap_block_method]
    rw [ih]
    simp [Method.appendix]

theorem print_appended (style : Style) (level next : Nat) {p : Node} {span body : Span} {last : Nat}
    {ds : List Method} (hd : s.tree.root.Distinct) (hp : p ∈ s.tree.root.subnodes) (hcl : p.isClass = true)
    (ho : p.origin = .anchored ⟨span, some body⟩) (hs : Siblings s.tokens body.start p.children last)
    (he : Encloses s.tokens p.decl span body last) (hds : ds ≠ []) :
    s.print style level (p.withChildren (· ++ Node.ofMethods next ds)) =
      s.tokens.between span.start last ++
        Method.appendix style (level + 1) p.children.isEmpty ds ++
        s.siteTail style ⟨level, p.children.isEmpty, last, body.stop⟩ ++
        s.tokens.between body.stop span.stop := by
  obtain ⟨id, origin, decl, children⟩ := p
  have hblock : Container.ofDecl decl = .block := Container.ofDecl_of_isClass hcl
  have hsub : ∀ k ∈ children, k ∈ s.tree.root.subnodes :=
    fun k hk => Node.mem_subnodes_of_child hk hp
  have hlist : s.printList style .block level id body.stop ⟨body.start, none, true⟩
      (children ++ Node.ofMethods next ds) = _ :=
    printList_append hd hp (show children = [] ++ children ++ [] by simp) hs rfl
      (fun n hn => intact_of_placed hd (hs.placed n hn) (hsub n hn))
  have hfirst : (children.getLast?.or none).isNone = children.isEmpty := by
    cases children <;> simp
  have htail : s.tail style .block level ⟨last, none, true && ds.isEmpty⟩ body.stop =
      s.siteTail style ⟨level, children.isEmpty, last, body.stop⟩ := by
    rw [List.isEmpty_eq_false_iff.2 hds, tail, siteTail]
    cases (s.tokens.between last body.stop).contains '\n' <;> rfl
  rw [printList_methods, hfirst, htail] at hlist
  dsimp only at ho
  subst ho
  rw [Node.withChildren, print]
  simp only [Origin.anchor?, hblock]
  rw [hlist, ← Tokens.between_append he.start_le hs.le]
  simp only [List.append_assoc]

end Source

/-- The class being edited stands between braces, and methods are added in front of the closing
one. -/
theorem Source.site?_eq {s : Source} {text : Text} {scope : List Nat} {classAt : Nat}
    (hf : s.Faithful text) (h : s.tree.root.classScope? = some (scope, classAt)) :
    ∃ c span body last, s.tree.root.at? (scope ++ [classAt]) = some c ∧ c.isClass = true ∧
      c.origin = .anchored ⟨span, some body⟩ ∧ Siblings s.tokens body.start c.children last ∧
      Encloses s.tokens c.decl span body last ∧
      s.site? = some
        ⟨s.tree.root.levelAt 0 (scope ++ [classAt]), c.children.isEmpty, last, body.stop⟩ := by
  obtain ⟨c, hc, hcl⟩ := Node.at?_classScope? h
  cases hf.placed.at? hc with
  | leaf hdecl =>
    rw [Decl.isContainer_of_isClass hcl] at hdecl
    cases hdecl
  | @container id decl span body children last hdecl hs he =>
    refine ⟨_, span, body, last, hc, hcl, rfl, hs, he, ?_⟩
    simp only [Source.site?, h, hc, Option.bind_some, Origin.anchor?, Option.map_some, ← hs.last_eq]

/-- The text of the source with methods behind the last member of the class or, if it has none,
behind its opening brace; from the closing brace on all is as it was. -/
structure Editor.Spliced (e e' : Editor) (text : Text) (site : Site) (ds : List Method) : Prop where
  place : e.source.site? = some site
  opened : site.isEmpty = true → e.source.tokens.isPunct (site.last - 1) '{' = true
  closed : e.source.tokens.isPunct site.closing '}' = true
  source : text = e.source.tokens.between 0 site.last ++
    e.source.tokens.between site.last site.closing ++
    e.source.tokens.between site.closing e.source.tokens.size
  render : e'.render = e.source.tokens.between 0 site.last ++
    Method.appendix e.style (site.level + 1) site.isEmpty ds ++ e.source.siteTail e.style site ++
    e.source.tokens.between site.closing e.source.tokens.size

theorem Editor.exists_spliced {text : Text} {s : Source} {style : Style} {e' : Editor} {scope : List Nat}
    {classAt : Nat} {ds : List Method} (hparse : Source.parse text = .ok s)
    (hscope : s.tree.root.classScope? = some (scope, classAt)) (hne : ds ≠ [])
    (hsource : e'.source = s) (hstyle : e'.style = style) (hworking : e'.working.root =
      Node.appendAt (scope ++ [classAt]) (Node.ofMethods s.tree.next ds) s.tree.root) :
    ∃ site, Spliced ⟨s, s.tree, style⟩ e' text site ds := by
  have hf := Source.faithful_of_parse hparse
  obtain ⟨rootBody, hroot⟩ := Source.root_origin hparse
  obtain ⟨c, span, body, last, hc, hcl, ho, hs, he, hsite⟩ := Source.site?_eq hf hscope
  obtain ⟨-, hopen, -, hclose⟩ := he.braces (Container.ofDecl_of_isClass hcl)
  have hbounds := hf.placed.bounds hc hroot ho
  have hprint := Source.print_modifyAt style 0
    (f := .withChildren (· ++ Node.ofMethods s.tree.next ds)) hf.distinct (fun _ => rfl)
    (fun _ => rfl) (Node.self_mem_subnodes _) hf.placed hroot hc ho
  have hclass := Source.print_appended style
    (s.tree.root.levelAt 0 (scope ++ [classAt])) s.tree.next hf.distinct
    (Node.mem_subnodes_at? (Node.self_mem_subnodes _) hc) hcl ho hs he hne
  have hstop : body.stop ≤ s.tokens.size := Nat.le_trans he.stop_le he.le_size
  refine ⟨_, hsite, fun hempty => ?_, hclose, ?_, ?_⟩
  · rw [List.isEmpty_iff.1 hempty] at hs
    cases hs
    exact hopen
  · rw [Tokens.between_append (Nat.zero_le _) he.last_le,
      Tokens.between_append (Nat.zero_le _) hstop, Tokens.between_size, hf.spells]
  · rw [Editor.render, hsource, hstyle, hworking]
    refine hprint.trans ?_
    have hstart : span.start ≤ last := Nat.le_trans he.start_le hs.le
    rw [hclass, ← Tokens.between_append hbounds.1 hstart,
      ← Tokens.between_append he.stop_le he.le_size]
    simp only [List.append_assoc]

theorem Editor.exists_classScope? {e e' : Editor} {ms : List NewMethod} (hms : ms ≠ [])
    (ha : e.addMethods ms = .ok e') :
    ∃ scope classAt, e.working.root.classScope? = some (scope, classAt) := by
  cases ms with
  | nil => exact absurd rfl hms
  | cons m ms =>
    rw [Editor.addMethods] at ha
    split at ha
    · cases ha
    · obtain ⟨scope, classAt, _, hs, -⟩ := Editor.addMethod_eq ‹_›
      exact ⟨scope, classAt, hs⟩

/-- Added methods are spliced into the text that was read, in the order of the calls. -/
theorem render_addMethods {text : Text} {style : Style} {e e' : Editor} {ms : List NewMethod}
    (h : Editor.parse text style = .ok e) (hms : ms ≠ []) (ha : e.addMethods ms = .ok e') :
    ∃ site ds, List.Forall₂ (fun m d => m.method? = .ok d) ms ds ∧ e.Spliced e' text site ds := by
  obtain ⟨s, hparse, rfl⟩ := Editor.parse_eq h
  obtain ⟨scope, classAt, hscope⟩ := Editor.exists_classScope? hms ha
  obtain ⟨ds, hds, hsource, hstyle, hworking⟩ := Editor.addMethods_eq ha hscope
  have hne : ds ≠ [] := by
    rintro rfl
    cases hds
    exact hms rfl
  obtain ⟨site, hspliced⟩ := Editor.exists_spliced hparse hscope hne hsource hstyle hworking
  exact ⟨site, ds, hds, hspliced⟩

/-- Two methods for a class without members, in a namespace with braces. -/
theorem render_addMethods_emptyClass :
    ∃ e e' site ds, Editor.parse "<?php\nnamespace A \x7b\n  class B \x7b/**/ \x7d \x7d" = .ok e ∧
      e.addMethods [{ name := "f" }, { name := "g", body := "return 1;" }] = .ok e' ∧
      e.Spliced e' "<?php\nnamespace A \x7b\n  class B \x7b/**/ \x7d \x7d" site ds := by
  have hrun : (Editor.parse "<?php\nnamespace A \x7b\n  class B \x7b/**/ \x7d \x7d").toOption.any
      (fun e => (e.addMethods [{ name := "f" }, { name := "g", body := "return 1;" }]).isOk) =
      true := by
    decide +kernel
  obtain ⟨e, h, hok⟩ := Steps.exists_of_any hrun
  obtain ⟨e', ha⟩ := Steps.exists_of_isOk hok
  obtain ⟨site, ds, -, hspliced⟩ := render_addMethods h (List.cons_ne_nil _ _) ha
  exact ⟨e, e', site, ds, h, ha, hspliced⟩

end PhpGraft
