import PhpGraft.Editor.InPlace
import PhpGraft.Proofs.Declarations
import PhpGraft.Proofs.Progress
import PhpGraft.Proofs.Steps

/-!
Sessions with one editor, in which operations may fail. A failing operation leaves no trace, the
same class is edited all the time, and what an operation is answered with is decided by the source.
-/
namespace PhpGraft

namespace Node

/-- The numbers of the node that holds the class being edited and of that class. -/
def editedIds? (root : Node) : Option (Nat × Nat) :=
  root.classScope?.bind fun (scope, classAt) =>
    (root.at? scope).bind fun n => n.children[classAt]?.map fun c => (n.id, c.id)

/-- The class is detached with the imports, whether it was before or not. -/
theorem withImports_modify_detach (is : List Node) {ns : List Node} {k : Nat} {c : Node}
    (hc : ns[k]? = some c) : withImports is k (ns.modify k detach) = withImports is k ns := by
  obtain ⟨before, behind, rfl, rfl⟩ := split_of_getElem? hc
  rw [modify_append_cons, withImports_split, withImports_split, detach_detach]

theorem editedIds?_eq {root n c : Node} {scope : List Nat} {before behind : List Node}
    (h : root.classScope? = some (scope, before.length)) (hn : root.at? scope = some n)
    (hs : n.children = before ++ c :: behind) : root.editedIds? = some (n.id, c.id) := by
  rw [editedIds?, h, Option.bind_some]
  dsimp only
  rw [hn, Option.bind_some, hs, List.getElem?_append_right (Nat.le_refl _), Nat.sub_self]
  rfl

theorem editedIds?_renumber (f : Nat → Nat) (root : Node) :
    (root.renumber f).editedIds? = root.editedIds?.map (Prod.map f f) := by
  rw [editedIds?, editedIds?, classScope?_congr (outline_renumber f root)]
  cases root.classScope? with
  | none => rfl
  | some place =>
    simp only [Option.bind_some, at?_renumber]
    cases root.at? place.1 with
    | none => rfl
    | some n =>
      simp only [Option.map_some, Option.bind_some, children_renumber, List.getElem?_map, id_renumber]
      cases n.children[place.2]? with
      | none => rfl
      | some c => simp only [Option.map_some, id_renumber, Prod.map]

end Node

/-- Whether there is a class to edit. -/
def Source.found (s : Source) : Except Error Unit :=
  if s.tree.root.classScope?.isSome then .ok () else .error .noClass

/-- What a file answers an operation with. -/
def Source.answer (s : Source) : Operation → Except Error Unit
  | .addMethod m =>
    if Name.isIdentifier m.name = false then .error (.invalidName .method m.name)
    else match parseFragment m.body with
      | .error fault => .error (.parse fault)
      | .ok _ => s.found
  | .addImports names =>
    match (names.map Editor.plainName).find? (!Name.isQualified ·) with
    | some name => .error (.invalidName .classLike name)
    | none => s.found

def Progress.started (p : Progress) : Prop := p.imports?.isSome = true ∨ p.methods ≠ []

namespace Source.ClassScope

variable {s : Source} {text : Text} {sc : s.ClassScope} {p : Progress}

theorem editedIds?_rootAfter (h : ∀ n ∈ p.imports?.getD [], n.isImport = true) :
    (sc.rootAfter p).editedIds? = some (sc.node.id, sc.cls.id) := by
  have hid : (sc.middle p).id = sc.cls.id := by
    unfold middle
    split <;> rfl
  rw [Node.editedIds?_eq (classScope?_rootAfter h) at?_rootAfter rfl, hid]
  rfl

theorem declaredClasses_rootAfter (h : ∀ n ∈ p.imports?.getD [], n.isImport = true) :
    (sc.rootAfter p).declaredClasses = s.tree.root.declaredClasses := by
  obtain ⟨imports?, methods⟩ := p
  have hnone : (sc.rootAfter ⟨none, methods⟩).declaredClasses = s.tree.root.declaredClasses := by
    rw [rootAfter_none, Node.declaredClasses_congr (Node.outline_appendAt _ sc.edited)]
  cases imports? with
  | none => exact hnone
  | some is =>
    have hscope : (sc.rootAfter ⟨none, methods⟩).classScope? = some (sc.path, sc.before.length) :=
      classScope?_rootAfter fun _ hn => nomatch hn
    rw [rootAfter_some]
    exact (Node.declaredClasses_withImports hscope at?_rootAfter rfl h).trans hnone

/-- The class is in another state once anything was added: it has more members, or it is
detached. -/
theorem rootAfter_ne (hf : s.Faithful text) (h : p.started) : sc.rootAfter p ≠ s.tree.root := by
  intro he
  have hat : sc.node.withChildren (fun _ => sc.childrenAfter p) = sc.node := by
    have hroot : (sc.rootAfter p).at? sc.path = some _ := at?_rootAfter
    rw [he, sc.reached] at hroot
    exact (Option.some.inj hroot).symm
  have hchildren : sc.childrenAfter p = sc.before ++ sc.cls :: sc.behind :=
    (congrArg Node.children hat).trans sc.split
  obtain ⟨imports?, methods⟩ := p
  cases imports? with
  | none =>
    have hcls := (List.cons.inj (List.append_cancel_left hchildren)).1
    have hmembers : sc.cls.children ++ methods.map s.newMethod = sc.cls.children :=
      congrArg Node.children hcls
    rw [List.append_right_eq_self, List.map_eq_nil_iff] at hmembers
    exact h.elim nofun fun hne => hne hmembers
  | some is =>
    have hmem : (sc.extended ⟨some is, methods⟩).detach ∈ sc.node.children := by
      rw [sc.split, ← hchildren]
      exact List.mem_append_right _ List.mem_cons_self
    obtain ⟨a, ha⟩ := (hf.placed.of_mem_subnodes _ (Node.mem_subnodes_of_child hmem sc.node_mem)).anchor
    obtain ⟨b, hb⟩ := (hf.placed.of_mem_subnodes _ (Node.mem_subnodes_of_child sc.cls_mem sc.node_mem)).anchor
    have hdetach : (sc.extended ⟨some is, methods⟩).detach.origin = .detached b := by
      change sc.cls.origin.detach = _
      rw [hb]
      rfl
    rw [hdetach] at ha
    cases ha

theorem isContainer_node (hf : s.Faithful text) : sc.node.decl.isContainer = true := by
  have hmem := sc.cls_mem
  have hplaced := hf.placed.of_mem_subnodes sc.node sc.node_mem
  generalize sc.node = n at hmem hplaced
  cases hplaced with
  | leaf => cases hmem
  | container hd => exact hd

end Source.ClassScope

namespace Edit

open Steps

variable {e : Editor}

theorem exec_newNode (decl : Decl) (e : Editor) : exec (newNode decl) e =
    (.ok (e.working.synthesize decl []),
      { e with working := ⟨e.working.root, e.working.next + 1⟩ }) := rfl

theorem exec_get (e : Editor) : exec (get : Edit Editor) e = (.ok e, e) := rfl

theorem exec_classScope (e : Editor) : exec classScope e =
    match e.working.root.classScope? with
    | some place => (.ok place, e)
    | none => (.error .noClass, e) := by
  rw [classScope, exec_bind, exec_get]
  dsimp only
  cases e.working.root.classScope? <;> rfl

theorem exec_childrenAt (path : List Nat) (e : Editor) : exec (childrenAt path) e =
    (.ok (((e.working.root.at? path).map Node.children).getD []), e) := rfl

theorem exec_changeAt (f : Node → Node) (path : List Nat) (e : Editor) : exec (changeAt f path) e =
    (.ok (), { e with working := ⟨e.working.root.modifyAt f path, e.working.next⟩ }) := rfl

theorem exec_changeChildren {f : List Node → List Node} {path : List Nat} {n : Node}
    (hn : e.working.root.at? path = some n) (hc : n.decl.isContainer = true) :
    exec (changeChildren f path) e = (.ok (),
      { e with working := ⟨e.working.root.modifyAt (.withChildren f) path, e.working.next⟩ }) := by
  rw [changeChildren, exec_bind, exec_get]
  dsimp only
  rw [hn]
  dsimp only
  rw [if_pos hc, exec_changeAt]

theorem exec_newImports (names : List Text) (e : Editor) : exec (newImports names) e =
    (.ok (Node.importsOf e.working.next names),
      { e with working := ⟨e.working.root, e.working.next + names.length⟩ }) := by
  induction names generalizing e with
  | nil => rfl
  | cons name names ih =>
    rw [newImports, exec_bind, exec_newNode]
    dsimp only
    rw [exec_bind, ih]
    dsimp only
    rw [exec_pure, Nat.add_assoc, Nat.add_comm 1]
    rfl

/-- An editor in which the class being edited stands in a node that can have children. -/
def Sound (e : Editor) : Prop :=
  ∀ scope classAt n, e.working.root.classScope? = some (scope, classAt) →
    e.working.root.at? scope = some n → n.decl.isContainer = true

/-- What an operation on one editor comes to, when the operation either gives another editor or
fails. -/
def settle (e : Editor) : Except Error Editor → Except Error Unit × Editor
  | .ok e' => (.ok (), e')
  | .error fault => (.error fault, e)

theorem settle_error {r : Except Error Editor} {fault : Error} {e' : Editor}
    (h : settle e r = (.error fault, e')) : e = e' := by
  cases r with
  | ok e'' => cases h
  | error fault' => exact (Prod.mk.inj h).2

/-- The step behind the new number finds the class. -/
theorem exec_addMethod (m : NewMethod) (e : Editor) :
    exec (addMethod m) e = settle e (e.addMethod m) := by
  unfold addMethod Editor.addMethod
  cases hname : Name.isIdentifier m.name with
  | false => rfl
  | true =>
    cases hbody : parseFragment m.body with
    | error fault => rfl
    | ok body =>
      simp only [Bool.not_true, Bool.false_eq_true, if_false]
      rw [exec_bind, exec_classScope]
      cases hs : e.working.root.classScope? with
      | none => rfl
      | some place =>
        obtain ⟨scope, classAt⟩ := place
        obtain ⟨c, hc, hcl⟩ := Node.at?_classScope? hs
        dsimp only
        rw [exec_bind, exec_newNode]
        exact exec_changeChildren hc (Decl.isContainer_of_isClass hcl)

/-- The class is detached before its scope is found again. -/
theorem exec_addImports (h : Sound e) (names : List Text) :
    exec (addImports names) e = settle e (e.addImports names) := by
  unfold addImports Editor.addImports
  rw [exec_bind]
  cases hnames : names.mapM Editor.importedName with
  | error fault => rfl
  | ok qs =>
    change exec (classScope >>= _) e = _
    rw [exec_bind, exec_classScope]
    cases hs : e.working.root.classScope? with
    | none => rfl
    | some place =>
      obtain ⟨scope, classAt⟩ := place
      dsimp only
      rw [exec_bind, exec_childrenAt]
      dsimp only
      rw [exec_bind, exec_newImports]
      dsimp only
      rw [exec_bind, exec_changeAt]
      dsimp only
      obtain ⟨c, hc, -⟩ := Node.at?_classScope? hs
      rw [Node.at?_append] at hc
      obtain ⟨n, hn, hc⟩ := Option.bind_eq_some_iff.1 hc
      obtain ⟨d, hd, -⟩ := Option.bind_eq_some_iff.1 hc
      have hdetached : (e.working.root.modifyAt .detach (scope ++ [classAt])).at? scope =
          some (n.modifyAt .detach [classAt]) := by
        rw [Node.modifyAt_append]
        exact Node.at?_modifyAt hn
      have hroot : ∀ is : List Node, (e.working.root.modifyAt .detach (scope ++ [classAt])).modifyAt
          (.withChildren (Node.withImports is classAt)) scope =
          e.working.root.modifyAt (.withChildren (Node.withImports is classAt)) scope := by
        intro is
        rw [Node.modifyAt_append, Node.modifyAt_modifyAt]
        exact Node.modifyAt_congr hn
          (congrArg (Node.mk _ _ _) (Node.withImports_modify_detach is hd))
      have hcontainer : (n.modifyAt .detach [classAt]).decl.isContainer = true :=
        h scope classAt n hs hn
      rw [exec_changeChildren hdetached hcontainer]
      simp only [hroot, Node.length_importsOf]
      rfl

theorem exec_apply (h : Sound e) (op : Operation) : exec (apply op) e = settle e (e.apply op) := by
  cases op with
  | addMethod m => exact exec_addMethod m e
  | addImports names => exact exec_addImports h names

end Edit

namespace Editor

variable {e e' : Editor} {s : Source} {text : Text} {edited : Bool} {op : Operation}

/-- The first name that is none is what importing fails with. -/
theorem mapM_importedName_eq (names : List Text) : names.mapM importedName =
    match (names.map plainName).find? (!Name.isQualified ·) with
    | some name => .error (.invalidName .classLike name)
    | none => .ok (names.map plainName) := by
  induction names with
  | nil => rfl
  | cons name names ih =>
    rw [List.mapM_cons, importedName_eq, ih, List.map_cons, List.find?_cons]
    cases Name.isQualified (plainName name) with
    | false => rfl
    | true => cases (names.map plainName).find? (!Name.isQualified ·) <;> rfl

/-- Whether an operation succeeds depends on the tree only as far as there is a class in it. -/
theorem apply_answer (op : Operation)
    (h : e.working.root.classScope?.isSome = s.tree.root.classScope?.isSome) :
    (e.apply op).map (fun _ => ()) = s.answer op := by
  have hfound : s.found = if e.working.root.classScope?.isSome then .ok () else .error .noClass := by
    rw [h, Source.found]
  cases op with
  | addMethod m =>
    rw [Source.answer, hfound]
    change (e.addMethod m).map _ = _
    unfold addMethod
    cases Name.isIdentifier m.name with
    | false => rfl
    | true =>
      cases parseFragment m.body with
      | error fault => rfl
      | ok body => cases e.working.root.classScope? <;> rfl
  | addImports names =>
    rw [Source.answer, hfound]
    change (e.addImports names).map _ = _
    unfold addImports
    rw [mapM_importedName_eq]
    cases (names.map plainName).find? (!Name.isQualified ·) with
    | some name => rfl
    | none => cases e.working.root.classScope? <;> rfl

/-- An editor that operations may have been tried on; `edited` tells whether any has succeeded. -/
structure Reached (s : Source) (edited : Bool) (e : Editor) : Prop where
  source : e.source = s
  unedited : edited = false → e.working = s.tree
  edited : edited = true → ∃ (sc : s.ClassScope) (p : Progress), Stands sc p e ∧ p.started

/-- A file that was just opened. -/
theorem reached_read (s : Source) (style : Style) : Reached s false ⟨s, s.tree, style⟩ :=
  ⟨rfl, fun _ => rfl, nofun⟩

theorem Reached.stands (hf : s.Faithful text) (h : Reached s edited e) {place : List Nat × Nat}
    (hs : e.working.root.classScope? = some place) :
    ∃ (sc : s.ClassScope) (p : Progress), Stands sc p e := by
  cases edited with
  | true =>
    obtain ⟨sc, p, hstands, -⟩ := h.edited rfl
    exact ⟨sc, p, hstands⟩
  | false =>
    have hw := h.unedited rfl
    rw [hw] at hs
    obtain ⟨sc, -, -⟩ := Source.exists_classScope hs
    exact ⟨sc, {}, stands_read hf sc h.source hw⟩

theorem Reached.isSome_classScope? (h : Reached s edited e) :
    e.working.root.classScope?.isSome = s.tree.root.classScope?.isSome := by
  cases edited with
  | true =>
    obtain ⟨sc, p, hstands, -⟩ := h.edited rfl
    rw [hstands.classScope?, sc.edited]
    rfl
  | false => rw [h.unedited rfl]

theorem Reached.sound (hf : s.Faithful text) (h : Reached s edited e) : Edit.Sound e := by
  intro scope classAt n hs hn
  obtain ⟨sc, p, hstands⟩ := h.stands hf hs
  obtain ⟨rfl, rfl⟩ := Prod.mk.inj (Option.some.inj (hs.symm.trans hstands.classScope?))
  have hat := Node.at?_renumber (min s.tree.next) sc.path e.working.root
  rw [hstands.root, Source.ClassScope.at?_rootAfter, hn] at hat
  rw [← Node.decl_renumber (min s.tree.next), ← Option.some.inj hat]
  exact Source.ClassScope.isContainer_node hf

/-- An operation that succeeds leaves something behind. -/
theorem started_after {sc : s.ClassScope} {p : Progress} (h : e.apply op = .ok e') :
    (sc.after p op).started := by
  cases op with
  | addMethod m =>
    obtain ⟨-, -, d, -, hd, -, -⟩ := addMethod_eq h
    rw [Source.ClassScope.after, hd]
    exact .inr (List.append_ne_nil_of_right_ne_nil _ (List.cons_ne_nil _ _))
  | addImports names => exact .inl rfl

theorem Reached.apply (hf : s.Faithful text) (h : Reached s edited e) (ha : e.apply op = .ok e') :
    Reached s true e' ∧ e'.style = e.style := by
  have hs : ∃ place, e.working.root.classScope? = some place := by
    cases op with
    | addMethod m =>
      obtain ⟨scope, classAt, -, hs, -⟩ := addMethod_eq ha
      exact ⟨_, hs⟩
    | addImports names =>
      obtain ⟨-, scope, classAt, -, -, hs, -⟩ := addImports_eq ha
      exact ⟨_, hs⟩
  obtain ⟨place, hs⟩ := hs
  obtain ⟨sc, p, hstands⟩ := h.stands hf hs
  obtain ⟨hafter, hstyle⟩ := hstands.apply ha
  exact ⟨⟨hafter.source, nofun, fun _ => ⟨sc, _, hafter, started_after ha⟩⟩, hstyle⟩

/-- A run that succeeds leaves something behind, unless it is empty. -/
theorem Reached.applyAll (hf : s.Faithful text) (h : Reached s edited e) (ha : e.applyAll ops = .ok e') :
    Reached s (edited || !ops.isEmpty) e' := by
  induction ops generalizing e edited with
  | nil =>
    cases ha
    rwa [List.isEmpty_nil, Bool.not_true, Bool.or_false]
  | cons op ops ih =>
    rw [Editor.applyAll] at ha
    split at ha
    · cases ha
    have hrest := ih (h.apply hf ‹_›).1 ha
    rw [Bool.true_or] at hrest
    rwa [List.isEmpty_cons, Bool.not_false, Bool.or_true]

theorem Reached.editedIds? (hf : s.Faithful text) (h : Reached s edited e) :
    e.working.root.editedIds? = s.tree.root.editedIds? := by
  cases edited with
  | false => rw [h.unedited rfl]
  | true =>
    obtain ⟨sc, p, hstands, -⟩ := h.edited rfl
    have hids := Node.editedIds?_renumber (min s.tree.next) e.working.root
    rw [hstands.root, Source.ClassScope.editedIds?_rootAfter hstands.imports] at hids
    obtain ⟨⟨i, j⟩, hij, he⟩ := Option.map_eq_some_iff.1 hids.symm
    obtain ⟨hi, hj⟩ := Prod.mk.inj he
    have hnode := hf.fresh sc.node sc.node_mem
    have hcls := hf.fresh sc.cls (Node.mem_subnodes_of_child sc.cls_mem sc.node_mem)
    rw [Node.editedIds?_eq sc.edited sc.reached sc.split, hij]
    congr 2 <;> omega

theorem Reached.declaredClasses (h : Reached s edited e) :
    e.working.root.declaredClasses = s.tree.root.declaredClasses := by
  cases edited with
  | false => rw [h.unedited rfl]
  | true =>
    obtain ⟨sc, p, hstands, -⟩ := h.edited rfl
    rw [← Node.declaredClasses_congr (Node.outline_renumber (min s.tree.next) _), hstands.root]
    exact Source.ClassScope.declaredClasses_rootAfter hstands.imports

theorem Reached.isModified (hf : s.Faithful text) (h : Reached s edited e) :
    e.isModified = edited := by
  cases edited with
  | false =>
    rw [Editor.isModified, h.source, h.unedited rfl]
    exact decide_eq_false fun hne => hne rfl
  | true =>
    obtain ⟨sc, p, hstands, hstarted⟩ := h.edited rfl
    refine decide_eq_true fun he => ?_
    rw [h.source] at he
    have hroot := hstands.root
    rw [he] at hroot
    refine Source.ClassScope.rootAfter_ne hf hstarted (hroot.symm.trans ?_)
    exact Node.renumber_eq_self _ fun k hk => Nat.min_eq_right (Nat.le_of_lt (hf.fresh k hk))

/-- One operation that was tried: it has the answer that the file gives it. -/
theorem Reached.exec_apply (hf : s.Faithful text) (h : Reached s edited e) (op : Operation) :
    ∃ e' edited', Steps.exec (Edit.apply op) e = (s.answer op, e') ∧ Reached s edited' e' ∧
      e'.style = e.style ∧ (edited' = true ↔ edited = true ∨ s.answer op = .ok ()) := by
  have hanswer := apply_answer op h.isSome_classScope?
  rw [Edit.exec_apply (h.sound hf)]
  cases ha : e.apply op with
  | error fault =>
    rw [ha] at hanswer
    refine ⟨e, edited, ?_, h, rfl, ?_⟩
    · rw [← hanswer]
      rfl
    · rw [← hanswer]
      exact ⟨.inl, fun hor => hor.resolve_right nofun⟩
  | ok e' =>
    rw [ha] at hanswer
    obtain ⟨hreached, hstyle⟩ := h.apply hf ha
    refine ⟨e', true, ?_, hreached, hstyle, ?_⟩
    · rw [← hanswer]
      rfl
    · rw [← hanswer]
      exact ⟨fun _ => .inr rfl, fun _ => rfl⟩

theorem run_session_cons (op : Operation) (ops : List Operation) (e : Editor) :
    (Edit.session (op :: ops)).run e =
      (((Steps.exec (Edit.apply op) e).1 :: ((Edit.session ops).run (Steps.exec (Edit.apply op) e).2).1),
        ((Edit.session ops).run (Steps.exec (Edit.apply op) e).2).2) := rfl

/-- Operations that were tried one after the other. -/
theorem Reached.run_session (hf : s.Faithful text) (ops : List Operation) (h : Reached s edited e) :
    ∃ e' edited', (Edit.session ops).run e = (ops.map s.answer, e') ∧ Reached s edited' e' ∧
      e'.style = e.style ∧ (edited' = true ↔ edited = true ∨ .ok () ∈ ops.map s.answer) := by
  induction ops generalizing e edited with
  | nil => exact ⟨e, edited, rfl, h, rfl, ⟨.inl, fun hor => hor.resolve_right nofun⟩⟩
  | cons op ops ih =>
    obtain ⟨e₁, edited₁, hexec, hreached₁, hstyle₁, hedited₁⟩ := h.exec_apply hf op
    obtain ⟨e₂, edited₂, hrun, hreached₂, hstyle₂, hedited₂⟩ := ih hreached₁
    refine ⟨e₂, edited₂, ?_, hreached₂, hstyle₂.trans hstyle₁, ?_⟩
    · rw [run_session_cons, hexec, hrun, List.map_cons]
    · rw [hedited₂, hedited₁, List.map_cons, List.mem_cons, or_assoc]
      exact or_congr_right (or_congr_left eq_comm)

/-- An editor `e'` that a session of the operations `ops`, started with the editor `e`, may end in. -/
structure EndsIn (e : Editor) (ops : List Operation) (e' : Editor) : Prop where
  source : e'.source = e.source
  style : e'.style = e.style
  /-- The next operation comes to another editor as a whole or leaves this one as it is. -/
  atomic : ∀ op, (Edit.apply op).run.run e' = Edit.settle e' (e'.apply op)
  failing : ∀ op fault e'', (Edit.apply op).run.run e' = (.error fault, e'') → e'' = e'
  /-- Its answer does not depend on what was done before. -/
  answer : ∀ op, (e'.apply op).map (fun _ => ()) = e.source.answer op
  editedIds? : e'.working.root.editedIds? = e.source.tree.root.editedIds?
  declaredClasses : e'.working.root.declaredClasses = e.source.tree.root.declaredClasses
  isModified : e'.isModified = true ↔ .ok () ∈ ops.map e.source.answer

end Editor

/-- Whatever is tried on a file, each operation is answered as if it were the only one. -/
theorem session_answers {text : Text} {style : Style} {e : Editor}
    (h : Editor.parse text style = .ok e) (ops : List Operation) :
    ∃ e', (Edit.session ops).run e = (ops.map e.source.answer, e') ∧ e.EndsIn ops e' := by
  obtain ⟨s, hparse, rfl⟩ := Editor.parse_eq h
  have hf := Source.faithful_of_parse hparse
  have hread := Editor.reached_read s (style.matching text)
  obtain ⟨e', edited, hrun, hreached, hstyle, hedited⟩ := hread.run_session hf ops
  have hatomic := Edit.exec_apply (hreached.sound hf)
  refine ⟨e', hrun, hreached.source, hstyle, hatomic, fun op fault e'' hfail => ?_,
    fun op => Editor.apply_answer op hreached.isSome_classScope?, hreached.editedIds? hf,
    hreached.declaredClasses, ?_⟩
  · exact (Edit.settle_error ((hatomic op).symm.trans hfail)).symm
  rw [hreached.isModified hf, hedited]
  exact or_iff_right nofun

/-- Three operations that fail, in front of and between two that do not. -/
theorem session_answers_mixed :
    ∃ e e', Editor.parse "<?php\nuse Z;\nclass A \x7b\x7d" = .ok e ∧
      (Edit.session [.addMethod { name := "1" }, .addImports ["B"], .addImports ["C", "D-E"],
        .addMethod { name := "f", body := "g(;" }, .addMethod { name := "f" }]).run e =
        ([.error (.invalidName .method "1"), .ok (), .error (.invalidName .classLike "D-E"),
          .error (.parse ⟨.unclosed .round, ⟨1, 2⟩⟩), .ok ()], e') ∧ e'.isModified = true := by
  have hanswers : (Editor.parse "<?php\nuse Z;\nclass A \x7b\x7d").toOption.any (fun e =>
      [Operation.addMethod { name := "1" }, .addImports ["B"], .addImports ["C", "D-E"],
        .addMethod { name := "f", body := "g(;" }, .addMethod { name := "f" }].map e.source.answer =
        [.error (.invalidName .method "1"), .ok (), .error (.invalidName .classLike "D-E"),
          .error (.parse ⟨.unclosed .round, ⟨1, 2⟩⟩), .ok ()]) = true := by
    decide +kernel
  obtain ⟨e, h, hanswers⟩ := Steps.exists_of_any hanswers
  obtain ⟨e', hrun, hend⟩ := session_answers h [.addMethod { name := "1" }, .addImports ["B"],
    .addImports ["C", "D-E"], .addMethod { name := "f", body := "g(;" }, .addMethod { name := "f" }]
  have heq := of_decide_eq_true hanswers
  refine ⟨e, e', h, hrun.trans (congrArg (·, e') heq), hend.isModified.2 ?_⟩
  rw [heq]
  exact List.mem_cons_of_mem _ List.mem_cons_self

end PhpGraft
