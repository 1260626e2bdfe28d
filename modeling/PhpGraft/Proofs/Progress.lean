import PhpGraft.Proofs.Operations
import PhpGraft.Proofs.Renumbering

/-!
What a run of operations makes of a tree, up to the numbers of the nodes it adds. Methods and
imports meet nowhere: the methods that were added and the imports that were gathered each depend on
the operations of one kind alone.
-/
namespace PhpGraft

/-- The imports in front of the scope of the class, from the first time that any were asked for, and
the methods behind the members of the class. -/
structure Progress where
  imports? : Option (List Node) := none
  methods : List Method := []

/-- An import as it is asked for, without the white space and the backslash around its name. -/
def Editor.plainName (name : Text) : Text := Name.withoutRoot name.trim

namespace Node

/-! Numbers and the arrangement of imports. -/

variable (f : Nat → Nat)

theorem filter_isImport_renumber (ns : List Node) :
    (ns.map (renumber f)).filter isImport = (ns.filter isImport).map (renumber f) := by
  rw [List.filter_map]
  congr 2
  funext n
  exact isImport_renumber f n

theorem others_renumber (ns : List Node) :
    others (ns.map (renumber f)) = (others ns).map (renumber f) := by
  rw [others, others, List.filter_map]
  congr 2
  funext n
  exact congrArg _ (isImport_renumber f n)

theorem distinctImports_renumber (bound : List (ImportKind × Text)) (ns : List Node) :
    distinctImports bound (ns.map (renumber f)) =
      ((distinctImports bound ns).1.map (renumber f), (distinctImports bound ns).2) := by
  induction ns generalizing bound with
  | nil => rfl
  | cons n ns ih =>
    simp only [List.map_cons, distinctImports, importBindings_renumber, ih]
    split <;> rfl

theorem sortImports_renumber (ns : List Node) :
    sortImports (ns.map (renumber f)) = (sortImports ns).map (renumber f) := by
  rw [sortImports, sortImports, List.map_mergeSort]
  intro a _ b _
  rw [importName_renumber, importName_renumber]

theorem withImports_renumber (is : List Node) (classAt : Nat) (ns : List Node) :
    withImports (is.map (renumber f)) classAt (ns.map (renumber f)) =
      (withImports is classAt ns).map (renumber f) := by
  have hothers : ∀ ms : List Node, (ms.map (renumber f)).filter (!·.isImport) =
      (ms.filter (!·.isImport)).map (renumber f) := others_renumber f
  have hcls : ((ns.map (renumber f))[classAt]?.map detach).toList =
      (ns[classAt]?.map detach).toList.map (renumber f) := by
    rw [List.getElem?_map]
    cases ns[classAt]? with
    | none => rfl
    | some c => exact congrArg (· :: []) (renumber_detach f c).symm
  simp only [withImports, ← List.map_take, ← List.map_drop, hothers, hcls, List.map_append]

end Node

namespace Source

def newMethod (s : Source) (d : Method) : Node := ⟨s.tree.next, .synthesized, .method d, []⟩

def newImport (s : Source) (name : Text) : Node :=
  ⟨s.tree.next, .synthesized, .imports (.ofClass name), []⟩

/-- Imports without those that bind nothing new, and with imports of the names not bound yet. -/
def merged (s : Source) (names : List Text) (is : List Node) : List Node :=
  let old := Node.distinctImports [] is
  Node.sortImports (old.1 ++ (Node.unboundNames old.2 names).map s.newImport)

variable {s : Source}

theorem isImport_merged {names : List Text} {is : List Node} (h : ∀ n ∈ is, n.isImport = true) :
    ∀ n ∈ s.merged names is, n.isImport = true := by
  intro n hn
  rcases List.mem_append.1 ((List.mergeSort_perm _ _).subset hn) with hn | hn
  · exact h n ((Node.distinctImports_sublist _ _).subset hn)
  · obtain ⟨name, -, rfl⟩ := List.mem_map.1 hn
    rfl

theorem importsOf_renumber {next : Nat} (hn : s.tree.next ≤ next) (names : List Text) :
    (Node.importsOf next names).map (Node.renumber (min s.tree.next)) = names.map s.newImport := by
  induction names generalizing next with
  | nil => rfl
  | cons name names ih =>
    rw [Node.importsOf, List.map_cons, List.map_cons, ih (Nat.le_succ_of_le hn)]
    refine congrArg (· :: _) ?_
    rw [Node.renumber, Node.renumberList, newImport, Nat.min_eq_left hn]

theorem mergeImports_renumber {next : Nat} (hn : s.tree.next ≤ next) (names : List Text)
    (ns : List Node) :
    (Node.mergeImports next names ns).map (Node.renumber (min s.tree.next)) =
      s.merged names ((ns.map (Node.renumber (min s.tree.next))).filter Node.isImport) := by
  rw [Node.mergeImports, ← Node.sortImports_renumber, List.map_append, Node.newImports,
    importsOf_renumber hn, merged, Node.filter_isImport_renumber]
  simp only [Node.distinctImports_renumber]

namespace ClassScope

variable (sc : s.ClassScope) (p : Progress)

/-! The scope after a run: what stands in front of the class, the class, and what stands behind. -/

def front : List Node :=
  match p.imports? with
  | none => sc.before
  | some is => is ++ Node.others sc.before

def extended : Node := sc.cls.withChildren (· ++ p.methods.map s.newMethod)

def middle : Node :=
  match p.imports? with
  | none => sc.extended p
  | some _ => (sc.extended p).detach

def back : List Node :=
  match p.imports? with
  | none => sc.behind
  | some _ => Node.others sc.behind

def childrenAfter : List Node := sc.front p ++ sc.middle p :: sc.back p

/-- The tree after a run. -/
def rootAfter : Node :=
  s.tree.root.modifyAt (.withChildren fun _ => sc.childrenAfter p) sc.path

def importsAfter : List Node := p.imports?.getD (sc.node.children.filter Node.isImport)

/-- One more operation. -/
def after : Operation → Progress
  | .addMethod m =>
    match m.method? with
    | .ok d => { p with methods := p.methods ++ [d] }
    | .error _ => p
  | .addImports names =>
    { p with imports? := some (s.merged (names.map Editor.plainName) (sc.importsAfter p)) }

variable {sc p}

/-- What is true of the imports that were read and of every new one stays true of those in front. -/
theorem importsAfter_after {P : Node → Prop} (hnew : ∀ name, P (s.newImport name)) (op : Operation)
    (h : ∀ n ∈ sc.importsAfter p, P n) : ∀ n ∈ sc.importsAfter (sc.after p op), P n := by
  cases op with
  | addMethod m =>
    rw [after]
    split
    · exact h
    · exact h
  | addImports names =>
    intro n hn
    rcases List.mem_append.1 ((List.mergeSort_perm _ _).subset hn) with hn | hn
    · exact h n ((Node.distinctImports_sublist _ _).subset hn)
    · obtain ⟨name, -, rfl⟩ := List.mem_map.1 hn
      exact hnew name

theorem importsAfter_foldl {P : Node → Prop} (hnew : ∀ name, P (s.newImport name))
    (h : ∀ n ∈ sc.importsAfter p, P n) (ops : List Operation) :
    ∀ n ∈ sc.importsAfter (ops.foldl sc.after p), P n := by
  induction ops generalizing p with
  | nil => exact h
  | cons op ops ih => exact ih (importsAfter_after hnew op h)

theorem imports_foldl {P : Node → Prop} (hnew : ∀ name, P (s.newImport name))
    (h : ∀ n ∈ sc.importsAfter {}, P n) (ops : List Operation) :
    ∀ n ∈ (ops.foldl sc.after {}).imports?.getD [], P n := by
  have hall := importsAfter_foldl hnew h ops
  rw [importsAfter] at hall
  cases hp : (ops.foldl sc.after {}).imports? with
  | none => exact fun _ hn => absurd hn List.not_mem_nil
  | some is =>
    rw [hp] at hall
    exact hall

theorem isClass_middle : (sc.middle p).isClass = true := by
  unfold middle
  split <;> exact sc.isClass

theorem at?_rootAfter :
    (sc.rootAfter p).at? sc.path = some (sc.node.withChildren fun _ => sc.childrenAfter p) :=
  Node.at?_modifyAt sc.reached

/-- Methods alone go behind the members of the class. -/
theorem rootAfter_none (methods : List Method) : sc.rootAfter ⟨none, methods⟩ =
    Node.appendAt (sc.path ++ [sc.before.length]) (methods.map s.newMethod) s.tree.root := by
  rw [rootAfter, Node.appendAt, Node.modifyAt_append]
  refine Node.modifyAt_congr sc.reached ?_
  rw [Node.modifyAt, sc.split, Node.modify_append_cons]
  rfl

/-- Imports gather in front of the scope. -/
theorem rootAfter_some (is : List Node) (methods : List Method) :
    sc.rootAfter ⟨some is, methods⟩ = (sc.rootAfter ⟨none, methods⟩).modifyAt
      (.withChildren (Node.withImports is sc.before.length)) sc.path := by
  have hsplit := Node.withImports_split is sc.before sc.behind (sc.extended ⟨none, methods⟩)
  have hchildren : sc.childrenAfter ⟨some is, methods⟩ =
      Node.withImports is sc.before.length (sc.childrenAfter ⟨none, methods⟩) := by
    refine Eq.trans ?_ hsplit.symm
    exact List.append_assoc ..
  rw [rootAfter, rootAfter, Node.modifyAt_modifyAt, hchildren]
  rfl

theorem classScope?_rootAfter (h : ∀ n ∈ p.imports?.getD [], n.isImport = true) :
    (sc.rootAfter p).classScope? = some (sc.path, (sc.front p).length) := by
  obtain ⟨imports?, methods⟩ := p
  have hnone : (sc.rootAfter ⟨none, methods⟩).classScope? = some (sc.path, sc.before.length) := by
    rw [rootAfter_none, Node.classScope?_congr (Node.outline_appendAt _ sc.edited)]
    exact sc.edited
  cases imports? with
  | none => exact hnone
  | some is =>
    rw [rootAfter_some]
    exact Node.classScope?_withImports hnone at?_rootAfter rfl isClass_middle sc.last h

theorem filter_childrenAfter (h : ∀ n ∈ p.imports?.getD [], n.isImport = true) :
    (sc.childrenAfter p).filter Node.isImport = sc.importsAfter p := by
  have hmiddle : (sc.middle p).isImport = false := Node.isImport_of_isClass isClass_middle
  obtain ⟨imports?, methods⟩ := p
  rw [childrenAfter, List.filter_append, List.filter_cons_of_neg (by rw [hmiddle]; exact nofun)]
  cases imports? with
  | none =>
    rw [importsAfter, Option.getD_none, sc.split, List.filter_append, List.filter_cons_of_neg]
    · rfl
    · rw [Node.isImport_of_isClass sc.isClass]
      exact nofun
  | some is =>
    simp only [front, back, List.filter_append, Node.filter_isImport_others, List.append_nil]
    exact List.filter_eq_self.2 h

theorem middle_append (d : Method) :
    (sc.middle p).withChildren (· ++ [s.newMethod d]) =
      sc.middle { p with methods := p.methods ++ [d] } := by
  have hext : (sc.extended p).withChildren (· ++ [s.newMethod d]) =
      sc.extended { p with methods := p.methods ++ [d] } := by
    simp only [extended, Node.withChildren, List.map_append, List.map_cons, List.map_nil,
      List.append_assoc]
  obtain ⟨imports?, methods⟩ := p
  cases imports? with
  | none => exact hext
  | some _ => exact congrArg Node.detach hext

/-- One more method. -/
theorem rootAfter_append (d : Method) :
    Node.appendAt (sc.path ++ [(sc.front p).length]) [s.newMethod d] (sc.rootAfter p) =
      sc.rootAfter { p with methods := p.methods ++ [d] } := by
  rw [rootAfter, rootAfter, Node.appendAt, Node.modifyAt_append, Node.modifyAt_modifyAt]
  congr 1
  funext n
  refine congrArg (Node.mk _ _ _) ?_
  refine (Node.modify_append_cons ..).trans ?_
  exact congrArg (fun x => sc.front p ++ x :: sc.back p) (middle_append d)

/-- Other imports in front of the scope. -/
theorem rootAfter_merge {is : List Node} (h : ∀ n ∈ p.imports?.getD [], n.isImport = true) :
    (sc.rootAfter p).modifyAt (.withChildren (Node.withImports is (sc.front p).length)) sc.path =
      sc.rootAfter { p with imports? := some is } := by
  have hchildren : Node.withImports is (sc.front p).length (sc.childrenAfter p) =
      sc.childrenAfter { p with imports? := some is } := by
    rw [childrenAfter, Node.withImports_split]
    obtain ⟨imports?, methods⟩ := p
    cases imports? with
    | none => exact (List.append_assoc ..).symm
    | some js =>
      have hjs : Node.others js = [] := Node.others_of_imports h
      simp only [front, back, middle, childrenAfter, Node.others_append, Node.others_others, hjs,
        Node.detach_detach, List.nil_append, List.append_assoc]
      rfl
  rw [rootAfter, rootAfter, Node.modifyAt_modifyAt, ← hchildren]
  rfl

end ClassScope
end Source

namespace Editor

variable {e e' : Editor} {s : Source} {sc : s.ClassScope} {p : Progress} {op : Operation}
  {ops : List Operation}

theorem importedName_eq (name : Text) : importedName name =
    if Name.isQualified (plainName name) then .ok (plainName name)
    else .error (.invalidName .classLike (plainName name)) := rfl

theorem mapM_importedName {names qs : List Text} (h : names.mapM importedName = .ok qs) :
    qs = names.map plainName := by
  induction names generalizing qs with
  | nil =>
    cases h
    rfl
  | cons name names ih =>
    rw [List.mapM_cons, importedName_eq] at h
    split at h
    · cases hrest : names.mapM importedName with
      | error fault =>
        rw [hrest] at h
        cases h
      | ok rest =>
        rw [hrest] at h
        cases h
        rw [ih hrest, List.map_cons]
    · cases h

/-- An editor whose working tree is what a run makes of the tree as it was read, up to the numbers
of new nodes. -/
structure Stands (sc : s.ClassScope) (p : Progress) (e : Editor) : Prop where
  source : e.source = s
  root : e.working.root.renumber (min s.tree.next) = sc.rootAfter p
  next : s.tree.next ≤ e.working.next
  imports : ∀ n ∈ p.imports?.getD [], n.isImport = true

theorem Stands.classScope? (h : Stands sc p e) :
    e.working.root.classScope? = some (sc.path, (sc.front p).length) := by
  rw [← Node.classScope?_congr (Node.outline_renumber _ _), h.root]
  exact Source.ClassScope.classScope?_rootAfter h.imports

/-- What one operation that succeeds adds. -/
theorem Stands.apply (h : Stands sc p e) (ha : e.apply op = .ok e') :
    Stands sc (sc.after p op) e' ∧ e'.style = e.style := by
  cases op with
  | addMethod m =>
    obtain ⟨scope, classAt, d, hs, hd, -, rfl⟩ := addMethod_eq ha
    obtain ⟨rfl, rfl⟩ := Prod.mk.inj (Option.some.inj (hs.symm.trans h.classScope?))
    obtain ⟨c, hc, -⟩ := Node.at?_classScope? hs
    refine ⟨⟨h.source, ?_, Nat.le_succ_of_le h.next, ?_⟩, rfl⟩
    · have hnew : (Node.mk e.working.next .synthesized (.method d) []).renumber
          (min s.tree.next) = s.newMethod d := by
        rw [Node.renumber, Node.renumberList, Nat.min_eq_left h.next]
        rfl
      rw [Source.ClassScope.after, hd, ← Source.ClassScope.rootAfter_append, ← h.root]
      refine Node.renumber_modifyAt _ hc (Node.renumber_withChildren _ ?_)
      rw [List.map_append]
      exact congrArg _ (congrArg (· :: []) hnew)
    · rw [Source.ClassScope.after, hd]
      exact h.imports
  | addImports names =>
    obtain ⟨qs, scope, classAt, n, hqs, hs, hn, rfl⟩ := addImports_eq ha
    obtain ⟨rfl, rfl⟩ := Prod.mk.inj (Option.some.inj (hs.symm.trans h.classScope?))
    have hchildren : n.children.map (Node.renumber (min s.tree.next)) = sc.childrenAfter p := by
      have hat := Node.at?_renumber (min s.tree.next) sc.path e.working.root
      rw [h.root, Source.ClassScope.at?_rootAfter, hn] at hat
      rw [← Node.children_renumber, ← Option.some.inj hat]
      rfl
    have hmerged := Source.mergeImports_renumber h.next qs n.children
    rw [hchildren, Source.ClassScope.filter_childrenAfter h.imports, mapM_importedName hqs] at hmerged
    refine ⟨⟨h.source, ?_, Nat.le_trans h.next (Nat.le_add_right _ _), ?_⟩, rfl⟩
    · rw [Source.ClassScope.after, ← Source.ClassScope.rootAfter_merge h.imports, ← h.root]
      refine Node.renumber_modifyAt _ hn (Node.renumber_withChildren _ ?_)
      rw [← Node.withImports_renumber, mapM_importedName hqs, hmerged]
    · refine Source.isImport_merged fun n hn => ?_
      unfold Source.ClassScope.importsAfter at hn
      cases hp : p.imports? with
      | none =>
        rw [hp] at hn
        exact (List.mem_filter.1 hn).2
      | some is =>
        rw [hp] at hn
        exact h.imports n (by rw [hp]; exact hn)

/-- What a run of operations adds. -/
theorem Stands.applyAll (h : Stands sc p e) (ha : e.applyAll ops = .ok e') :
    Stands sc (ops.foldl sc.after p) e' ∧ e'.style = e.style := by
  induction ops generalizing e p with
  | nil =>
    cases ha
    exact ⟨h, rfl⟩
  | cons op ops ih =>
    rw [Editor.applyAll] at ha
    split at ha
    · cases ha
    obtain ⟨hstands, hstyle⟩ := h.apply ‹_›
    obtain ⟨hrest, hstyle'⟩ := ih hstands ha
    exact ⟨hrest, hstyle'.trans hstyle⟩

/-- A file that was just read. -/
theorem stands_read {text : Text} (hf : s.Faithful text) (sc : s.ClassScope) (hs : e.source = s)
    (hw : e.working = s.tree) : Stands sc {} e := by
  refine ⟨hs, ?_, Nat.le_of_eq (congrArg Tree.next hw).symm, fun _ hn => nomatch hn⟩
  rw [hw, Node.renumber_eq_self _ fun k hk => Nat.min_eq_right (Nat.le_of_lt (hf.fresh k hk)),
    Source.ClassScope.rootAfter_none, List.map_nil, Node.appendAt_nil]

/-- What is printed of an edited file. -/
theorem Stands.render {sc : s.ClassScope} {p : Progress} (hf : s.Faithful text)
    (h : Stands sc p e) : e.render = s.print e.style 0 (sc.rootAfter p) := by
  rw [Editor.render, h.source, ← h.root,
    Source.print_renumber hf (Source.renumbering_min s.tree.next)]

end Editor
end PhpGraft
