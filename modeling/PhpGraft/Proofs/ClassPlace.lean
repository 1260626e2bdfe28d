import PhpGraft.Proofs.Session

/-!
The place of the class being edited, in any tree: which children stand around it, and what importing
classes makes of them.
-/
namespace PhpGraft

namespace Node

/-- Where the class being edited stands: in the children of `node`, as the last class of them.
`Source.ClassScope` says so of the tree that was read; this is any tree. -/
structure ClassPlace (root : Node) where
  path : List Nat
  node : Node
  before : List Node
  cls : Node
  behind : List Node
  edited : root.classScope? = some (path, before.length)
  reached : root.at? path = some node
  split : node.children = before ++ cls :: behind
  isClass : cls.isClass = true
  last : ∀ n ∈ behind, n.isClass = false

variable {root : Node}

theorem exists_classPlace {path : List Nat} {i : Nat} (h : root.classScope? = some (path, i)) :
    ∃ pl : root.ClassPlace, pl.path = path ∧ pl.before.length = i := by
  obtain ⟨n, before, c, behind, hn, hsplit, rfl, hc, hb⟩ := split_of_classScope? h
  exact ⟨⟨path, n, before, c, behind, h, hn, hsplit, hc, hb⟩, rfl, rfl⟩

namespace ClassPlace

variable (pl : root.ClassPlace)

def imports : List Node := pl.node.children.filter isImport

/-- The children of the scope behind the given imports. -/
def arranged (us : List Node) : List Node :=
  us ++ (others pl.before ++ pl.cls.detach :: others pl.behind)

/-- The tree in which the given imports stand in front of the scope. -/
def rootWith (us : List Node) : Node :=
  root.modifyAt (.withChildren fun _ => pl.arranged us) pl.path

theorem node_mem : pl.node ∈ root.subnodes := mem_subnodes_at? (self_mem_subnodes _) pl.reached

theorem mem_of_child {n : Node} (h : n ∈ pl.node.children) : n ∈ root.subnodes :=
  mem_subnodes_of_child h pl.node_mem

theorem cls_mem : pl.cls ∈ pl.node.children := by
  simp [pl.split]

theorem reached_cls : root.at? (pl.path ++ [pl.before.length]) = some pl.cls := by
  rw [at?_append, pl.reached, Option.bind_some, at?, pl.split]
  simp [at?]

/-- The scope with the class detached and all else where it was. -/
def detached : Node := pl.node.modifyAt .detach [pl.before.length]

theorem children_detached :
    pl.detached.children = pl.before ++ pl.cls.detach :: pl.behind := by
  rw [detached, modifyAt, pl.split, modify_append_cons]
  rfl

/-- The class is detached before the children move. -/
theorem rootWith_eq (us : List Node) : pl.rootWith us =
    (root.modifyAt .detach (pl.path ++ [pl.before.length])).modifyAt
      (.withChildren fun _ => pl.arranged us) pl.path := by
  rw [modifyAt_append, modifyAt_modifyAt]
  exact modifyAt_congr pl.reached rfl

theorem at?_detached : (root.modifyAt .detach (pl.path ++ [pl.before.length])).at? pl.path =
    some pl.detached := by
  rw [modifyAt_append]
  exact at?_modifyAt pl.reached

end ClassPlace

/-- The imports next to the class being edited. -/
def scopeImports (root : Node) : List Node :=
  match root.classScope? with
  | none => []
  | some (scope, _) => (((root.at? scope).map children).getD []).filter isImport

theorem ClassPlace.scopeImports_eq (pl : root.ClassPlace) : root.scopeImports = pl.imports := by
  rw [scopeImports, pl.edited]
  simp only [pl.reached]
  rfl

/-- The place of the class once other imports stand in front of the scope. -/
def ClassPlace.after (pl : root.ClassPlace) {us : List Node} (hus : ∀ n ∈ us, n.isImport = true) :
    (pl.rootWith us).ClassPlace where
  path := pl.path
  node := pl.node.withChildren fun _ => pl.arranged us
  before := us ++ others pl.before
  cls := pl.cls.detach
  behind := others pl.behind
  edited := by
    have hroot : pl.rootWith us =
        root.modifyAt (.withChildren (withImports us pl.before.length)) pl.path := by
      refine modifyAt_congr pl.reached ?_
      rw [withChildren, withChildren, pl.split, withImports_split]
      rfl
    rw [hroot]
    exact classScope?_withImports pl.edited pl.reached pl.split pl.isClass pl.last hus
  reached := at?_modifyAt pl.reached
  split := (List.append_assoc ..).symm
  isClass := pl.isClass
  last := fun n hn => pl.last n ((others_sublist _).subset hn)

variable {pl : root.ClassPlace} {us us' : List Node}

theorem ClassPlace.imports_after (hus : ∀ n ∈ us, n.isImport = true) :
    (pl.after hus).node.children.filter isImport = us := by
  have hcls : pl.cls.detach.isImport = false := isImport_of_isClass pl.isClass
  rw [(pl.after hus).split, List.filter_append, List.filter_cons_of_neg (by rw [after, hcls]; nofun)]
  simp only [after, List.filter_append, filter_isImport_others, List.append_nil]
  exact List.filter_eq_self.2 hus

/-- Other imports in the place of those that came before. -/
theorem ClassPlace.rootWith_after (hus : ∀ n ∈ us, n.isImport = true) :
    (pl.after hus).rootWith us' = pl.rootWith us' := by
  have harranged : (pl.after hus).arranged us' = pl.arranged us' := by
    simp only [arranged, after, others_append, others_others, others_of_imports hus, List.nil_append,
      detach_detach]
  rw [rootWith, harranged]
  change (pl.rootWith us).modifyAt _ pl.path = _
  rw [rootWith, rootWith, modifyAt_modifyAt]
  rfl

end Node

namespace Editor

variable {e e' : Editor} {names : List Text}

theorem addImports_place (h : e.addImports names = .ok e') : ∃ pl : e.working.root.ClassPlace,
    (∀ name ∈ names.map plainName, Name.isQualified name = true) ∧
    e' = { e with working :=
      ⟨pl.rootWith (Node.mergeImports e.working.next (names.map plainName) pl.node.children),
        e.working.next +
          (Node.newImports e.working.next (names.map plainName) pl.node.children).length⟩ } := by
  obtain ⟨qs, scope, classAt, n, hqs, hs, hn, rfl⟩ := addImports_eq h
  obtain ⟨pl, rfl, rfl⟩ := Node.exists_classPlace hs
  obtain rfl := Option.some.inj (pl.reached.symm.trans hn)
  obtain rfl := mapM_importedName hqs
  refine ⟨pl, isQualified_of_mapM hqs, ?_⟩
  simp only [pl.split, Node.withImports_split]
  rfl

theorem mapM_importedName_of_qualified (hq : ∀ name ∈ names.map plainName, Name.isQualified name = true) :
    names.mapM importedName = .ok (names.map plainName) := by
  rw [mapM_importedName_eq, List.find?_eq_none.2]
  intro name hname
  rw [hq name hname]
  exact nofun

theorem addImports_of_none (h : e.working.root.classScope? = none)
    (hq : ∀ name ∈ names.map plainName, Name.isQualified name = true) :
    e.addImports names = .error .noClass := by
  simp only [addImports, mapM_importedName_of_qualified hq, h]

theorem addImports_of_place (pl : e.working.root.ClassPlace)
    (hq : ∀ name ∈ names.map plainName, Name.isQualified name = true) :
    e.addImports names = .ok { e with working :=
      ⟨pl.rootWith (Node.mergeImports e.working.next (names.map plainName) pl.node.children),
        e.working.next +
          (Node.newImports e.working.next (names.map plainName) pl.node.children).length⟩ } := by
  simp only [addImports, mapM_importedName_of_qualified hq, pl.edited, pl.reached, Option.map_some,
    Option.getD_some]
  congr 3
  refine Node.modifyAt_congr pl.reached ?_
  rw [Node.withChildren, Node.withChildren, pl.split, Node.withImports_split]
  rfl

end Editor
end PhpGraft
