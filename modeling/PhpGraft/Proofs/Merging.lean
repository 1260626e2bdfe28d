import Mathlib.Data.List.Pairwise
import PhpGraft.Proofs.Reachability
import PhpGraft.Proofs.Sorting

/-!
What importing classes makes of a tree. The imports of the scope come to stand in front of it, sorted
and without those that bind nothing new, and the names not bound before are bound by new ones; all
other nodes are left as they are.
-/
namespace PhpGraft

namespace Node

/-! What imports bind. -/

theorem distinctImports_bound (bound : List (ImportKind × Text)) (ns : List Node) :
    (distinctImports bound ns).2 = bound ++ ns.flatMap importBindings := by
  induction ns generalizing bound with
  | nil => exact (List.append_nil bound).symm
  | cons n ns ih =>
    simp only [distinctImports]
    split <;> simp only [ih, List.flatMap_cons, List.append_assoc]

theorem mem_unboundNames {bound : List (ImportKind × Text)} {names : List Text} {name : Text} :
    name ∈ unboundNames bound names ↔ name ∈ names ∧ (.classLike, name) ∉ bound := by
  induction names generalizing bound with
  | nil => simp [unboundNames]
  | cons m names ih =>
    simp only [unboundNames, List.contains_iff_mem]
    by_cases hm : name = m
    · subst hm
      split <;> simp_all
    · split <;> simp [ih, hm]

theorem nodup_unboundNames (bound : List (ImportKind × Text)) (names : List Text) :
    (unboundNames bound names).Nodup := by
  induction names generalizing bound with
  | nil => exact .nil
  | cons name names ih =>
    simp only [unboundNames]
    split
    · exact ih _
    · refine List.nodup_cons.2 ⟨fun hmem => ?_, ih _⟩
      exact (mem_unboundNames.1 hmem).2 List.mem_cons_self

theorem bindings_importsOf (next : Nat) (names : List Text) :
    (importsOf next names).flatMap importBindings = names.map (.classLike, ·) := by
  induction names generalizing next with
  | nil => rfl
  | cons name names ih =>
    rw [importsOf, List.flatMap_cons, ih]
    rfl

variable {next : Nat} {names : List Text} {ns : List Node} {b : ImportKind × Text}

theorem mem_bindings_newImports : b ∈ (newImports next names ns).flatMap importBindings ↔
    b ∉ (ns.filter isImport).flatMap importBindings ∧ ∃ name ∈ names, b = (.classLike, name) := by
  rw [newImports, bindings_importsOf, distinctImports_bound, List.nil_append, List.mem_map]
  constructor
  · rintro ⟨name, hname, rfl⟩
    obtain ⟨hmem, hnot⟩ := mem_unboundNames.1 hname
    exact ⟨hnot, name, hmem, rfl⟩
  · rintro ⟨hnot, name, hmem, rfl⟩
    exact ⟨name, mem_unboundNames.2 ⟨hmem, hnot⟩, rfl⟩

theorem nodup_bindings_newImports (next : Nat) (names : List Text) (ns : List Node) :
    ((newImports next names ns).flatMap importBindings).Nodup := by
  rw [newImports, bindings_importsOf]
  refine (nodup_unboundNames _ _).map fun a b h => ?_
  exact (Prod.mk.inj h).2

/-- What was bound stays bound, and what was asked for comes to be bound. -/
theorem mem_bindings_mergeImports : b ∈ (mergeImports next names ns).flatMap importBindings ↔
    b ∈ (ns.filter isImport).flatMap importBindings ∨ ∃ name ∈ names, b = (.classLike, name) := by
  have hold : b ∈ (distinctImports [] (ns.filter isImport)).1.flatMap importBindings ↔
      b ∈ (ns.filter isImport).flatMap importBindings := by
    constructor
    · intro h
      exact ((distinctImports_sublist _ _).flatMap _).subset h
    · intro h
      obtain ⟨n, hn, hb⟩ := List.mem_flatMap.1 h
      rcases bound_of_dropped [] hn hb with hb | hb
      · cases hb
      · exact List.mem_flatMap.2 hb
  rw [((mergeImports_perm next names ns).flatMap_right _).mem_iff, List.flatMap_append,
    List.mem_append, hold, mem_bindings_newImports]
  tauto

theorem notMem_bindings_of_new {n m : Node} (hn : n ∈ newImports next names ns)
    (hm : m ∈ mergeImports next names ns) (hne : m ≠ n) (hb : b ∈ n.importBindings) :
    b ∉ m.importBindings := by
  have hnew := mem_bindings_newImports.1 (List.mem_flatMap.2 ⟨n, hn, hb⟩)
  intro hbm
  rcases mem_mergeImports.1 hm with hm | hm
  · exact hnew.1 (List.mem_flatMap.2 ⟨m, (distinctImports_sublist _ _).subset hm, hbm⟩)
  · have hapart := (List.nodup_flatMap.1 (nodup_bindings_newImports next names ns)).2
    have : Std.Symm (Function.onFun List.Disjoint importBindings) := ⟨fun _ _ h _ ha hb => h hb ha⟩
    exact hapart.forall hm hn hne hbm hb

end Node

namespace Node

/-! What becomes of the rows of the scope. -/

theorem mem_table_detach {c : Node} {r : Row} (h : r.id ≠ c.id) :
    r ∈ c.detach.table ↔ r ∈ c.table := by
  have htable : c.detach.table = c.detach.row :: c.children.flatMap table := table_eq _
  rw [htable, table_eq, List.mem_cons, List.mem_cons]
  constructor
  · rintro (rfl | hr)
    · cases h rfl
    · exact .inr hr
  · rintro (rfl | hr)
    · cases h rfl
    · exact .inr hr

namespace ClassPlace

variable {t : Tree} {pl : t.root.ClassPlace} {us : List Node} {next i : Nat}

/-- What stands under the number of a node below the scope stays, unless it is a dropped import. -/
theorem mem_rows_arranged {r : Row} (h : t.Sound)
    (hus : ∀ n ∈ us, n ∈ pl.imports ∨ n.NewImport t.next next) (hi : r.id < t.next)
    (hcls : r.id ≠ pl.cls.id) (hdropped : ∀ n ∈ pl.imports, n ∉ us → n.id ≠ r.id) :
    r ∈ (pl.arranged us).flatMap table ↔ r ∈ pl.node.children.flatMap table := by
  rw [List.mem_flatMap, List.mem_flatMap]
  constructor
  · rintro ⟨n, hn, hr⟩
    rcases List.mem_append.1 hn with hn | hn
    · rcases hus n hn with hold | ⟨id, name, hle, -, -, rfl⟩
      · exact ⟨n, (List.mem_filter.1 hold).1, hr⟩
      · rw [table_leaf rfl, List.mem_singleton] at hr
        subst hr
        exact absurd hi (Nat.not_lt.2 hle)
    rcases List.mem_append.1 hn with hn | hn
    · refine ⟨n, ?_, hr⟩
      rw [pl.split]
      exact List.mem_append_left _ ((others_sublist _).subset hn)
    rcases List.mem_cons.1 hn with rfl | hn
    · exact ⟨pl.cls, pl.cls_mem, (mem_table_detach hcls).1 hr⟩
    · refine ⟨n, ?_, hr⟩
      rw [pl.split]
      exact List.mem_append_right _ (.tail _ ((others_sublist _).subset hn))
  · rintro ⟨n, hn, hr⟩
    cases himport : n.isImport with
    | true =>
      have hmem : n ∈ pl.imports := List.mem_filter.2 ⟨hn, himport⟩
      by_cases hin : n ∈ us
      · exact ⟨n, List.mem_append_left _ hin, hr⟩
      · have hleaf := h.children_eq_nil (pl.mem_of_child hn) (not_isContainer_of_isImport himport)
        rw [table_leaf hleaf, List.mem_singleton] at hr
        exact absurd (congrArg Row.id hr).symm (hdropped n hmem hin)
    | false =>
      rw [pl.split] at hn
      rcases List.mem_append.1 hn with hn | hn
      · exact ⟨n, List.mem_append_right _ (List.mem_append_left _ (mem_others.2 ⟨hn, himport⟩)), hr⟩
      rcases List.mem_cons.1 hn with rfl | hn
      · refine ⟨pl.cls.detach, ?_, (mem_table_detach hcls).2 hr⟩
        exact List.mem_append_right _ (List.mem_append_right _ List.mem_cons_self)
      · refine ⟨n, List.mem_append_right _ (List.mem_append_right _ (.tail _ ?_)), hr⟩
        exact mem_others.2 ⟨hn, himport⟩

theorem row?_rootWith (h : t.Sound) (h' : Tree.Sound ⟨pl.rootWith us, next⟩)
    (hus : ∀ n ∈ us, n ∈ pl.imports ∨ n.NewImport t.next next) (hi : i < t.next)
    (hscope : i ≠ pl.node.id) (hcls : i ≠ pl.cls.id)
    (hdropped : ∀ n ∈ pl.imports, n ∉ us → n.id ≠ i) :
    (pl.rootWith us).row? i = t.root.row? i := by
  obtain ⟨front, back, hold, hnew⟩ :=
    table_modifyAt (f := .withChildren fun _ => pl.arranged us) pl.reached rfl
  refine row?_congr h'.distinct h.distinct fun r hr => ?_
  subst hr
  have hbelow := mem_rows_arranged h hus hi hcls hdropped
  have hne : r ≠ pl.node.row := fun he => hscope (congrArg Row.id he)
  have hne' : r ≠ (pl.node.withChildren fun _ => pl.arranged us).row :=
    fun he => hscope (congrArg Row.id he)
  have htable : (pl.node.withChildren fun _ => pl.arranged us).table =
      (pl.node.withChildren fun _ => pl.arranged us).row ::
        (pl.arranged us).flatMap table := table_eq _
  rw [rootWith, hnew, hold, htable, table_eq pl.node]
  simp only [List.mem_append, List.mem_cons, hne, hne', hbelow, false_or]

end ClassPlace
end Node

namespace Editor

variable {e e' : Editor} {names : List Text}

/-- The imports behind one call are imports from before it and new ones. -/
theorem kept_or_new {pl : e.working.root.ClassPlace} {n : Node}
    (hq : ∀ name ∈ names, Name.isQualified name = true)
    (hn : n ∈ Node.mergeImports e.working.next names pl.node.children) :
    n ∈ pl.imports ∨ n.NewImport e.working.next
      (e.working.next + (Node.newImports e.working.next names pl.node.children).length) := by
  rcases Node.mem_mergeImports.1 hn with hn | hn
  · exact .inl ((Node.distinctImports_sublist _ _).subset hn)
  · exact .inr (Node.newImport_of_mem_newImports hq hn)

/-! Runs. -/

/-- The imports bind all names that were asked for. -/
def Binds (is : List Node) (calls : List (List Text)) : Prop :=
  ∀ names ∈ calls, ∀ name ∈ names, (.classLike, plainName name) ∈ is.flatMap Node.importBindings

variable {s : Source} {text : Text} {sc : s.ClassScope} {is : List Node} {calls : List (List Text)}

/-- After a run of imports the scope starts with imports that were read there or made new. What was bound
stays bound when more is asked for. -/
theorem addAllImports_arranged (hf : s.Faithful text) (hw : sc.Arranged is e.working)
    (h : e.addAllImports calls = .ok e') : e'.source = e.source ∧ e'.style = e.style ∧
      ∃ is', sc.Arranged is' e'.working ∧ Binds is' calls ∧
        is.flatMap Node.importBindings ⊆ is'.flatMap Node.importBindings := by
  induction calls generalizing e is with
  | nil =>
    cases h
    exact ⟨rfl, rfl, is, hw, nofun, List.Subset.refl _⟩
  | cons names calls ih =>
    rw [addAllImports] at h
    split at h
    · cases h
    rename_i e₁ h₁
    obtain ⟨qs, hqs, hsource, hstyle, hw₁⟩ := addImports_arranged hf hw h₁
    obtain ⟨hsource', hstyle', is', hw', hbinds, hsub⟩ := ih hw₁ h
    refine ⟨hsource'.trans hsource, hstyle'.trans hstyle, is', hw', ?_, fun b hb => hsub ?_⟩
    · refine List.forall_mem_cons.2 ⟨fun name hname => hsub ?_, hbinds⟩
      rw [mapM_importedName hqs]
      exact Node.mem_bindings_mergeImports.2 (.inr ⟨_, List.mem_map_of_mem hname, rfl⟩)
    · refine Node.mem_bindings_mergeImports.2 (.inl ?_)
      rwa [sc.filter_arranged hw.imports.isImport]

theorem addAllImports_parsed (hf : s.Faithful text) (hw : e.working = s.tree)
    (h : e.addAllImports (names :: calls) = .ok e') : e'.source = e.source ∧ e'.style = e.style ∧
      ∃ (sc : s.ClassScope) (is : List Node), sc.Arranged is e'.working ∧ Binds is (names :: calls) := by
  rw [addAllImports] at h
  split at h
  · cases h
  rename_i e₁ h₁
  obtain ⟨sc, qs, hqs, hsource, hstyle, hw₁⟩ := addImports_parsed hf hw h₁
  obtain ⟨hsource', hstyle', is, hw', hbinds, hsub⟩ := addAllImports_arranged hf hw₁ h
  refine ⟨hsource'.trans hsource, hstyle'.trans hstyle, sc, is, hw', ?_⟩
  refine List.forall_mem_cons.2 ⟨fun name hname => hsub ?_, hbinds⟩
  rw [mapM_importedName hqs]
  exact Node.mem_bindings_mergeImports.2 (.inr ⟨_, List.mem_map_of_mem hname, rfl⟩)

/-- What importing `names` makes of an editor whose class stands at `pl`: of the imports there the
`kept` ones stay, the `new` ones come, and all of them together are `us`. -/
structure Gathers (e : Editor) (names : List Text) (pl : e.working.root.ClassPlace)
    (kept new us : List Node) (e' : Editor) : Prop where
  source : e'.source = e.source
  style : e'.style = e.style
  next : e.working.next ≤ e'.working.next
  root : e'.working.root = pl.rootWith us
  kept_sublist : kept.Sublist pl.imports
  newImport : ∀ n ∈ new, n.NewImport e.working.next e'.working.next
  perm : us.Perm (kept ++ new)
  once : (us.map Node.id).Nodup
  sorted : Node.Sorted us
  stable : ∀ name, Node.named name us = Node.named name kept ++ Node.named name new
  bindings : ∀ b, b ∈ us.flatMap Node.importBindings ↔
    b ∈ pl.imports.flatMap Node.importBindings ∨ ∃ name ∈ names, b = (.classLike, plainName name)
  /-- Nothing else binds what a new import does. -/
  apart : ∀ n ∈ new, ∀ m ∈ us, m ≠ n → ∀ b ∈ n.importBindings, b ∉ m.importBindings
  scopeRow : e'.working.root.row? pl.node.id =
    some { pl.node.row with children := (pl.arranged us).map Node.id }
  classRow : e'.working.root.row? pl.cls.id = some { pl.cls.row with origin := pl.cls.origin.detach }
  otherRows : ∀ i < e.working.next, i ≠ pl.node.id → i ≠ pl.cls.id →
    (∀ n ∈ pl.imports, n ∉ us → n.id ≠ i) → e'.working.root.row? i = e.working.root.row? i

end Editor

/-- Importing classes merges them into the imports of the scope and leaves all else as it is. -/
theorem addImports_gathers {e e' : Editor} {names : List Text} (he : e.Reachable)
    (h : e.addImports names = .ok e') : ∃ (pl : e.working.root.ClassPlace) (kept new us : List Node),
      e.Gathers names pl kept new us e' := by
  have hsound := he.sound
  have happly : e.apply (.addImports names) = .ok e' := h
  have hsound' : e'.working.Sound := (he.apply happly).sound
  obtain ⟨pl, hq, rfl⟩ := Editor.addImports_place h
  have hreached : (pl.rootWith (Node.mergeImports e.working.next (names.map Editor.plainName)
      pl.node.children)).at? pl.path = some (pl.node.withChildren fun _ => pl.arranged _) :=
    Node.at?_modifyAt pl.reached
  have hmem := Node.mem_subnodes_at? (Node.self_mem_subnodes _) hreached
  have hcls : pl.cls.detach ∈ (pl.node.withChildren fun _ => pl.arranged (Node.mergeImports
      e.working.next (names.map Editor.plainName) pl.node.children)).children :=
    List.mem_append_right _ (List.mem_append_right _ List.mem_cons_self)
  refine ⟨pl, (Node.distinctImports [] pl.imports).1, Node.newImports e.working.next
    (names.map Editor.plainName) pl.node.children, Node.mergeImports e.working.next
    (names.map Editor.plainName) pl.node.children, ?_⟩
  constructor
  case source => rfl
  case style => rfl
  case next => exact Nat.le_add_right _ _
  case root => rfl
  case kept_sublist => exact Node.distinctImports_sublist _ _
  case newImport =>
    intro n hn
    exact Node.newImport_of_mem_newImports hq hn
  case perm => exact Node.mergeImports_perm _ _ _
  case once =>
    have hchildren := hsound'.distinct.children hmem
    exact (((List.sublist_append_left _ _).map Node.id).nodup hchildren)
  case sorted => exact Node.sorted_sortImports _
  case stable =>
    intro name
    rw [Node.mergeImports, Node.named_sortImports, Node.named_append]
    rfl
  case bindings =>
    intro b
    rw [Node.mem_bindings_mergeImports]
    simp only [List.mem_map, exists_exists_and_eq_and]
    rfl
  case apart =>
    intro n hn m hm hne b hb
    exact Node.notMem_bindings_of_new hn hm hne hb
  case scopeRow =>
    exact hsound'.distinct.row?_iff.2 ⟨Node.row_mem_table hmem, rfl⟩
  case classRow =>
    exact hsound'.distinct.row?_iff.2
      ⟨Node.row_mem_table (Node.mem_subnodes_of_child hcls hmem), rfl⟩
  case otherRows =>
    intro i hi hscope hcls hdropped
    exact Node.ClassPlace.row?_rootWith hsound hsound'
      (fun n hn => Editor.kept_or_new hq hn) hi hscope hcls hdropped

/-- Imports of all kinds stand around the class; two of the names asked for are one, and another is
bound by a second clause. -/
theorem addImports_gathers_mixed : ∃ e₀ e e', Editor.parse
      "<?php use C, B as X; class A \x7b\x7d use function f; use B;" = .ok e₀ ∧
    e₀.apply (.addMethod { name := "f" }) = .ok e ∧ e.addImports ["\\B", "D", " D "] = .ok e' ∧
      ∃ (pl : e.working.root.ClassPlace) (kept new us : List Node),
        e.Gathers ["\\B", "D", " D "] pl kept new us e' := by
  have hrun : (Editor.parse
      "<?php use C, B as X; class A \x7b\x7d use function f; use B;").toOption.any (fun e₀ =>
      (e₀.apply (.addMethod { name := "f" })).toOption.any fun e =>
        (e.addImports ["\\B", "D", " D "]).toOption.any fun _ => true) = true := by
    decide +kernel
  obtain ⟨e₀, h₀, hrun⟩ := Steps.exists_of_any hrun
  obtain ⟨e, h, hrun⟩ := Steps.exists_of_any hrun
  obtain ⟨e', h', -⟩ := Steps.exists_of_any hrun
  have he : e.Reachable := .apply (.parse h₀) h
  exact ⟨e₀, e, e', h₀, h, h', addImports_gathers he h'⟩

end PhpGraft
