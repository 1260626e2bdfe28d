import PhpGraft.Proofs.Coverage
import PhpGraft.Proofs.Splice

/-!
Importing classes. The imports of the class's scope come to stand in front of all other children of
the scope, which keep their order; an import goes only if all it binds is bound by others.
-/
namespace PhpGraft

namespace Node

/-! Which imports stay. -/

theorem distinctImports_sublist (bound : List (ImportKind × Text)) (ns : List Node) :
    (distinctImports bound ns).1.Sublist ns := by
  induction ns generalizing bound with
  | nil => exact .slnil
  | cons n ns ih =>
    simp only [distinctImports]
    split
    · exact (ih _).cons n
    · exact (ih _).cons_cons n

/-- An import is dropped only where all it binds is bound by an import that stays. -/
theorem bound_of_dropped (bound : List (ImportKind × Text)) {b : ImportKind × Text} {n : Node}
    {ns : List Node} (hn : n ∈ ns) (hb : b ∈ n.importBindings) :
    b ∈ bound ∨ ∃ m ∈ (distinctImports bound ns).1, b ∈ m.importBindings := by
  induction ns generalizing bound with
  | nil => cases hn
  | cons m ns ih =>
    have hstep : b ∈ bound ++ m.importBindings ∨
        (∃ k ∈ (distinctImports (bound ++ m.importBindings) ns).1, b ∈ k.importBindings) := by
      rcases List.mem_cons.1 hn with rfl | hn
      · exact .inl (List.mem_append_right _ hb)
      · exact ih _ hn
    simp only [distinctImports]
    split
    · rename_i hall
      refine hstep.imp_left fun hmem => ?_
      rcases List.mem_append.1 hmem with hmem | hmem
      · exact hmem
      · simpa using List.all_eq_true.1 hall b hmem
    · rcases hstep with hmem | ⟨k, hk, hbk⟩
      · rcases List.mem_append.1 hmem with hmem | hmem
        · exact .inl hmem
        · exact .inr ⟨m, List.mem_cons_self, hmem⟩
      · exact .inr ⟨k, List.mem_cons_of_mem _ hk, hbk⟩

theorem unboundNames_sublist (bound : List (ImportKind × Text)) (names : List Text) :
    (unboundNames bound names).Sublist names := by
  induction names generalizing bound with
  | nil => exact .slnil
  | cons name names ih =>
    simp only [unboundNames]
    split
    · exact (ih _).cons name
    · exact (ih _).cons_cons name

/-- An import of one class that was made new, with a number from `next` up to `limit`. -/
def NewImport (next limit : Nat) (n : Node) : Prop :=
  ∃ id name, next ≤ id ∧ id < limit ∧ Name.isQualified name = true ∧
    n = ⟨id, .synthesized, .imports (.ofClass name), []⟩

theorem NewImport.isImport {next limit : Nat} {n : Node} (h : NewImport next limit n) :
    n.isImport = true := by
  obtain ⟨id, name, -, -, -, rfl⟩ := h
  rfl

theorem newImport_of_mem {next : Nat} {names : List Text} {n : Node}
    (hq : ∀ name ∈ names, Name.isQualified name = true) (h : n ∈ importsOf next names) :
    NewImport next (next + names.length) n := by
  induction names generalizing next with
  | nil => cases h
  | cons name names ih =>
    rcases List.mem_cons.1 h with rfl | h
    · exact ⟨next, name, Nat.le_refl _, by simp, hq name List.mem_cons_self, rfl⟩
    · obtain ⟨id, name, hle, hlt, hname, rfl⟩ :=
        ih (fun name hn => hq name (List.mem_cons_of_mem _ hn)) h
      simp only [List.length_cons]
      exact ⟨id, name, by omega, by omega, hname, rfl⟩

theorem nodup_importsOf (next : Nat) (names : List Text) :
    ((importsOf next names).map Node.id).Nodup := by
  have hle : ∀ (next : Nat) (names : List Text), ∀ i ∈ (importsOf next names).map Node.id, next ≤ i := by
    intro next names
    induction names generalizing next with
    | nil => exact fun _ hi => nomatch hi
    | cons name names ih =>
      intro i hi
      rcases List.mem_cons.1 hi with rfl | hi
      · exact Nat.le_refl _
      · exact Nat.le_of_succ_le (ih (next + 1) i hi)
  induction names generalizing next with
  | nil => exact .nil
  | cons name names ih =>
    refine List.nodup_cons.2 ⟨fun hmem => ?_, ih _⟩
    exact Nat.lt_irrefl _ (hle _ _ _ hmem)

/-! How the children of the scope are arranged. -/

/-- All children but the imports. -/
def others (ns : List Node) : List Node := ns.filter (!·.isImport)

theorem others_sublist (ns : List Node) : (others ns).Sublist ns := List.filter_sublist

theorem others_append (ns ms : List Node) : others (ns ++ ms) = others ns ++ others ms :=
  List.filter_append ..

theorem others_others (ns : List Node) : others (others ns) = others ns := by
  rw [others, others, List.filter_filter]
  simp only [Bool.and_self]

theorem others_of_imports {ns : List Node} (h : ∀ n ∈ ns, n.isImport = true) : others ns = [] := by
  rw [others, List.filter_eq_nil_iff]
  intro n hn
  simp [h n hn]

theorem mem_others {n : Node} {ns : List Node} :
    n ∈ others ns ↔ n ∈ ns ∧ n.isImport = false := by
  rw [others, List.mem_filter, Bool.not_eq_true']

theorem filter_isImport_others (ns : List Node) : (others ns).filter isImport = [] := by
  refine List.filter_eq_nil_iff.2 fun n hn => ?_
  rw [(mem_others.1 hn).2]
  exact nofun

@[simp] theorem detach_detach (n : Node) : n.detach.detach = n.detach := by
  obtain ⟨id, origin, decl, children⟩ := n
  cases origin <;> rfl

theorem withImports_split (is before behind : List Node) (c : Node) :
    withImports is before.length (before ++ c :: behind) =
      is ++ (others before ++ c.detach :: others behind) := by
  simp [withImports, others]

theorem lastClass?_append {before behind : List Node} {c : Node} (hc : c.isClass = true)
    (hb : ∀ n ∈ behind, n.isClass = false) :
    lastClass? (before ++ c :: behind) = some before.length := by
  have hfind : (before ++ c :: behind).reverse.findIdx? isClass = some behind.length := by
    rw [List.reverse_append, List.reverse_cons, List.append_assoc, List.findIdx?_append,
      List.findIdx?_eq_none_iff.2 fun n hn => hb n (List.mem_reverse.1 hn)]
    simp [List.findIdx?_cons, hc]
  rw [lastClass?, hfind, Option.map_some]
  simp

theorem split_of_lastClass? {ns : List Node} {i : Nat} (h : lastClass? ns = some i) :
    ∃ before c behind, ns = before ++ c :: behind ∧ before.length = i ∧ c.isClass = true ∧
      ∀ n ∈ behind, n.isClass = false := by
  obtain ⟨j, hj, rfl⟩ := Option.map_eq_some_iff.1 h
  obtain ⟨hlt, hc, hrest⟩ := List.findIdx?_eq_some_iff_getElem.1 hj
  rw [List.length_reverse] at hlt
  rw [List.getElem_reverse] at hc
  have hi : ns.length - 1 - j < ns.length := by omega
  refine ⟨ns.take (ns.length - 1 - j), ns[ns.length - 1 - j], ns.drop (ns.length - 1 - j + 1), ?_,
    by simp; omega, hc, fun n hn => ?_⟩
  · rw [← List.drop_eq_getElem_cons hi, List.take_append_drop]
  · obtain ⟨k, hk, rfl⟩ := List.mem_iff_getElem.1 hn
    rw [List.length_drop] at hk
    have hkj : j - 1 - k < j := by omega
    have hne := hrest (j - 1 - k) hkj
    rw [List.getElem_reverse, Bool.not_eq_true] at hne
    rw [List.getElem_drop, ← hne]
    congr 1
    congr 1
    omega

theorem isImport_of_isClass {n : Node} (h : n.isClass = true) : n.isImport = false := by
  unfold isClass at h
  unfold isImport
  cases hd : n.decl with
  | classLike head => rfl
  | _ =>
    rw [hd] at h
    cases h

theorem isClass_of_isImport {n : Node} (h : n.isImport = true) : n.isClass = false := by
  cases hc : n.isClass with
  | false => rfl
  | true =>
    rw [isImport_of_isClass hc] at h
    cases h

/-! Which class is edited. -/

theorem findSome?_range {α : Type} {f : Nat → Option α} {n : Nat} {b : α} :
    (List.range n).findSome? f = some b ↔ ∃ k < n, f k = some b ∧ ∀ j < k, f j = none := by
  induction n with
  | zero => simp
  | succ n ih =>
    rw [List.range_succ, List.findSome?_append, Option.or_eq_some_iff, ih, List.findSome?_eq_none_iff]
    simp only [List.mem_range, List.findSome?_singleton]
    constructor
    · rintro (⟨k, hk, h⟩ | ⟨hnone, hn⟩)
      · exact ⟨k, by omega, h⟩
      · exact ⟨n, by omega, hn, hnone⟩
    · rintro ⟨k, hk, hf, hnone⟩
      rcases Nat.lt_succ_iff_lt_or_eq.1 hk with hk | rfl
      · exact .inl ⟨k, hk, hf, hnone⟩
      · exact .inr ⟨hnone, hf⟩

/-- The last class of a namespace. -/
def scopeClass? (n : Node) : Option Nat :=
  if n.decl.isScope then lastClass? n.children else none

theorem classScope?_scopeClass (root : Node) : root.classScope? =
    ((List.range root.children.length).findSome? fun k =>
      (root.children[k]?.bind scopeClass?).map ([k], ·)).or
      ((lastClass? root.children).map ([], ·)) := by
  have hscope : ∀ k : Nat, (root.children[k]?.bind fun n =>
      if n.decl.isScope then (lastClass? n.children).map (([k] : List Nat), ·) else none) =
      (root.children[k]?.bind scopeClass?).map ([k], ·) := by
    intro k
    cases root.children[k]? with
    | none => rfl
    | some n =>
      simp only [Option.bind_some, scopeClass?]
      split <;> rfl
  simp only [← hscope]
  rfl

theorem classScope?_scope_iff {root : Node} {k i : Nat} : root.classScope? = some ([k], i) ↔
    root.children[k]?.bind scopeClass? = some i ∧
      ∀ j < k, root.children[j]?.bind scopeClass? = none := by
  rw [classScope?_scopeClass, Option.or_eq_some_iff, findSome?_range]
  constructor
  · rintro (⟨j, -, hj, hnone⟩ | ⟨-, h⟩)
    · obtain ⟨l, hl, he⟩ := Option.map_eq_some_iff.1 hj
      cases he
      exact ⟨hl, fun j hj => Option.map_eq_none_iff.1 (hnone j hj)⟩
    · obtain ⟨l, -, he⟩ := Option.map_eq_some_iff.1 h
      cases he
  · rintro ⟨hk, hnone⟩
    obtain ⟨n, hn, -⟩ := Option.bind_eq_some_iff.1 hk
    refine .inl ⟨k, (List.getElem?_eq_some_iff.1 hn).1, by rw [hk]; rfl, fun j hj => ?_⟩
    rw [hnone j hj]
    rfl

theorem classScope?_file_iff {root : Node} {i : Nat} : root.classScope? = some ([], i) ↔
    (∀ n ∈ root.children, n.scopeClass? = none) ∧ lastClass? root.children = some i := by
  rw [classScope?_scopeClass, Option.or_eq_some_iff, findSome?_range, List.findSome?_eq_none_iff]
  constructor
  · rintro (⟨j, -, hj, -⟩ | ⟨hnone, h⟩)
    · obtain ⟨l, -, he⟩ := Option.map_eq_some_iff.1 hj
      cases he
    · obtain ⟨l, hl, he⟩ := Option.map_eq_some_iff.1 h
      cases he
      refine ⟨fun n hn => ?_, hl⟩
      obtain ⟨j, hj, rfl⟩ := List.mem_iff_getElem.1 hn
      have := hnone j (List.mem_range.2 hj)
      rwa [List.getElem?_eq_getElem hj, Option.bind_some, Option.map_eq_none_iff] at this
  · rintro ⟨hnone, h⟩
    refine .inr ⟨fun j hj => ?_, by rw [h]; rfl⟩
    rw [List.getElem?_eq_getElem (List.mem_range.1 hj), Option.bind_some,
      hnone _ (List.getElem_mem _)]
    rfl

/-- The class being edited is the last one of the children that it stands in. -/
theorem split_of_classScope? {root : Node} {path : List Nat} {i : Nat}
    (h : root.classScope? = some (path, i)) : ∃ n before c behind, root.at? path = some n ∧
      n.children = before ++ c :: behind ∧ before.length = i ∧ c.isClass = true ∧
      ∀ m ∈ behind, m.isClass = false := by
  rcases classScope?_cases h with ⟨rfl, -⟩ | ⟨k, n, -, rfl, hn, hscope, -, -⟩
  · obtain ⟨before, c, behind, hsplit⟩ := split_of_lastClass? (classScope?_file_iff.1 h).2
    exact ⟨root, before, c, behind, rfl, hsplit⟩
  · have hlast := (classScope?_scope_iff.1 h).1
    rw [hn, Option.bind_some, scopeClass?, if_pos hscope] at hlast
    obtain ⟨before, c, behind, hsplit⟩ := split_of_lastClass? hlast
    exact ⟨n, before, c, behind, by rw [at?, hn]; rfl, hsplit⟩

theorem not_isContainer_of_isImport {n : Node} (h : n.isImport = true) : n.decl.isContainer = false := by
  unfold isImport at h
  cases hd : n.decl <;> rw [hd] at h <;> first | rfl | cases h

theorem scopeClass?_of_isImport {n : Node} (h : n.isImport = true) : n.scopeClass? = none := by
  unfold isImport at h
  unfold scopeClass?
  cases hd : n.decl with
  | scope => simp [hd, Decl.import?] at h
  | _ => rfl

theorem scopeClass?_of_isClass {n : Node} (h : n.isClass = true) : n.scopeClass? = none := by
  unfold isClass at h
  unfold scopeClass?
  cases hd : n.decl with
  | scope => simp [hd, Decl.isClass] at h
  | _ => rfl

theorem modifyAt_congr {f g : Node → Node} {root n : Node} {path : List Nat}
    (hn : root.at? path = some n) (h : f n = g n) : root.modifyAt f path = root.modifyAt g path := by
  induction path generalizing root with
  | nil =>
    cases hn
    exact h
  | cons i path ih =>
    obtain ⟨m, hm, hnode⟩ := Option.bind_eq_some_iff.1 hn
    rw [modifyAt, modifyAt]
    congr 1
    refine List.ext_getElem? fun j => ?_
    rw [List.getElem?_modify, List.getElem?_modify]
    by_cases hj : i = j
    · subst hj
      simp [hm, ih hnode]
    · simp [hj]

/-- Other declarations in the class's scope do not change which class is edited, if they leave it the last
one and declare classes in namespaces as before. -/
theorem classScope?_withChildren {root n c : Node} {scope : List Nat} {i : Nat} {before behind : List Node}
    (h : root.classScope? = some (scope, i)) (hn : root.at? scope = some n) (hc : c.isClass = true)
    (hb : ∀ n ∈ behind, n.isClass = false) (hsame : ∀ m ∈ before ++ c :: behind,
      m.scopeClass? = none ∨ ∃ k ∈ n.children, m.scopeClass? = k.scopeClass?) :
    (root.modifyAt (.withChildren fun _ => before ++ c :: behind) scope).classScope? =
      some (scope, before.length) := by
  have hlast : lastClass? (before ++ c :: behind) = some before.length := lastClass?_append hc hb
  rcases classScope?_cases h with ⟨rfl, -⟩ | ⟨k, m, -, rfl, hm, hscope, -, -⟩
  · cases hn
    rw [classScope?_file_iff] at h ⊢
    refine ⟨fun x hx => ?_, hlast⟩
    rcases hsame x hx with hnone | ⟨k, hk, hsame⟩
    · exact hnone
    · rw [hsame, h.1 k hk]
  · obtain rfl : m = n := by
      rw [at?, hm] at hn
      exact Option.some.inj hn
    rw [classScope?_scope_iff] at h ⊢
    refine ⟨?_, fun j hj => ?_⟩
    · simp only [modifyAt, List.getElem?_modify_eq, hm, Option.map_eq_map, Option.map_some,
        Option.bind_some]
      rw [scopeClass?, withChildren]
      exact (if_pos hscope).trans hlast
    · simp only [modifyAt, List.getElem?_modify_ne _ _ (Nat.ne_of_gt hj)]
      exact h.2 j hj

/-- Imports that gather in front of the class's scope do not change which class is edited. -/
theorem classScope?_withImports {root n c : Node} {scope : List Nat} {is before behind : List Node}
    (h : root.classScope? = some (scope, before.length)) (hn : root.at? scope = some n)
    (hs : n.children = before ++ c :: behind) (hc : c.isClass = true)
    (hb : ∀ n ∈ behind, n.isClass = false) (his : ∀ n ∈ is, n.isImport = true) :
    (root.modifyAt (.withChildren (withImports is before.length)) scope).classScope? =
      some (scope, (is ++ others before).length) := by
  have hmodify : root.modifyAt (.withChildren (withImports is before.length)) scope =
      root.modifyAt (.withChildren fun _ => (is ++ others before) ++ c.detach :: others behind) scope := by
    refine modifyAt_congr hn ?_
    rw [withChildren, withChildren, hs, withImports_split, List.append_assoc]
  have hread : ∀ {ns : List Node} {x : Node}, ns ⊆ n.children → x ∈ others ns →
      x.scopeClass? = none ∨ ∃ k ∈ n.children, x.scopeClass? = k.scopeClass? :=
    fun hns hx => .inr ⟨_, hns ((others_sublist _).subset hx), rfl⟩
  rw [hmodify]
  refine classScope?_withChildren h hn hc (fun m hm => hb m ((others_sublist behind).subset hm))
    fun x hx => ?_
  rw [hs] at hread ⊢
  rcases List.mem_append.1 hx with hx | hx
  · rcases List.mem_append.1 hx with hx | hx
    · exact .inl (scopeClass?_of_isImport (his x hx))
    · exact hread (List.subset_append_left _ _) hx
  rcases List.mem_cons.1 hx with rfl | hx
  · exact .inl (scopeClass?_of_isClass hc)
  · exact hread (fun m hm => List.mem_append_right _ (.tail _ hm)) hx

/-- Imports for the names that the children do not bind yet. -/
def newImports (next : Nat) (names : List Text) (children : List Node) : List Node :=
  importsOf next (unboundNames (distinctImports [] (children.filter isImport)).2 names)

/-- The imports among the children, without those that bind nothing new, and new ones in order. -/
def mergeImports (next : Nat) (names : List Text) (children : List Node) : List Node :=
  sortImports ((distinctImports [] (children.filter isImport)).1 ++ newImports next names children)

theorem mergeImports_perm (next : Nat) (names : List Text) (children : List Node) :
    (mergeImports next names children).Perm
      ((distinctImports [] (children.filter isImport)).1 ++ newImports next names children) :=
  List.mergeSort_perm _ _

theorem mem_mergeImports {next : Nat} {names : List Text} {children : List Node} {n : Node} :
    n ∈ mergeImports next names children ↔
      n ∈ (distinctImports [] (children.filter isImport)).1 ∨ n ∈ newImports next names children := by
  rw [(mergeImports_perm next names children).mem_iff, List.mem_append]

theorem isImport_importsOf {next : Nat} {names : List Text} {n : Node}
    (h : n ∈ importsOf next names) : n.isImport = true := by
  induction names generalizing next with
  | nil => cases h
  | cons name names ih =>
    rcases List.mem_cons.1 h with rfl | h
    · rfl
    · exact ih h

theorem isImport_mergeImports {next : Nat} {names : List Text} {children : List Node} {n : Node}
    (h : n ∈ mergeImports next names children) : n.isImport = true := by
  rcases mem_mergeImports.1 h with h | h
  · exact (List.mem_filter.1 ((distinctImports_sublist _ _).subset h)).2
  · exact isImport_importsOf h

theorem length_importsOf (next : Nat) (names : List Text) :
    (importsOf next names).length = names.length := by
  induction names generalizing next with
  | nil => rfl
  | cons name names ih => exact congrArg Nat.succ (ih _)

theorem newImport_of_mem_newImports {next : Nat} {names : List Text} {children : List Node}
    {n : Node} (hq : ∀ name ∈ names, Name.isQualified name = true)
    (h : n ∈ newImports next names children) :
    NewImport next (next + (newImports next names children).length) n := by
  have hsub := unboundNames_sublist (distinctImports [] (children.filter isImport)).2 names
  rw [newImports, length_importsOf]
  exact newImport_of_mem (fun name hn => hq name (hsub.subset hn)) h

theorem modifyAt_id (path : List Nat) (n : Node) : modifyAt (fun n => n) path n = n := by
  induction path generalizing n with
  | nil => rfl
  | cons i path ih =>
    rw [modifyAt, funext ih]
    cases n
    exact congrArg (Node.mk _ _ _) (List.modify_id i _)

theorem at?_modifyAt {f : Node → Node} {root n : Node} {path : List Nat}
    (hn : root.at? path = some n) : (root.modifyAt f path).at? path = some (f n) := by
  induction path generalizing root with
  | nil =>
    cases hn
    rfl
  | cons i path ih =>
    obtain ⟨m, hm, hnode⟩ := Option.bind_eq_some_iff.1 hn
    rw [modifyAt, at?]
    simp only [List.getElem?_modify_eq, hm, Option.map_eq_map, Option.map_some, Option.bind_some]
    exact ih hnode

end Node

namespace Source

/-- Where the class being edited was read: in the children of `node`, as the last class of them. -/
structure ClassScope (s : Source) where
  path : List Nat
  node : Node
  before : List Node
  cls : Node
  behind : List Node
  edited : s.tree.root.classScope? = some (path, before.length)
  reached : s.tree.root.at? path = some node
  split : node.children = before ++ cls :: behind
  isClass : cls.isClass = true
  last : ∀ n ∈ behind, n.isClass = false

variable {s : Source} {text : Text}

theorem exists_classScope {path : List Nat} {i : Nat}
    (h : s.tree.root.classScope? = some (path, i)) :
    ∃ sc : s.ClassScope, sc.path = path ∧ sc.before.length = i := by
  obtain ⟨n, before, c, behind, hn, hsplit, rfl, hc, hb⟩ := Node.split_of_classScope? h
  exact ⟨⟨path, n, before, c, behind, h, hn, hsplit, hc, hb⟩, rfl, rfl⟩

namespace ClassScope

variable (sc : s.ClassScope) {is : List Node} {t : Tree} {limit : Nat}

/-- The children of the scope behind the given imports. -/
def arranged (is : List Node) : List Node :=
  is ++ (Node.others sc.before ++ sc.cls.detach :: Node.others sc.behind)

/-- Imports of the scope, as they were read or made new. -/
structure Imports (limit : Nat) (is : List Node) : Prop where
  once : (is.map Node.id).Nodup
  each : ∀ n ∈ is, (n ∈ sc.node.children ∧ n.isImport = true) ∨ n.NewImport s.tree.next limit

/-- The tree as it was read but for the scope, which starts with the given imports. -/
structure Arranged (is : List Node) (t : Tree) : Prop where
  root : t.root = s.tree.root.modifyAt (.withChildren fun _ => sc.arranged is) sc.path
  imports : sc.Imports t.next is
  next : s.tree.next ≤ t.next

variable {sc}

theorem Imports.isImport (h : sc.Imports limit is) : ∀ n ∈ is, n.isImport = true := by
  intro n hn
  rcases h.each n hn with ⟨-, h⟩ | h
  · exact h
  · exact h.isImport

theorem cls_mem (sc : s.ClassScope) : sc.cls ∈ sc.node.children := by
  simp [sc.split]

theorem node_mem (sc : s.ClassScope) : sc.node ∈ s.tree.root.subnodes :=
  Node.mem_subnodes_at? (Node.self_mem_subnodes _) sc.reached

theorem Imports.lt (hf : s.Faithful text) (h : sc.Imports limit is) (hl : s.tree.next ≤ limit) :
    ∀ n ∈ is, n.id < limit := by
  intro n hn
  rcases h.each n hn with ⟨hmem, -⟩ | ⟨id, name, -, hlt, -, rfl⟩
  · exact Nat.lt_of_lt_of_le
      (hf.fresh n (Node.mem_subnodes_of_child hmem (node_mem sc))) hl
  · exact hlt

/-- As read, the scope has imports of its own alone. -/
theorem imports_read (hf : s.Faithful text) :
    sc.Imports s.tree.next (sc.node.children.filter Node.isImport) := by
  refine ⟨(hf.distinct.children (node_mem sc)).sublist (List.filter_sublist.map _), fun n hn => ?_⟩
  exact .inl (List.mem_filter.1 hn)

/-- New names are merged into the imports. -/
theorem Imports.merge (hf : s.Faithful text) {names : List Text} {children : List Node}
    (hq : ∀ name ∈ names, Name.isQualified name = true)
    (h : sc.Imports limit (children.filter Node.isImport)) (hl : s.tree.next ≤ limit) :
    sc.Imports (limit + (Node.newImports limit names children).length)
      (Node.mergeImports limit names children) := by
  have hsub := Node.distinctImports_sublist [] (children.filter Node.isImport)
  have hlt := h.lt hf hl
  have hperm := Node.mergeImports_perm limit names children
  refine ⟨?_, fun n hn => ?_⟩
  · rw [(hperm.map Node.id).nodup_iff, List.map_append, List.nodup_append]
    refine ⟨h.once.sublist (hsub.map _), Node.nodup_importsOf .., fun i hi j hj hij => ?_⟩
    obtain ⟨x, hx, rfl⟩ := List.mem_map.1 hi
    obtain ⟨y, hy, rfl⟩ := List.mem_map.1 hj
    obtain ⟨id, name, hle, -, -, rfl⟩ := Node.newImport_of_mem_newImports hq hy
    have := hlt x (hsub.subset hx)
    dsimp only at hij
    omega
  · rcases Node.mem_mergeImports.1 hn with hn | hn
    · rcases h.each n (hsub.subset hn) with hold | ⟨id, name, hle, hlt, hname, rfl⟩
      · exact .inl hold
      · exact .inr ⟨id, name, hle, by omega, hname, rfl⟩
    · obtain ⟨id, name, hle, hlt, hname, rfl⟩ := Node.newImport_of_mem_newImports hq hn
      exact .inr ⟨id, name, by omega, hlt, hname, rfl⟩

theorem arranged_eq (sc : s.ClassScope) (is : List Node) :
    sc.arranged is = Node.withImports is sc.before.length sc.node.children := by
  rw [sc.split, Node.withImports_split]
  rfl

/-- Arranging the children anew exchanges their imports. -/
theorem arranged_again (sc : s.ClassScope) (is' : List Node) (h : ∀ n ∈ is, n.isImport = true) :
    Node.withImports is' (is ++ Node.others sc.before).length (sc.arranged is) = sc.arranged is' := by
  rw [arranged, ← List.append_assoc, Node.withImports_split, Node.others_append, Node.others_others,
    Node.others_others, Node.others_of_imports h, List.nil_append, Node.detach_detach]
  rfl

theorem filter_arranged (sc : s.ClassScope) (h : ∀ n ∈ is, n.isImport = true) :
    (sc.arranged is).filter Node.isImport = is := by
  rw [arranged, List.filter_append, List.filter_eq_self.2 h, List.filter_eq_nil_iff.2,
    List.append_nil]
  intro n hn
  rw [Bool.not_eq_true]
  rcases List.mem_append.1 hn with hn | hn
  · exact (Node.mem_others.1 hn).2
  rcases List.mem_cons.1 hn with rfl | hn
  · exact Node.isImport_of_isClass sc.isClass
  · exact (Node.mem_others.1 hn).2

theorem Arranged.classScope? (h : sc.Arranged is t) :
    t.root.classScope? = some (sc.path, (is ++ Node.others sc.before).length) := by
  rw [h.root, Node.modifyAt_congr (g := .withChildren (Node.withImports is sc.before.length))
    sc.reached (congrArg (Node.mk _ _ _) (sc.arranged_eq is))]
  exact Node.classScope?_withImports sc.edited sc.reached sc.split sc.isClass sc.last
    h.imports.isImport

theorem Arranged.at? (h : sc.Arranged is t) :
    t.root.at? sc.path = some (sc.node.withChildren fun _ => sc.arranged is) := by
  rw [h.root]
  exact Node.at?_modifyAt sc.reached

end ClassScope
end Source

namespace Editor

variable {e e' : Editor} {names : List Text}

theorem isQualified_of_importedName {name q : Text} (h : importedName name = .ok q) :
    Name.isQualified q = true := by
  unfold importedName at h
  dsimp only at h
  split at h
  · cases h
    assumption
  · cases h

theorem isQualified_of_mapM {qs : List Text} (h : names.mapM importedName = .ok qs) :
    ∀ q ∈ qs, Name.isQualified q = true := by
  induction names generalizing qs with
  | nil =>
    cases h
    exact fun _ hq => nomatch hq
  | cons name names ih =>
    rw [List.mapM_cons] at h
    cases hname : importedName name with
    | error e =>
      rw [hname] at h
      cases h
    | ok q =>
      rw [hname] at h
      cases hrest : names.mapM importedName with
      | error e =>
        rw [hrest] at h
        cases h
      | ok rest =>
        rw [hrest] at h
        cases h
        exact List.forall_mem_cons.2 ⟨isQualified_of_importedName hname, ih hrest⟩

theorem addImports_eq (h : e.addImports names = .ok e') : ∃ qs scope classAt n,
    names.mapM importedName = .ok qs ∧ e.working.root.classScope? = some (scope, classAt) ∧
      e.working.root.at? scope = some n ∧
      e' = { e with working :=
        ⟨e.working.root.modifyAt (.withChildren fun _ => Node.withImports
            (Node.mergeImports e.working.next qs n.children) classAt n.children) scope,
          e.working.next + (Node.newImports e.working.next qs n.children).length⟩ } := by
  unfold addImports at h
  split at h
  · cases h
  rename_i qs hqs
  split at h
  · cases h
  rename_i scope classAt hs
  obtain ⟨c, hc, -⟩ := Node.at?_classScope? hs
  obtain ⟨n, hn⟩ : ∃ n, e.working.root.at? scope = some n := by
    rcases Node.classScope?_cases hs with ⟨rfl, -⟩ | ⟨k, n, -, rfl, hn, -⟩
    · exact ⟨_, rfl⟩
    · exact ⟨n, by rw [Node.at?, hn]; rfl⟩
  refine ⟨qs, scope, classAt, n, hqs, hs, hn, ?_⟩
  simp only [hn, Option.map_some, Option.getD_some] at h
  cases h
  congr 2
  exact Node.modifyAt_congr hn rfl

variable {s : Source} {text : Text} {sc : s.ClassScope} {is : List Node}

/-- The first import gathers the imports of the scope as it was read. -/
theorem addImports_parsed (hf : s.Faithful text) (hw : e.working = s.tree)
    (h : e.addImports names = .ok e') : ∃ (sc : s.ClassScope) (qs : List Text),
      names.mapM importedName = .ok qs ∧ e'.source = e.source ∧ e'.style = e.style ∧
      sc.Arranged (Node.mergeImports s.tree.next qs sc.node.children) e'.working := by
  obtain ⟨qs, scope, classAt, n, hqs, hs, hn, rfl⟩ := addImports_eq h
  rw [hw] at hs hn
  obtain ⟨sc, rfl, rfl⟩ := Source.exists_classScope hs
  obtain rfl := Option.some.inj (sc.reached.symm.trans hn)
  refine ⟨sc, qs, hqs, rfl, rfl, ?_, ?_, ?_⟩
  · simp only [hw, sc.arranged_eq]
  · simp only [hw]
    exact (Source.ClassScope.imports_read hf).merge hf (isQualified_of_mapM hqs) (Nat.le_refl _)
  · simp only [hw]
    exact Nat.le_add_right _ _

/-- Each further import merges into the imports that stand in front of the scope. -/
theorem addImports_arranged (hf : s.Faithful text)
    (hw : sc.Arranged is e.working) (h : e.addImports names = .ok e') : ∃ qs,
      names.mapM importedName = .ok qs ∧ e'.source = e.source ∧ e'.style = e.style ∧
      sc.Arranged (Node.mergeImports e.working.next qs (sc.arranged is)) e'.working := by
  obtain ⟨qs, scope, classAt, n, hqs, hs, hn, rfl⟩ := addImports_eq h
  obtain ⟨rfl, rfl⟩ := Prod.mk.inj (Option.some.inj (hs.symm.trans hw.classScope?))
  obtain rfl := Option.some.inj (hn.symm.trans hw.at?)
  have hchildren : (sc.node.withChildren fun _ => sc.arranged is).children = sc.arranged is := rfl
  refine ⟨qs, hqs, rfl, rfl, ?_, ?_, ?_⟩ <;> simp only [hchildren]
  · simp only [hw.root, Node.modifyAt_modifyAt, sc.arranged_again _ hw.imports.isImport]
    rfl
  · refine Source.ClassScope.Imports.merge hf (isQualified_of_mapM hqs) ?_ hw.next
    rw [sc.filter_arranged hw.imports.isImport]
    exact hw.imports
  · exact Nat.le_trans hw.next (Nat.le_add_right _ _)

/-- Imports one list of names after the other. -/
def addAllImports (e : Editor) : List (List Text) → Except Error Editor
  | [] => .ok e
  | names :: rest =>
    match e.addImports names with
    | .error fault => .error fault
    | .ok e => e.addAllImports rest

end Editor
end PhpGraft
