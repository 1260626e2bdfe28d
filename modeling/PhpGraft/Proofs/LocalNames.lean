import PhpGraft.Proofs.Merging

/-!
The local names that imports give. An import that gives nothing but what the imports in front of it
give goes with its local names, so a name may be lost where one thing has several; every thing keeps
one of the names it had.
-/
namespace PhpGraft

structure LocalName where
  kind : ImportKind
  name : Text
  target : Text
  deriving DecidableEq, Repr

namespace LocalName

def imported (l : LocalName) : ImportKind × Text := (l.kind, l.target)

/-- The alias of a clause, or else the last segment of the name in it. -/
def ofClause (kind : ImportKind) (c : ImportClause) : LocalName :=
  ⟨kind, c.alias?.getD (Name.short c.name), c.name⟩

end LocalName

namespace Node

def localNames (n : Node) : List LocalName :=
  (n.decl.import?.map fun i => i.clauses.map (LocalName.ofClause i.kind)).getD []

theorem importBindings_eq (n : Node) : n.importBindings = n.localNames.map LocalName.imported := by
  unfold importBindings localNames
  cases n.decl.import? with
  | none => rfl
  | some i =>
    simp only [Option.map_some, Option.getD_some, List.map_map]
    rfl

theorem bindings_eq (ns : List Node) :
    ns.flatMap importBindings = (ns.flatMap localNames).map LocalName.imported := by
  rw [List.map_flatMap]
  exact congrArg (ns.flatMap ·) (funext importBindings_eq)

variable {bound : List (ImportKind × Text)} {n : Node} {ns : List Node} {l : LocalName}
  {next : Nat} {names : List Text}

/-- An import stays if it binds something that neither was bound nor is by an import in front. -/
theorem mem_distinctImports : n ∈ (distinctImports bound ns).1 ↔ ∃ front behind,
    ns = front ++ n :: behind ∧
      ∃ b ∈ n.importBindings, b ∉ bound ++ front.flatMap importBindings := by
  induction ns generalizing bound with
  | nil => simp [distinctImports]
  | cons m ns ih =>
    have hkeep : n ∈ (distinctImports bound (m :: ns)).1 ↔
        n = m ∧ (∃ b ∈ m.importBindings, b ∉ bound) ∨
          n ∈ (distinctImports (bound ++ m.importBindings) ns).1 := by
      simp only [distinctImports]
      split
      · rename_i hall
        have hnone : ¬ ∃ b ∈ m.importBindings, b ∉ bound := by
          rintro ⟨b, hb, hnot⟩
          exact hnot (by simpa using List.all_eq_true.1 hall b hb)
        simp [hnone]
      · rename_i hall
        have hsome : ∃ b ∈ m.importBindings, b ∉ bound := by
          simpa using hall
        simp [hsome]
    rw [hkeep, ih]
    constructor
    · rintro (⟨rfl, hfree⟩ | ⟨front, behind, rfl, hfree⟩)
      · exact ⟨[], ns, rfl, by simpa using hfree⟩
      · exact ⟨m :: front, behind, rfl, by simpa using hfree⟩
    · rintro ⟨front, behind, hsplit, hfree⟩
      cases front with
      | nil =>
        obtain ⟨rfl, rfl⟩ := List.cons.inj hsplit
        exact .inl ⟨rfl, by simpa using hfree⟩
      | cons m' front =>
        obtain ⟨rfl, rfl⟩ := List.cons.inj hsplit
        exact .inr ⟨front, behind, rfl, by simpa using hfree⟩

/-- Of the local names from before, those stay that an import gives which stays. -/
theorem mem_localNames_mergeImports (hl : l ∈ (ns.filter isImport).flatMap localNames) :
    l ∈ (mergeImports next names ns).flatMap localNames ↔
      l ∈ (distinctImports [] (ns.filter isImport)).1.flatMap localNames := by
  have hnew : l ∉ (newImports next names ns).flatMap localNames := by
    intro hnew
    have hbinding : l.imported ∈ (newImports next names ns).flatMap importBindings := by
      rw [bindings_eq]
      exact List.mem_map_of_mem hnew
    refine (mem_bindings_newImports.1 hbinding).1 ?_
    rw [bindings_eq]
    exact List.mem_map_of_mem hl
  rw [((mergeImports_perm next names ns).flatMap_right _).mem_iff, List.flatMap_append,
    List.mem_append]
  exact or_iff_left hnew

end Node

/-- What becomes of a local name `l` of the scope when the local names come to be `after`. -/
structure LocalName.Fate (imports : List Node) (after : List LocalName) (l : LocalName) : Prop where
  /-- It stays just if an import gives it that also gives something not given in front of it. -/
  stays_iff : l ∈ after ↔ ∃ front n behind, imports = front ++ n :: behind ∧ l ∈ n.localNames ∧
    ∃ b ∈ n.importBindings, b ∉ front.flatMap Node.importBindings
  /-- What it stands for keeps one of its local names. -/
  known : ∃ k ∈ after, k ∈ imports.flatMap Node.localNames ∧ k.imported = l.imported
  /-- It stays if it is the only name of what it stands for. -/
  stays_of_only : (∀ k ∈ imports.flatMap Node.localNames, k.imported = l.imported → k = l) →
    l ∈ after

theorem localNames_addImports {e e' : Editor} {names : List Text}
    (h : e.addImports names = .ok e') {l : LocalName}
    (hl : l ∈ e.working.root.scopeImports.flatMap Node.localNames) :
    l.Fate e.working.root.scopeImports (e'.working.root.scopeImports.flatMap Node.localNames) := by
  obtain ⟨pl, -, rfl⟩ := Editor.addImports_place h
  have hus : ∀ n ∈ Node.mergeImports e.working.next (names.map Editor.plainName) pl.node.children,
      n.isImport = true := fun _ => Node.isImport_mergeImports
  have hafter := (pl.after hus).scopeImports_eq.trans (pl.imports_after hus)
  rw [pl.scopeImports_eq] at hl ⊢
  dsimp only
  rw [hafter]
  have hknown : ∃ k ∈ (Node.mergeImports e.working.next (names.map Editor.plainName)
      pl.node.children).flatMap Node.localNames,
      k ∈ pl.imports.flatMap Node.localNames ∧ k.imported = l.imported := by
    obtain ⟨n, hn, hln⟩ := List.mem_flatMap.1 hl
    have hbinding : l.imported ∈ n.importBindings := by
      rw [Node.importBindings_eq]
      exact List.mem_map_of_mem hln
    obtain ⟨m, hm, hbm⟩ := (Node.bound_of_dropped [] hn hbinding).resolve_left nofun
    rw [Node.importBindings_eq] at hbm
    obtain ⟨k, hk, hkl⟩ := List.mem_map.1 hbm
    have hold : k ∈ pl.imports.flatMap Node.localNames :=
      List.mem_flatMap.2 ⟨m, (Node.distinctImports_sublist _ _).subset hm, hk⟩
    exact ⟨k, (Node.mem_localNames_mergeImports hold).2 (List.mem_flatMap.2 ⟨m, hm, hk⟩), hold, hkl⟩
  refine ⟨?_, hknown, fun honly => ?_⟩
  · rw [Node.mem_localNames_mergeImports hl, List.mem_flatMap]
    constructor
    · rintro ⟨n, hn, hln⟩
      obtain ⟨front, behind, hsplit, hfree⟩ := Node.mem_distinctImports.1 hn
      exact ⟨front, n, behind, hsplit, hln, hfree⟩
    · rintro ⟨front, n, behind, hsplit, hln, hfree⟩
      exact ⟨n, Node.mem_distinctImports.2 ⟨front, behind, hsplit, hfree⟩, hln⟩
  · obtain ⟨k, hk, hold, hkl⟩ := hknown
    exact honly k hold hkl ▸ hk

/-- The name of the function and the alias in the list of clauses stay. -/
theorem localNames_addImports_mixed : ∃ e e', Editor.parse
      "<?php use function A; use A as X, B; class C \x7b\x7d use A as X;" = .ok e ∧
    e.addImports ["A", "D"] = .ok e' ∧
      (⟨.classLike, "X", "A"⟩ : LocalName) ∈ e'.working.root.scopeImports.flatMap Node.localNames ∧
      (⟨.function, "A", "A"⟩ : LocalName) ∈ e'.working.root.scopeImports.flatMap Node.localNames := by
  have hrun : (Editor.parse
      "<?php use function A; use A as X, B; class C \x7b\x7d use A as X;").toOption.any (fun e =>
      (e.addImports ["A", "D"]).toOption.any fun _ =>
        decide (e.working.root.scopeImports.flatMap Node.localNames =
          ([⟨.function, "A", "A"⟩, ⟨.classLike, "X", "A"⟩, ⟨.classLike, "B", "B"⟩,
            ⟨.classLike, "X", "A"⟩] : List LocalName))) = true := by
    decide +kernel
  obtain ⟨e, h, hrun⟩ := Steps.exists_of_any hrun
  obtain ⟨e', h', hrun⟩ := Steps.exists_of_any hrun
  have hnames := of_decide_eq_true hrun
  refine ⟨e, e', h, h', ?_, ?_⟩
  · refine (localNames_addImports h' (by rw [hnames]; simp)).stays_of_only fun k hk hkl => ?_
    rw [hnames] at hk
    revert hkl
    revert k
    decide +kernel
  · refine (localNames_addImports h' (by rw [hnames]; simp)).stays_of_only fun k hk hkl => ?_
    rw [hnames] at hk
    revert hkl
    revert k
    decide +kernel

/-- A second alias of a class is lost with its import, which gives nothing else. -/
theorem addImports_loses_alias : ∃ e e',
    Editor.parse "<?php use A as X; use A as Y; class C \x7b\x7d" = .ok e ∧
      e.addImports ["A"] = .ok e' ∧
      (⟨.classLike, "Y", "A"⟩ : LocalName) ∈ e.working.root.scopeImports.flatMap Node.localNames ∧
      e'.working.root.scopeImports.flatMap Node.localNames = [⟨.classLike, "X", "A"⟩] := by
  have hrun : (Editor.parse "<?php use A as X; use A as Y; class C \x7b\x7d").toOption.any (fun e =>
      (e.addImports ["A"]).toOption.any fun e' =>
        decide ((⟨.classLike, "Y", "A"⟩ : LocalName) ∈
            e.working.root.scopeImports.flatMap Node.localNames ∧
          e'.working.root.scopeImports.flatMap Node.localNames = [⟨.classLike, "X", "A"⟩])) =
      true := by
    decide +kernel
  obtain ⟨e, h, hrun⟩ := Steps.exists_of_any hrun
  obtain ⟨e', h', hrun⟩ := Steps.exists_of_any hrun
  obtain ⟨hold, hnew⟩ := of_decide_eq_true hrun
  exact ⟨e, e', h, h', hold, hnew⟩

end PhpGraft
