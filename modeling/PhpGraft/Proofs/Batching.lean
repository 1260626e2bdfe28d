import PhpGraft.Proofs.Merging

/-!
Names asked for in one call or in several. Where each import has one clause, two calls come to what
one call with all names does, to the numbers of the new nodes; in which order the names come, and how
often, is not shown by the text.
-/
namespace PhpGraft

namespace Node

variable {next : Nat} {bound bound' : List (ImportKind × Text)} {ns : List Node}
  {names names' : List Text}

/-! Names one after the other. -/

theorem importsOf_append (next : Nat) (names names' : List Text) :
    importsOf next (names ++ names') =
      importsOf next names ++ importsOf (next + names.length) names' := by
  induction names generalizing next with
  | nil => rfl
  | cons name names ih =>
    rw [List.cons_append, importsOf, importsOf, ih, List.length_cons, Nat.add_assoc,
      Nat.add_comm 1, List.cons_append]

theorem unboundNames_congr (names : List Text) (h : ∀ b, b ∈ bound ↔ b ∈ bound') :
    unboundNames bound names = unboundNames bound' names := by
  induction names generalizing bound bound' with
  | nil => rfl
  | cons name names ih =>
    have hcons : ∀ b, b ∈ (.classLike, name) :: bound ↔ b ∈ (.classLike, name) :: bound' := by
      intro b
      rw [List.mem_cons, List.mem_cons, h]
    simp only [unboundNames, List.contains_iff_mem, h, ih h, ih hcons]

theorem unboundNames_append (bound : List (ImportKind × Text)) (names names' : List Text) :
    unboundNames bound (names ++ names') =
      unboundNames bound names ++ unboundNames (bound ++ names.map (.classLike, ·)) names' := by
  induction names generalizing bound with
  | nil => rw [List.map_nil, List.append_nil]; rfl
  | cons name names ih =>
    simp only [List.cons_append, unboundNames, List.contains_iff_mem, ih]
    split
    · rename_i hmem
      refine congrArg _ (unboundNames_congr _ fun b => ?_)
      simp only [List.map_cons, List.mem_append, List.mem_cons]
      constructor
      · exact Or.imp_right .inr
      · rintro (h | rfl | h)
        · exact .inl h
        · exact .inl hmem
        · exact .inr h
    · rw [List.cons_append]
      refine congrArg _ (congrArg _ (unboundNames_congr _ fun b => ?_))
      simp only [List.map_cons, List.mem_append, List.mem_cons]
      tauto

/-! Imports of one clause each. -/

/-- Imports that each bind one thing. -/
def Single (ns : List Node) : Prop := ∀ n ∈ ns, n.importBindings.length = 1

instance (ns : List Node) : Decidable (Single ns) :=
  inferInstanceAs (Decidable (∀ n ∈ ns, n.importBindings.length = 1))

/-- Of imports with one clause each, those that stay bind different things. -/
theorem bindings_distinctImports (bound : List (ImportKind × Text)) (h : Single ns) :
    ((distinctImports bound ns).1.flatMap importBindings).Nodup ∧
      ∀ b ∈ (distinctImports bound ns).1.flatMap importBindings, b ∉ bound := by
  induction ns generalizing bound with
  | nil => exact ⟨.nil, fun _ hb => nomatch hb⟩
  | cons n ns ih =>
    obtain ⟨hsingle, hrest⟩ := List.forall_mem_cons.1 h
    obtain ⟨b, hb⟩ := List.length_eq_one_iff.1 hsingle
    obtain ⟨hnodup, hapart⟩ := ih (bound ++ [b]) hrest
    simp only [List.mem_append, List.mem_singleton, not_or] at hapart
    by_cases hmem : b ∈ bound
    · simp only [distinctImports, hb, List.all_cons, List.all_nil, List.contains_iff_mem.2 hmem]
      exact ⟨hnodup, fun a ha => (hapart a ha).1⟩
    · have hkeep : (distinctImports bound (n :: ns)).1 = n :: (distinctImports (bound ++ [b]) ns).1 := by
        simp [distinctImports, hb, hmem]
      rw [hkeep, List.flatMap_cons, hb, List.singleton_append, List.nodup_cons]
      refine ⟨⟨fun hin => (hapart b hin).2 rfl, hnodup⟩, fun a ha => ?_⟩
      rcases List.mem_cons.1 ha with rfl | ha
      · exact hmem
      · exact (hapart a ha).1

theorem distinctImports_eq_self (h : Single ns) (hn : (ns.flatMap importBindings).Nodup)
    (hb : ∀ b ∈ ns.flatMap importBindings, b ∉ bound) : (distinctImports bound ns).1 = ns := by
  induction ns generalizing bound with
  | nil => rfl
  | cons n ns ih =>
    obtain ⟨hsingle, hrest⟩ := List.forall_mem_cons.1 h
    obtain ⟨b, hone⟩ := List.length_eq_one_iff.1 hsingle
    rw [List.flatMap_cons, hone, List.singleton_append] at hn hb
    obtain ⟨hnot, hn⟩ := List.nodup_cons.1 hn
    obtain ⟨hfree, hb⟩ := List.forall_mem_cons.1 hb
    have hapart : ∀ a ∈ ns.flatMap importBindings, a ∉ bound ++ [b] := by
      intro a ha
      rw [List.mem_append, List.mem_singleton, not_or]
      exact ⟨hb a ha, fun he => hnot (he ▸ ha)⟩
    have hrest := ih hrest hn hapart
    simp [distinctImports, hone, hfree, hrest]

theorem single_importsOf (next : Nat) (names : List Text) : Single (importsOf next names) := by
  induction names generalizing next with
  | nil => exact fun _ hn => nomatch hn
  | cons name names ih => exact List.forall_mem_cons.2 ⟨rfl, ih (next + 1)⟩

theorem single_mergeImports (h : Single (ns.filter isImport)) : Single (mergeImports next names ns) := by
  intro n hn
  rcases mem_mergeImports.1 hn with hn | hn
  · exact h n ((distinctImports_sublist _ _).subset hn)
  · exact single_importsOf _ _ n hn

/-- The imports behind one call bind different things. -/
theorem nodup_bindings_mergeImports (h : Single (ns.filter isImport)) :
    ((mergeImports next names ns).flatMap importBindings).Nodup := by
  obtain ⟨hnodup, -⟩ := bindings_distinctImports [] h
  rw [((mergeImports_perm next names ns).flatMap_right _).nodup_iff, List.flatMap_append,
    List.nodup_append]
  refine ⟨hnodup, nodup_bindings_newImports _ _ _, fun b hb c hc hbc => ?_⟩
  exact (mem_bindings_newImports.1 hc).1
    (hbc ▸ ((distinctImports_sublist _ _).flatMap _).subset hb)

/-- Names merged in two calls are merged in one. -/
theorem mergeImports_mergeImports {ms : List Node} (names' : List Text)
    (h : Single (ns.filter isImport)) (hms : ms.filter isImport = mergeImports next names ns) :
    mergeImports (next + (newImports next names ns).length) names' ms =
        mergeImports next (names ++ names') ns ∧
      (newImports next names ns).length +
        (newImports (next + (newImports next names ns).length) names' ms).length =
        (newImports next (names ++ names') ns).length := by
  have hself : (distinctImports [] (ms.filter isImport)).1 = ms.filter isImport := by
    rw [hms]
    exact distinctImports_eq_self (single_mergeImports h) (nodup_bindings_mergeImports h)
      fun _ _ hb => nomatch hb
  have hnew : newImports next (names ++ names') ns = newImports next names ns ++
      newImports (next + (newImports next names ns).length) names' ms := by
    rw [newImports, unboundNames_append, importsOf_append, newImports, newImports, length_importsOf]
    refine congrArg _ (congrArg _ (unboundNames_congr _ fun b => ?_))
    rw [distinctImports_bound, distinctImports_bound, List.nil_append, List.nil_append, hms,
      mem_bindings_mergeImports, List.mem_append, List.mem_map]
    simp only [eq_comm]
  constructor
  · rw [mergeImports, hself, hms, mergeImports, sortImports_append, List.append_assoc, ← hnew]
    rfl
  · rw [hnew, List.length_append]

/-! The same names in another order. -/

variable {s : Source}

theorem named_newImport (name : Text) (hn : names.Nodup) :
    named name (names.map s.newImport) = if name ∈ names then [s.newImport name] else [] := by
  induction names with
  | nil => rfl
  | cons m names ih =>
    obtain ⟨hnot, hn⟩ := List.nodup_cons.1 hn
    have hname : (s.newImport m).importName = m := rfl
    have ih := ih hn
    simp only [named] at ih
    rw [named, List.map_cons, List.filter_cons, ih, hname]
    by_cases hm : m = name
    · subst hm
      simp [hnot]
    · simp [hm, Ne.symm hm]

end Node

/-- What names merge into depends on which they are. -/
theorem Source.merged_congr {s : Source} {names names' : List Text} (is : List Node)
    (h : ∀ name, name ∈ names ↔ name ∈ names') : s.merged names is = s.merged names' is := by
  refine Node.sortImports_congr fun name => ?_
  rw [Node.named_append, Node.named_append, Node.named_newImport _ (Node.nodup_unboundNames _ _),
    Node.named_newImport _ (Node.nodup_unboundNames _ _)]
  simp only [Node.mem_unboundNames, h]

namespace Editor

variable {e : Editor} {xs ys zs names : List Text}

theorem addImports_append (hsingle : Node.Single e.working.root.scopeImports)
    (hq : ∀ name ∈ (xs ++ ys).map plainName, Name.isQualified name = true) :
    (e.addImports xs >>= fun e₁ => e₁.addImports ys) = e.addImports (xs ++ ys) := by
  have hxs : ∀ name ∈ xs.map plainName, Name.isQualified name = true := by
    intro name hname
    exact hq name (by rw [List.map_append]; exact List.mem_append_left _ hname)
  have hys : ∀ name ∈ ys.map plainName, Name.isQualified name = true := by
    intro name hname
    exact hq name (by rw [List.map_append]; exact List.mem_append_right _ hname)
  cases hs : e.working.root.classScope? with
  | none =>
    rw [addImports_of_none hs hxs, addImports_of_none hs hq]
    rfl
  | some place =>
    obtain ⟨pl, -, -⟩ := Node.exists_classPlace hs
    rw [pl.scopeImports_eq] at hsingle
    have hus : ∀ n ∈ Node.mergeImports e.working.next (xs.map plainName) pl.node.children,
        n.isImport = true := fun _ => Node.isImport_mergeImports
    obtain ⟨hmerge, hcount⟩ :=
      Node.mergeImports_mergeImports (ys.map plainName) hsingle (pl.imports_after hus)
    rw [addImports_of_place pl hxs, addImports_of_place pl hq]
    refine (addImports_of_place (pl.after hus) hys).trans ?_
    simp only [pl.rootWith_after hus, List.map_append, ← hcount, ← hmerge, Nat.add_assoc]

end Editor

/-- Where each import of the scope has one clause, imports can be asked for in one call or in two, and
the text shows of a call only which names were asked for. -/
theorem addImports_batches {e : Editor} {xs ys zs : List Text} (he : e.Reachable)
    (hsingle : Node.Single e.working.root.scopeImports)
    (hq : ∀ name ∈ (xs ++ ys).map Editor.plainName, Name.isQualified name = true)
    (hzs : ∀ q, q ∈ zs.map Editor.plainName ↔ q ∈ (xs ++ ys).map Editor.plainName) :
    (e.addImports xs >>= fun e₁ => e₁.addImports ys) = e.addImports (xs ++ ys) ∧
      (e.addImports zs).map Editor.render = (e.addImports (xs ++ ys)).map Editor.render ∧
      (e.addImports (xs ++ ys)).isOk = e.working.root.classScope?.isSome := by
  have hqz : ∀ name ∈ zs.map Editor.plainName, Name.isQualified name = true := by
    intro name hname
    exact hq name ((hzs name).1 hname)
  refine ⟨Editor.addImports_append hsingle hq, ?_⟩
  cases hs : e.working.root.classScope? with
  | none =>
    rw [Editor.addImports_of_none hs hqz, Editor.addImports_of_none hs hq]
    exact ⟨rfl, rfl⟩
  | some place =>
    obtain ⟨pl, -, -⟩ := Node.exists_classPlace hs
    obtain ⟨s, text, edited, hf, hreached⟩ := he.reached
    obtain ⟨sc, p, hstands⟩ := hreached.stands hf hs
    have hz : e.apply (.addImports zs) = .ok _ := Editor.addImports_of_place pl hqz
    have hxy : e.apply (.addImports (xs ++ ys)) = .ok _ := Editor.addImports_of_place pl hq
    obtain ⟨hstandsz, hstylez⟩ := hstands.apply hz
    obtain ⟨hstandsxy, hstylexy⟩ := hstands.apply hxy
    have hafter : sc.after p (.addImports zs) = sc.after p (.addImports (xs ++ ys)) := by
      rw [Source.ClassScope.after, Source.ClassScope.after, Source.merged_congr _ hzs]
    rw [hafter] at hstandsz
    change (e.apply (.addImports zs)).map _ = (e.apply (.addImports (xs ++ ys))).map _ ∧
      (e.apply (.addImports (xs ++ ys))).isOk = true
    rw [hz, hxy]
    refine ⟨congrArg Except.ok ?_, rfl⟩
    rw [hstandsz.render hf, hstandsxy.render hf, hstylez, hstylexy]

/-- A class and a function of one name stand around the class, and the names asked for overlap. -/
theorem addImports_batches_overlap : ∃ e₀ e, Editor.parse
      "<?php use function B; class A \x7b\x7d use B;" = .ok e₀ ∧
    e₀.apply (.addMethod { name := "f" }) = .ok e ∧
      (e.addImports ["B", " D"] >>= fun e₁ => e₁.addImports ["\\D", "A"]) =
        e.addImports ["B", " D", "\\D", "A"] ∧
      (e.addImports ["A", "D", "B", "A"]).map Editor.render =
        (e.addImports ["B", " D", "\\D", "A"]).map Editor.render ∧
      (e.addImports ["B", " D", "\\D", "A"]).isOk = true := by
  have hrun : (Editor.parse "<?php use function B; class A \x7b\x7d use B;").toOption.any (fun e₀ =>
      (e₀.apply (.addMethod { name := "f" })).toOption.any fun e =>
        decide (Node.Single e.working.root.scopeImports) &&
          e.working.root.classScope?.isSome) = true := by
    decide +kernel
  have hq : ∀ name ∈ ((["B", " D"] : List Text) ++ (["\\D", "A"] : List Text)).map
      Editor.plainName, Name.isQualified name = true := by
    decide +kernel
  have hle : ∀ q ∈ (["A", "D", "B", "A"] : List Text).map Editor.plainName,
      q ∈ ((["B", " D"] : List Text) ++ (["\\D", "A"] : List Text)).map Editor.plainName := by
    decide +kernel
  have hge : ∀ q ∈ ((["B", " D"] : List Text) ++ (["\\D", "A"] : List Text)).map Editor.plainName,
      q ∈ (["A", "D", "B", "A"] : List Text).map Editor.plainName := by
    decide +kernel
  obtain ⟨e₀, h₀, hrun⟩ := Steps.exists_of_any hrun
  obtain ⟨e, h, hrun⟩ := Steps.exists_of_any hrun
  obtain ⟨hsingle, hsome⟩ := Bool.and_eq_true_iff.1 hrun
  have he : e.Reachable := .apply (.parse h₀) h
  obtain ⟨hsplit, horder, hok⟩ := addImports_batches he (of_decide_eq_true hsingle) hq
    fun q => ⟨hle q, hge q⟩
  exact ⟨e₀, e, h₀, h, hsplit, horder, hok.trans hsome⟩

end PhpGraft
