import PhpGraft.Proofs.Session

/-!
Operations in another order. Methods stay in order among themselves and imports among themselves;
how the two kinds are mixed is shown by the numbers of new nodes and by nothing else.
-/
namespace PhpGraft

namespace Operation

def newMethod? : Operation → Option NewMethod
  | addMethod m => some m
  | addImports _ => none

def importNames? : Operation → Option (List Text)
  | addMethod _ => none
  | addImports names => some names

variable {ops ops' : List Operation} {op : Operation}

/-- Two mixtures of the same methods and the same imports. -/
structure Mixes (ops ops' : List Operation) : Prop where
  methods : ops.filterMap newMethod? = ops'.filterMap newMethod?
  imports : ops.filterMap importNames? = ops'.filterMap importNames?

theorem Mixes.mem (h : Mixes ops ops') (hop : op ∈ ops') : op ∈ ops := by
  cases op with
  | addMethod m =>
    have hm : m ∈ ops.filterMap newMethod? := by
      rw [h.methods]
      exact List.mem_filterMap.2 ⟨_, hop, rfl⟩
    obtain ⟨op', hmem, heq⟩ := List.mem_filterMap.1 hm
    cases op' with
    | addMethod m' =>
      cases heq
      exact hmem
    | addImports names => cases heq
  | addImports names =>
    have hnames : names ∈ ops.filterMap importNames? := by
      rw [h.imports]
      exact List.mem_filterMap.2 ⟨_, hop, rfl⟩
    obtain ⟨op', hmem, heq⟩ := List.mem_filterMap.1 hnames
    cases op' with
    | addMethod m' => cases heq
    | addImports names' =>
      cases heq
      exact hmem

end Operation

theorem Source.isSome_of_answer {s : Source} {op : Operation} (h : s.answer op = .ok ()) :
    s.tree.root.classScope?.isSome = true := by
  have hfound : s.found = .ok () := by
    cases op with
    | addMethod m =>
      rw [Source.answer] at h
      split at h
      · cases h
      split at h
      · cases h
      exact h
    | addImports names =>
      rw [Source.answer] at h
      split at h
      · cases h
      exact h
  rw [Source.found] at hfound
  split at hfound
  · assumption
  · cases hfound

namespace Source.ClassScope

variable {s : Source} (sc : s.ClassScope) (p : Progress) (ops : List Operation)

/-- The imports after some more were asked for. -/
def gather (imports? : Option (List Node)) (names : List Text) : Option (List Node) :=
  some (s.merged (names.map Editor.plainName)
    (imports?.getD (sc.node.children.filter Node.isImport)))

theorem methods_foldl : (ops.foldl sc.after p).methods =
    p.methods ++ (ops.filterMap Operation.newMethod?).filterMap (·.method?.toOption) := by
  induction ops generalizing p with
  | nil => exact (List.append_nil _).symm
  | cons op ops ih =>
    rw [List.foldl_cons, ih]
    cases op with
    | addMethod m =>
      simp only [List.filterMap_cons, Operation.newMethod?, after]
      cases m.method? with
      | ok d => exact List.append_assoc ..
      | error fault => rfl
    | addImports names => simp only [List.filterMap_cons, Operation.newMethod?, after]

theorem imports?_foldl : (ops.foldl sc.after p).imports? =
    (ops.filterMap Operation.importNames?).foldl sc.gather p.imports? := by
  induction ops generalizing p with
  | nil => rfl
  | cons op ops ih =>
    rw [List.foldl_cons, ih]
    cases op with
    | addMethod m =>
      simp only [List.filterMap_cons, Operation.importNames?, after]
      cases m.method? <;> rfl
    | addImports names =>
      simp only [List.filterMap_cons, Operation.importNames?, after, List.foldl_cons]
      rfl

theorem foldl_after_mixes {ops ops' : List Operation} (h : Operation.Mixes ops ops') :
    ops.foldl sc.after p = ops'.foldl sc.after p := by
  have hmethods : (ops.foldl sc.after p).methods = (ops'.foldl sc.after p).methods := by
    rw [methods_foldl, methods_foldl, h.methods]
  have himports : (ops.foldl sc.after p).imports? = (ops'.foldl sc.after p).imports? := by
    rw [imports?_foldl, imports?_foldl, h.imports]
  generalize ops.foldl sc.after p = q at hmethods himports ⊢
  cases q
  exact congr (congrArg Progress.mk himports) hmethods

end Source.ClassScope

namespace Editor

variable {e e' : Editor} {s : Source} {text : Text} {edited : Bool} {ops : List Operation}

theorem Reached.answer_of_applyAll (hf : s.Faithful text) (h : Reached s edited e)
    (ha : e.applyAll ops = .ok e') : ∀ op ∈ ops, s.answer op = .ok () := by
  induction ops generalizing e edited with
  | nil => exact nofun
  | cons op ops ih =>
    rw [Editor.applyAll] at ha
    split at ha
    · cases ha
    rename_i e₁ he₁
    refine List.forall_mem_cons.2 ⟨?_, ih (h.apply hf he₁).1 ha⟩
    rw [← apply_answer op h.isSome_classScope?, he₁]
    rfl

/-- A run succeeds if each of its operations does on its own. -/
theorem Reached.exists_applyAll (hf : s.Faithful text) (h : Reached s edited e)
    (hops : ∀ op ∈ ops, s.answer op = .ok ()) : ∃ e', e.applyAll ops = .ok e' := by
  induction ops generalizing e edited with
  | nil => exact ⟨e, rfl⟩
  | cons op ops ih =>
    obtain ⟨hop, hops⟩ := List.forall_mem_cons.1 hops
    have hanswer := apply_answer op h.isSome_classScope?
    rw [hop] at hanswer
    cases he₁ : e.apply op with
    | error fault =>
      rw [he₁] at hanswer
      cases hanswer
    | ok e₁ =>
      rw [Editor.applyAll, he₁]
      exact ih (h.apply hf he₁).1 hops

/-- Another mixture comes to the same text. -/
theorem exists_mixed {style : Style} {e₁ : Editor} {ops' : List Operation}
    (hparse : Source.parse text = .ok s) (ha : applyAll ⟨s, s.tree, style⟩ ops = .ok e₁)
    (hmix : Operation.Mixes ops ops') :
    ∃ e₂, applyAll ⟨s, s.tree, style⟩ ops' = .ok e₂ ∧ e₂.render = e₁.render ∧
      e₂.working.root.renumber (min s.tree.next) = e₁.working.root.renumber (min s.tree.next) := by
  have hf := Source.faithful_of_parse hparse
  have hread := reached_read s style
  have hanswers := hread.answer_of_applyAll hf ha
  obtain ⟨e₂, ha₂⟩ := hread.exists_applyAll hf fun op hop => hanswers op (hmix.mem hop)
  refine ⟨e₂, ha₂, ?_⟩
  cases hs : s.tree.root.classScope? with
  | none =>
    have hno : ∀ op, s.answer op ≠ .ok () := fun op hop => by
      have hsome := Source.isSome_of_answer hop
      rw [hs] at hsome
      cases hsome
    obtain rfl : ops = [] := List.eq_nil_iff_forall_not_mem.2 fun op hop => hno op (hanswers op hop)
    obtain rfl : ops' = [] := List.eq_nil_iff_forall_not_mem.2 fun op hop => nomatch hmix.mem hop
    cases ha
    cases ha₂
    exact ⟨rfl, rfl⟩
  | some place =>
    obtain ⟨sc, -, -⟩ := Source.exists_classScope hs
    have hstands : Stands sc {} ⟨s, s.tree, style⟩ := stands_read hf sc rfl rfl
    obtain ⟨h₁, hstyle₁⟩ := hstands.applyAll ha
    obtain ⟨h₂, hstyle₂⟩ := hstands.applyAll ha₂
    rw [← sc.foldl_after_mixes {} hmix] at h₂
    refine ⟨?_, h₂.root.trans h₁.root.symm⟩
    rw [h₂.render hf, h₁.render hf, hstyle₁, hstyle₂]

/-! Imports first. -/

theorem applyAll_imports (e : Editor) (calls : List (List Text)) (ops : List Operation) :
    e.applyAll (calls.map .addImports ++ ops) =
      match e.addAllImports calls with
      | .error fault => .error fault
      | .ok e => e.applyAll ops := by
  induction calls generalizing e with
  | nil => rfl
  | cons names calls ih =>
    rw [List.map_cons, List.cons_append, applyAll, addAllImports]
    change (match e.addImports names with | .error fault => _ | .ok e => _) = _
    cases e.addImports names with
    | error fault => rfl
    | ok e => exact ih e

theorem applyAll_methods (e : Editor) (ms : List NewMethod) :
    e.applyAll (ms.map .addMethod) = e.addMethods ms := by
  induction ms generalizing e with
  | nil => rfl
  | cons m ms ih =>
    rw [List.map_cons, applyAll, addMethods]
    change (match e.addMethod m with | .error fault => _ | .ok e => _) = _
    cases e.addMethod m with
    | error fault => rfl
    | ok e => exact ih e

/-- A run comes to the text of its imports with its methods behind them. -/
theorem exists_sorted {style : Style} (hparse : Source.parse text = .ok s)
    (ha : applyAll ⟨s, s.tree, style⟩ ops = .ok e') :
    ∃ e₁ e₂, addAllImports ⟨s, s.tree, style⟩ (ops.filterMap Operation.importNames?) = .ok e₁ ∧
      e₁.addMethods (ops.filterMap Operation.newMethod?) = .ok e₂ ∧ e₂.render = e'.render := by
  generalize hcalls : ops.filterMap Operation.importNames? = calls
  generalize hms : ops.filterMap Operation.newMethod? = ms
  have hmix : Operation.Mixes ops (calls.map .addImports ++ ms.map .addMethod) := by
    constructor
    · rw [hms, List.filterMap_append, List.filterMap_map, List.filterMap_map]
      simp [Function.comp_def, Operation.newMethod?]
    · rw [hcalls, List.filterMap_append, List.filterMap_map, List.filterMap_map]
      simp [Function.comp_def, Operation.importNames?]
  obtain ⟨e₂, ha₂, hrender, -⟩ := exists_mixed hparse ha hmix
  rw [applyAll_imports] at ha₂
  split at ha₂
  · cases ha₂
  · rename_i e₁ he₁
    rw [applyAll_methods] at ha₂
    exact ⟨e₁, e₂, he₁, ha₂, hrender⟩

end Editor

/-- However methods and imports are mixed, the same text comes out, of trees that differ in the
numbers of new nodes alone. -/
theorem render_mixes {text : Text} {style : Style} {e e₁ : Editor} {ops ops' : List Operation}
    (h : Editor.parse text style = .ok e) (ha : e.applyAll ops = .ok e₁)
    (hmix : Operation.Mixes ops ops') :
    ∃ e₂, e.applyAll ops' = .ok e₂ ∧ e₂.render = e₁.render ∧
      e₂.working.root.renumber (min e.source.tree.next) =
        e₁.working.root.renumber (min e.source.tree.next) := by
  obtain ⟨s, hparse, rfl⟩ := Editor.parse_eq h
  exact Editor.exists_mixed hparse ha hmix

/-- The import and the first method take each other's number. -/
theorem render_mixes_numbers :
    ∃ e e₁ e₂, Editor.parse "<?php\nclass A \x7b\x7d" = .ok e ∧
      e.applyAll [.addMethod { name := "f" }, .addImports ["B"], .addMethod { name := "g" }] = .ok e₁ ∧
      e.applyAll [.addImports ["B"], .addMethod { name := "f" }, .addMethod { name := "g" }] = .ok e₂ ∧
      e₂.working ≠ e₁.working ∧ e₂.render = e₁.render := by
  have hdiffer : (Editor.parse "<?php\nclass A \x7b\x7d").toOption.any (fun e =>
      (e.applyAll [.addMethod { name := "f" }, .addImports ["B"],
        .addMethod { name := "g" }]).toOption.any fun e₁ =>
      (e.applyAll [.addImports ["B"], .addMethod { name := "f" },
        .addMethod { name := "g" }]).toOption.any fun e₂ =>
      e₂.working ≠ e₁.working) = true := by
    decide +kernel
  obtain ⟨e, h, hdiffer⟩ := Steps.exists_of_any hdiffer
  obtain ⟨e₁, h₁, hdiffer⟩ := Steps.exists_of_any hdiffer
  have hmix : Operation.Mixes
      [.addMethod { name := "f" }, .addImports ["B"], .addMethod { name := "g" }]
      [.addImports ["B"], .addMethod { name := "f" }, .addMethod { name := "g" }] := ⟨rfl, rfl⟩
  obtain ⟨e₂, h₂, hrender, -⟩ := render_mixes h h₁ hmix
  rw [h₂] at hdiffer
  exact ⟨e, e₁, e₂, h, h₁, h₂, of_decide_eq_true hdiffer, hrender⟩

end PhpGraft
