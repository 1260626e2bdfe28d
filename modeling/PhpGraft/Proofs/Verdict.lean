import PhpGraft.Proofs.BatchRun
import PhpGraft.Proofs.ByName
import PhpGraft.Proofs.EditScript
import PhpGraft.Proofs.Splice

/-!
What is said of a file that was edited, in a dry run and when the changes are applied. A dry run says
that nothing changed if the text is the same, and applying them says so if there was nothing to apply.
-/
namespace PhpGraft

open Steps

/-! ### Methods always change the text -/

theorem Style.mem_newline (style : Style) : '\n' ∈ style.newline := by
  unfold Style.newline
  cases style.lineEnding <;> decide

theorem Method.mem_appendix (style : Style) (level : Nat) (isFirst : Bool) {ds : List Method}
    (hne : ds ≠ []) : '\n' ∈ Method.appendix style level isFirst ds := by
  cases ds with
  | nil => exact absurd rfl hne
  | cons d ds =>
    have h := style.mem_newline
    cases isFirst <;> simp [Method.appendix, Style.newlines, Text.times, h]

/-- The text with methods in it is another one. -/
theorem Editor.Spliced.render_ne {e e' : Editor} {text : Text} {site : Site} {ds : List Method}
    (h : e.Spliced e' text site ds) (hne : ds ≠ []) : e'.render ≠ text := by
  intro heq
  have happendix := Method.mem_appendix e.style (site.level + 1) site.isEmpty hne
  rw [h.render, h.source, List.append_cancel_right_eq, List.append_assoc,
    List.append_cancel_left_eq, Source.siteTail] at heq
  simp only [List.contains_iff_mem] at heq
  -- what stood in front of the brace stays if it has a line break, and else the text has a new one
  split at heq
  · simp only [List.append_left_eq_self] at heq
    simp [heq] at happendix
  · next hno =>
    apply hno
    rw [← heq]
    exact List.mem_append_left _ happendix

namespace Operation

def isMethod : Operation → Bool
  | .addMethod _ => true
  | .addImports _ => false

end Operation

theorem Editor.exists_addMethods {ops : List Operation} {e e' : Editor}
    (hops : ops.all Operation.isMethod = true) (h : e.applyAll ops = .ok e') :
    ∃ ms, ms.map Operation.addMethod = ops ∧ e.addMethods ms = .ok e' := by
  induction ops generalizing e with
  | nil => exact ⟨[], rfl, h⟩
  | cons op ops ih =>
    cases op with
    | addImports names => simp [Operation.isMethod] at hops
    | addMethod m =>
      simp only [List.all_cons, Bool.and_eq_true] at hops
      rw [Editor.applyAll] at h
      split at h
      · cases h
      · rename_i e₁ hm
        obtain ⟨ms, hms, hadd⟩ := ih hops.2 h
        refine ⟨m :: ms, by simp [hms], ?_⟩
        rw [Editor.addMethods, show e.addMethod m = .ok e₁ from hm]
        exact hadd

theorem Editor.render_ne_of_methods {text : Text} {style : Style} {e e' : Editor}
    {ops : List Operation} (h : Editor.parse text style = .ok e)
    (hops : ops.all Operation.isMethod = true) (hne : ops ≠ []) (ha : e.applyAll ops = .ok e') :
    e'.render ≠ text := by
  obtain ⟨s, hparse, rfl⟩ := Editor.parse_eq h
  obtain ⟨ms, rfl, hadd⟩ := Editor.exists_addMethods hops ha
  have hms : ms ≠ [] := by simpa using hne
  obtain ⟨scope, classAt, hscope⟩ := Editor.exists_classScope? hms hadd
  obtain ⟨ds, hds, hsource, hstyle, hworking⟩ := Editor.addMethods_eq hadd hscope
  have hdne : ds ≠ [] := by
    intro hnil
    simp [hnil] at hds
    exact hms hds
  obtain ⟨site, hspliced⟩ := Editor.exists_spliced hparse hscope hdne hsource hstyle hworking
  exact hspliced.render_ne hdne

namespace Command

/-! ### What is said of a file -/

section Finish

variable {d : Disk} {g : ClassFile}

theorem head?_noChanges (g : ClassFile) : (noChanges g).head? = some 'N' := rfl

theorem preview_eq_noChanges_iff : preview g = noChanges g ↔ g.contents = g.textBefore := by
  rw [preview, eq_comm (a := g.contents)]
  constructor
  · intro heq
    by_contra hne
    have hdiff := FileDiff.ofTexts_of_ne g.path contextLines hne
    simp only [FileDiff.isEmpty_stats_iff, hne, if_false] at heq
    have hhead := congrArg List.head? heq
    rw [head?_noChanges, List.append_assoc, List.append_assoc, List.append_assoc, List.head?_append,
      hdiff.2] at hhead
    cases hhead
  · intro heq
    rw [if_pos (FileDiff.isEmpty_stats_iff.2 heq)]

/-- A file that is modified is not said to be without changes when it is saved. -/
theorem finish_ne_noChanges (h : g.isModified = true) :
    (exec (finish g true) d).1 ≠ .ok (noChanges g) := by
  intro heq
  cases hwrite : exec (Storage.writeFile g.path g.contents) d with
  | mk r d' =>
    cases r with
    | error fault =>
      rw [exec_finish_error h hwrite] at heq
      cases heq
    | ok =>
      rw [exec_finish_ok h hwrite] at heq
      have hhead := congrArg List.head? (Except.ok.inj heq)
      rw [head?_noChanges] at hhead
      cases hnew : g.isNew <;> rw [hnew] at hhead <;> cases hhead

theorem exec_finish_disk (h : g.isModified = true) :
    (exec (finish g true) d).2 = (exec (Storage.writeFile g.path g.contents) d).2 := by
  cases hwrite : exec (Storage.writeFile g.path g.contents) d with
  | mk r d' =>
    cases r with
    | error fault => simp [exec_finish_error h hwrite]
    | ok => simp [exec_finish_ok h hwrite]

end Finish

structure Edited (d : Disk) (path : Text) (style : Style) (ops : List Operation) (f g : ClassFile) :
    Prop where
  opened : (exec (ClassFile.openFile path style) d).1 = .ok f
  edited : (exec (applyAll 1 f ops) d).1 = .ok g

/-- A dry run and applying the changes say the same of a file: that there are none, or that there
are some. -/
def Agree (d : Disk) (g : ClassFile) : Prop :=
  (exec (finish g false) d).1 = .ok (noChanges g) ↔ (exec (finish g true) d).1 = .ok (noChanges g)

/-- What is said of a file `f` of which operations make `g`, and what becomes of the disk. -/
structure Verdicts (d : Disk) (ops : List Operation) (f g : ClassFile) : Prop where
  /-- A dry run compares texts. -/
  dry : (exec (finish g false) d).1 = .ok (noChanges g) ↔ g.contents = f.contents
  diff : (FileDiff.ofTexts g.path g.textBefore g.contents contextLines).text = [] ↔
    g.contents = f.contents
  /-- Applying the changes asks whether there was anything to apply. -/
  applied : (exec (finish g true) d).1 = .ok (noChanges g) ↔ ops = []
  idle : ops = [] → (exec (finish g true) d).2 = d
  written : ops ≠ [] →
    (exec (finish g true) d).2 = (exec (Storage.writeFile g.path g.contents) d).2
  /-- What is written over a text that is the same leaves every file as it was. -/
  changed : ¬d.SameFiles (exec (finish g true) d).2 → g.contents ≠ f.contents
  agree : Agree d g ↔ ops = [] ∨ g.contents ≠ f.contents
  methods : ops.all Operation.isMethod = true → Agree d g

variable {d : Disk} {path : Text} {style : Style} {ops : List Operation} {f g : ClassFile}

theorem Edited.exists_parse (h : Edited d path style ops f g) :
    ∃ e e', Editor.parse f.contents style = .ok e ∧ e.applyAll ops = .ok e' ∧
      d.read path = .ok f.contents ∧ f = ⟨path, e, false⟩ ∧ g = ⟨path, e', false⟩ := by
  obtain ⟨text, hread, hf⟩ := ClassFile.exec_openFile_ok.1 h.opened
  obtain ⟨e, he, rfl⟩ := ofText_eq_ok.1 hf
  obtain ⟨e', he', rfl⟩ := exec_applyAll_ok.1 h.edited
  have hcontents : (ClassFile.mk path e false).contents = text := by
    obtain ⟨s, hparse, rfl⟩ := Editor.parse_eq he
    exact Source.print_of_parse hparse _
  rw [hcontents]
  exact ⟨e, e', he, he', hread, rfl, rfl⟩

theorem Edited.isModified (h : Edited d path style ops f g) : g.isModified = !ops.isEmpty := by
  obtain ⟨e, e', he, he', -, -, rfl⟩ := h.exists_parse
  obtain ⟨s, hparse, rfl⟩ := Editor.parse_eq he
  have hf := Source.faithful_of_parse hparse
  have hreached := (Editor.reached_read s (style.matching f.contents)).applyAll hf he'
  simpa [ClassFile.isModified] using hreached.isModified hf

theorem Edited.textBefore (h : Edited d path style ops f g) : g.textBefore = f.contents := by
  obtain ⟨e, e', he, he', -, -, rfl⟩ := h.exists_parse
  obtain ⟨s, hparse, rfl⟩ := Editor.parse_eq he
  have hf := Source.faithful_of_parse hparse
  have hsource := ((Editor.reached_read s (style.matching f.contents)).applyAll hf he').source
  simp only [ClassFile.textBefore, Editor.sourceText, hsource, Bool.false_eq_true, if_false]
  exact hf.spells

/-- Only operations that change the text change a file of the disk. -/
theorem Edited.sameFiles (h : Edited d path style ops f g) (hsame : g.contents = f.contents) :
    d.SameFiles (exec (finish g true) d).2 := by
  obtain ⟨e, e', -, -, hread, -, rfl⟩ := h.exists_parse
  cases hmodified : (ClassFile.mk path e' false).isModified with
  | false =>
    obtain ⟨answer, hfinish⟩ : ∃ answer, exec (finish ⟨path, e', false⟩ true) d = (.ok answer, d) :=
      exec_finish_idle hmodified
    rw [hfinish]
    exact fun _ => rfl
  | true =>
    rw [exec_finish_disk hmodified, hsame]
    cases hwrite : exec (Storage.writeFile path f.contents) d with
    | mk r d' =>
      cases r with
      | error fault => exact Disk.sameFiles_of_error hwrite
      | ok => exact Disk.sameFiles_of_read hread hwrite

/-- Dry runs and saving by what they compare: they agree but for operations that leave the text as
it was. -/
theorem verdicts_of_edited (h : Edited d path style ops f g) : Verdicts d ops f g := by
  have hdry : (exec (finish g false) d).1 = .ok (noChanges g) ↔ g.contents = f.contents := by
    rw [← h.textBefore, ← preview_eq_noChanges_iff]
    exact ⟨Except.ok.inj, congrArg _⟩
  have hidle : ops = [] → exec (finish g true) d = (.ok (noChanges g), d) := by
    intro hops
    have hmodified : g.isModified = false := by simp [h.isModified, hops]
    rw [finish, hmodified]
    rfl
  have hmodified : ops ≠ [] → g.isModified = true := by
    intro hops
    simpa [h.isModified] using hops
  have happlied : (exec (finish g true) d).1 = .ok (noChanges g) ↔ ops = [] := by
    constructor
    · intro heq
      by_contra hops
      exact finish_ne_noChanges (hmodified hops) heq
    · intro hops
      rw [hidle hops]
  have hunchanged : ops = [] → g.contents = f.contents := by
    rintro rfl
    cases h.edited
    rfl
  have hagree : Agree d g ↔ ops = [] ∨ g.contents ≠ f.contents := by
    rw [Agree, hdry, happlied]
    tauto
  exact {
    dry := hdry
    diff := by rw [FileDiff.text_eq_nil_iff, h.textBefore, eq_comm]
    applied := happlied
    idle := fun hops => by rw [hidle hops]
    written := fun hops => exec_finish_disk (hmodified hops)
    changed := fun hchanged hsame => hchanged (h.sameFiles hsame)
    agree := hagree
    methods := fun hops => by
      obtain ⟨e, e', he, he', -, -, rfl⟩ := h.exists_parse
      rw [hagree]
      by_cases hnil : ops = []
      · exact .inl hnil
      · exact .inr (Editor.render_ne_of_methods he hops hnil he') }

/-- A disk with one file, whose class imports `A`. -/
def importing : Disk := .ofFile "<?php\n\nuse A;\n\nclass B\n\x7b\n\x7d\n"

/-- A method and an import that is there already. -/
theorem verdicts_of_edited_method :
    ∃ f g, Edited importing "a.php" {} [.addMethod { name := "f" }, .addImports ["A"]] f g ∧
      Verdicts importing [.addMethod { name := "f" }, .addImports ["A"]] f g := by
  have hrun : (exec (ClassFile.openFile "a.php" {}) importing).1.toOption.any (fun f =>
      (exec (applyAll 1 f [.addMethod { name := "f" }, .addImports ["A"]]) importing).1.toOption.any
        fun _ => true) = true := by
    decide +kernel
  obtain ⟨f, hf, hrun⟩ := exists_of_any hrun
  obtain ⟨g, hg, -⟩ := exists_of_any hrun
  exact ⟨f, g, ⟨hf, hg⟩, verdicts_of_edited ⟨hf, hg⟩⟩

/-- An import that is there already: a dry run shows an empty diff, and yet the file is written. -/
theorem verdicts_differ :
    ∃ f g, Edited importing "a.php" {} [.addImports ["A"]] f g ∧
      (FileDiff.ofTexts g.path g.textBefore g.contents contextLines).text = [] ∧
      (exec (finish g false) importing).1 = .ok (noChanges g) ∧
      (exec (finish g true) importing).1 = .ok "Updated a.php\n" ∧ ¬Agree importing g := by
  have hrun : (exec (ClassFile.openFile "a.php" {}) importing).1.toOption.any (fun f =>
      (exec (applyAll 1 f [.addImports ["A"]]) importing).1.toOption.any fun g =>
        decide (g.contents = g.textBefore) &&
          (exec (finish g true) importing).1.toOption.any (· == "Updated a.php\n".toList)) = true := by
    decide +kernel
  obtain ⟨f, hf, hrun⟩ := exists_of_any hrun
  obtain ⟨g, hg, hrun⟩ := exists_of_any hrun
  obtain ⟨hsame, hrun⟩ := Bool.and_eq_true_iff.1 hrun
  obtain ⟨answer, hanswer, heq⟩ := exists_of_any hrun
  obtain rfl : answer = "Updated a.php\n".toList := beq_iff_eq.1 heq
  have hsame := of_decide_eq_true hsame
  have hdry : (exec (finish g false) importing).1 = .ok (noChanges g) :=
    congrArg Except.ok (preview_eq_noChanges_iff.2 hsame)
  have hdiff : (FileDiff.ofTexts g.path g.textBefore g.contents contextLines).text = [] :=
    FileDiff.text_eq_nil_iff.2 hsame.symm
  refine ⟨f, g, ⟨hf, hg⟩, hdiff, hdry, hanswer, ?_⟩
  intro hagree
  have hhead := congrArg List.head? (Except.ok.inj (hanswer.symm.trans (hagree.1 hdry)))
  rw [head?_noChanges] at hhead
  cases hhead

end Command
end PhpGraft
