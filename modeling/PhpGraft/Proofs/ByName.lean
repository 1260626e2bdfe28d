import PhpGraft.Proofs.BatchRun

/-!
Opening a file by the name of a class. The name decides which file is opened, and the layout of the
file which of its classes is edited, so the class that was asked for need not be the one that is edited.
-/
namespace PhpGraft

open Steps

/-- A declared class has the name that was asked for, but for the case of ASCII letters and for
backslashes in front. -/
def Name.agrees (asked name : Text) : Bool := name.sameLetters (asked.dropWhile (· == '\\'))

namespace Editor

variable {s : Source} {text : Text} {e e' : Editor} {edited : Bool} {k : Nat}

theorem Reached.declarations_session (hf : s.Faithful text) (ops : List Operation)
    (h : Reached s edited e) (hk : e.working.root.target? = some k) :
    ∃ new edited', Reached s edited' ((Edit.session ops).run e).2 ∧
      ((Edit.session ops).run e).2.working.root.target? = some k ∧
      ((Edit.session ops).run e).2.working.root.declarations =
        e.working.root.declarations.modify k (.grow new) := by
  induction ops generalizing e edited with
  | nil =>
    refine ⟨[], edited, h, hk, ?_⟩
    rw [Declared.grow_nil, List.modify_id]
    rfl
  | cons op ops ih =>
    rw [run_session_cons, Edit.exec_apply (h.sound hf)]
    cases ha : e.apply op with
    | error fault => exact ih h hk
    | ok e₁ =>
      obtain ⟨j, new, hj, hk₁, hdecls₁⟩ := declarations_apply ha
      obtain rfl : j = k := Option.some.inj (hj.symm.trans hk)
      obtain ⟨more, edited', hreached, hk', hdecls'⟩ := ih (h.apply hf ha).1 hk₁
      refine ⟨new ++ more, edited', hreached, hk', hdecls'.trans ?_⟩
      rw [hdecls₁, List.modify_modify_eq, Declared.grow_comp]

end Editor

namespace ClassFile

variable {f g : ClassFile} {name path : Text} {locators : List Locator} {style : Style} {d : Disk}

theorem exec_openClass_ok (h : (exec (openClass name locators style) d).1 = .ok f) :
    ∃ text, Editor.parse text style = .ok f.editor := by
  unfold openClass at h
  rw [exec_bind, exec_lift] at h
  dsimp only at h
  split at h
  · obtain ⟨text, -, htext⟩ := exec_openFile_ok.1 h
    obtain ⟨e, hparse, rfl⟩ := Command.ofText_eq_ok.1 htext
    exact ⟨text, hparse⟩
  · cases h

theorem addMethod_eq {m : NewMethod} (h : f.addMethod m = .ok g) : f.editor.addMethod m = .ok g.editor := by
  unfold addMethod edit at h
  cases ha : f.editor.addMethod m with
  | error fault =>
    rw [ha] at h
    cases h
  | ok e =>
    rw [ha] at h
    cases h
    rfl

/-- All methods that are added to an opened file go to its class `c`, the one at `k`. -/
structure EditsAt (f : ClassFile) (k : Nat) (c : Declared) : Prop where
  target? : f.editor.working.root.target? = some k
  declared : f.editor.working.root.declarations[k]? = some c
  /-- Whatever is tried on the file, the others stay as they are. -/
  session : ∀ ops e', ((Edit.session ops).run f.editor).2 = e' → ∃ new,
    e'.working.root.declarations = f.editor.working.root.declarations.modify k (.grow new)
  addMethod : ∀ ops e', ((Edit.session ops).run f.editor).2 = e' →
    ∀ m g, ({ f with editor := e' } : ClassFile).addMethod m = .ok g → ∃ method, m.method? = .ok method ∧
      g.editor.working.root.declarations = e'.working.root.declarations.modify k
        (.grow (Node.ofMethods e'.working.next [method]))

end ClassFile

/-- A file that is opened by name has one class that is edited, and if it declares no other class, that
is the one that was asked for. -/
theorem openClass_edits {name : Text} {locators : List Locator} {style : Style} {d : Disk} {f : ClassFile}
    (h : (exec (ClassFile.openClass name locators style) d).1 = .ok f)
    (hname : f.editor.working.root.declaredClasses.any (Name.agrees name) = true) :
    ∃ k c, f.EditsAt k c ∧
      (f.editor.working.root.declaredClasses.length = 1 → Name.agrees name c.name = true) := by
  obtain ⟨text, hparse⟩ := ClassFile.exec_openClass_ok h
  obtain ⟨s, hs, he⟩ := Editor.parse_eq hparse
  have hf := Source.faithful_of_parse hs
  have hread : Editor.Reached s false f.editor := he ▸ Editor.reached_read s (style.matching text)
  rw [← Node.map_name_declarations] at hname ⊢
  have hne : f.editor.working.root.declarations ≠ [] := by
    intro hnil
    rw [hnil] at hname
    cases hname
  obtain ⟨k, c, hk, hc⟩ := Node.exists_target? hne
  refine ⟨k, c, ⟨hk, hc, ?_, ?_⟩, fun hone => ?_⟩
  · rintro ops e' rfl
    obtain ⟨new, -, -, -, hdecls⟩ := hread.declarations_session hf ops hk
    exact ⟨new, hdecls⟩
  · rintro ops e' rfl m g hg
    obtain ⟨new, edited, hreached, hk', -⟩ := hread.declarations_session hf ops hk
    obtain ⟨j, method, hmethod, hj, -, hdecls⟩ := Editor.declarations_addMethod (ClassFile.addMethod_eq hg)
    obtain rfl : j = k := Option.some.inj (hj.symm.trans hk')
    exact ⟨method, hmethod, hdecls⟩
  · rw [List.length_map] at hone
    obtain ⟨c', hc'⟩ := List.length_eq_one_iff.1 hone
    rw [hc'] at hname hc
    obtain rfl : c' = c := by
      cases k with
      | zero => exact Option.some.inj hc
      | succ k => cases hc
    simpa using hname

def Disk.ofFile (text : Text) : Disk := ⟨[(["w".toList, "a.php".toList], .file (.text text))], ["w".toList]⟩

/-- The last class of a namespace, asked for with other letters and a backslash in front. -/
theorem openClass_edits_last :
    ∃ f c, (exec (ClassFile.openClass "\\n\\b" [.roots ["."]] {})
        (Disk.ofFile "<?php namespace N; class A \x7b\x7d class B \x7b\x7d")).1 = .ok f ∧
      c.name = "N\\B".toList ∧ f.EditsAt 1 c := by
  have hrun : (exec (ClassFile.openClass "\\n\\b" [.roots ["."]] {})
      (Disk.ofFile "<?php namespace N; class A \x7b\x7d class B \x7b\x7d")).1.toOption.any (fun f =>
        f.editor.working.root.declaredClasses.any (Name.agrees "\\n\\b") &&
          decide (f.editor.working.root.target? = some 1 ∧
            f.editor.working.root.declarations.map Declared.name =
              ["N\\A".toList, "N\\B".toList])) = true := by
    decide +kernel
  obtain ⟨f, h, hrun⟩ := exists_of_any hrun
  obtain ⟨hname, hfile⟩ := Bool.and_eq_true_iff.1 hrun
  obtain ⟨htarget, hnames⟩ := of_decide_eq_true hfile
  obtain ⟨k, c, hedits, -⟩ := openClass_edits h hname
  obtain rfl : k = 1 := Option.some.inj (hedits.target?.symm.trans htarget)
  have hc := congrArg (Option.map Declared.name) hedits.declared
  rw [← List.getElem?_map, hnames] at hc
  exact ⟨f, c, h, (Option.some.inj hc).symm, hedits⟩

/-- The first class of a file is asked for and declared there, and the method goes to the second. -/
theorem openClass_misses :
    ∃ f g, (exec (ClassFile.openClass "A" [.roots ["."]] {})
        (Disk.ofFile "<?php class A \x7b\x7d class B \x7b\x7d")).1 = .ok f ∧
      f.editor.working.root.declaredClasses.any (Name.agrees "A") = true ∧
        f.addMethod { name := "f" } = .ok g ∧
          g.editor.working.root.declarations.map (fun c => (c.name, c.members.length)) =
            [(['A'], 0), (['B'], 1)] := by
  have hrun : (exec (ClassFile.openClass "A" [.roots ["."]] {})
      (Disk.ofFile "<?php class A \x7b\x7d class B \x7b\x7d")).1.toOption.any (fun f =>
        f.editor.working.root.declaredClasses.any (Name.agrees "A") &&
          (f.addMethod { name := "f" }).toOption.any fun g =>
            decide (g.editor.working.root.declarations.map (fun c => (c.name, c.members.length)) =
              [(['A'], 0), (['B'], 1)])) = true := by
    decide +kernel
  obtain ⟨f, h, hrun⟩ := exists_of_any hrun
  obtain ⟨hname, hadd⟩ := Bool.and_eq_true_iff.1 hrun
  obtain ⟨g, ha, hadd⟩ := exists_of_any hadd
  exact ⟨f, g, h, hname, ha, of_decide_eq_true hadd⟩

end PhpGraft
