import PhpGraft.Command
import PhpGraft.Proofs.DiskLaws
import PhpGraft.Proofs.Session

/-!
A batch on a disk. All its steps but the last only look at the disk, so a batch that fails at any of
them leaves it as it was; the last step writes one file.
-/
namespace PhpGraft

open Steps

namespace Disk

variable {d : Disk} {path text : Text}

theorem run_present (path : Text) (d : Disk) :
    (Storage.present path : StateM Disk Bool).run d = ((d.entryAt? path).isSome, d) := rfl

theorem run_read (path : Text) (d : Disk) :
    (Storage.read path : StateM Disk (Except IoFault Text)).run d = (d.read path, d) := rfl

/-- What can be read is there. -/
theorem isSome_of_read (h : d.read path = .ok text) : (d.entryAt? path).isSome = true := by
  rw [read] at h
  rw [entryAt?]
  cases hl : d.locate path with
  | error fault =>
    rw [hl] at h
    cases h
  | ok l =>
    rw [hl] at h
    dsimp only at h ⊢
    cases hfind : d.find? l with
    | none =>
      rw [hfind] at h
      cases h
    | some e => rfl

end Disk

/-! Looking up the configuration. -/

namespace Config

/-- The first of some paths that is a file. -/
theorem run_findFile? (paths : List Text) (d : Disk) :
    (findFile? paths : StateM Disk (Option Text)).run d = (paths.find? d.isFile, d) := by
  induction paths with
  | nil => rfl
  | cons path paths ih =>
    rw [findFile?]
    change (if d.isFile path then pure (some path) else findFile? paths :
      StateM Disk (Option Text)).run d = _
    cases h : d.isFile path with
    | true =>
      simp only [h, if_true, List.find?_cons]
      rfl
    | false => simpa [h] using ih

theorem observes_load (path : Text) : Observes (load path : ExceptT Error (StateM Disk) Style) := by
  refine Observes.bind (observes_lift fun _ => rfl) fun r => ?_
  cases r with
  | error fault => exact observes_throw _
  | ok text => exact observes_mk _

theorem observes_loadNearest (directory : Text) :
    Observes (loadNearest directory : ExceptT Error (StateM Disk) Style) := by
  refine Observes.bind (observes_lift fun d => by rw [discover?, run_findFile?]) fun path? => ?_
  cases path? with
  | some path => exact observes_load path
  | none => exact observes_pure _

theorem observes_styleFor (config? : Option Text) (path : Text) :
    Observes (styleFor config? path : ExceptT Error (StateM Disk) Style) := by
  unfold styleFor
  cases config? with
  | some config => exact observes_load config
  | none =>
    dsimp only
    split
    · exact observes_loadNearest _
    · exact Observes.bind (observes_lift fun _ => rfl) observes_loadNearest

end Config

/-! Opening the file. -/

/-- What a file is edited from: its text, or that of a new file where there is none. -/
inductive Disk.Starts (d : Disk) (path : Text) (create? : Option Skeleton) (style : Style) :
    Text → Bool → Prop
  | existing {text : Text} : d.read path = .ok text → Starts d path create? style text false
  | missing {k : Skeleton} {text : Text} : (d.entryAt? path).isSome = false → create? = some k →
      k.generate style = .ok text → Starts d path create? style text true

namespace ClassFile

theorem exec_openFile (path : Text) (style : Style) (d : Disk) :
    exec (openFile path style : ExceptT Error (StateM Disk) ClassFile) d =
      (if (d.entryAt? path).isSome then
        match d.read path with
        | .ok text => ofText path text style false
        | .error .notFound => .error (.fileNotFound path)
        | .error fault => .error (.io path fault)
      else .error (.fileNotFound path), d) := by
  unfold openFile
  simp only [exec_bind, exec_lift, Disk.run_present]
  split
  · unfold Storage.readFile
    simp only [exec_bind, exec_lift, Disk.run_read]
    cases d.read path with
    | ok text => rfl
    | error fault => cases fault <;> rfl
  · rfl

theorem observes_openFile (path : Text) (style : Style) :
    Observes (openFile path style : ExceptT Error (StateM Disk) ClassFile) := fun d => by
  rw [exec_openFile]

/-- Opening a file gives the file as it can be read. -/
theorem exec_openFile_ok {path : Text} {style : Style} {d : Disk} {f : ClassFile} :
    (exec (openFile path style) d).1 = .ok f ↔
      ∃ text, d.read path = .ok text ∧ ofText path text style false = .ok f := by
  rw [exec_openFile]
  constructor
  · intro h
    split at h
    · split at h
      · exact ⟨_, ‹_›, h⟩
      · cases h
      · cases h
    · cases h
  · rintro ⟨text, hread, hf⟩
    rw [if_pos (Disk.isSome_of_read hread), hread]
    exact hf

/-- What a batch opens. -/
def openStart {m : Type → Type} [Monad m] [Storage m] (path : Text) (create? : Option Skeleton)
    (style : Style) : ExceptT Error m ClassFile :=
  match create? with
  | some skeleton => openOrNew path skeleton style
  | none => openFile path style

theorem exec_openOrNew (path : Text) (skeleton : Skeleton) (style : Style) (d : Disk) :
    exec (openOrNew path skeleton style : ExceptT Error (StateM Disk) ClassFile) d =
      if (d.entryAt? path).isSome then exec (openFile path style) d
      else ((skeleton.generate style).bind fun text => ofText path text style true, d) := by
  unfold openOrNew
  simp only [exec_bind, exec_lift, Disk.run_present]
  split
  · rfl
  · simp only [exec_bind, exec_mk]
    cases skeleton.generate style <;> rfl

theorem observes_openStart (path : Text) (create? : Option Skeleton) (style : Style) :
    Observes (openStart path create? style : ExceptT Error (StateM Disk) ClassFile) := by
  unfold openStart
  cases create? with
  | none => exact observes_openFile path style
  | some skeleton =>
    intro d
    dsimp only
    rw [exec_openOrNew]
    split
    · exact observes_openFile path style d
    · rfl

theorem exec_openStart_ok {path : Text} {create? : Option Skeleton} {style : Style} {d : Disk}
    {f : ClassFile} : (exec (openStart path create? style) d).1 = .ok f ↔
      ∃ text isNew, d.Starts path create? style text isNew ∧ ofText path text style isNew = .ok f := by
  constructor
  · intro h
    have hexisting : (exec (openFile path style) d).1 = .ok f → ∃ text isNew,
        d.Starts path create? style text isNew ∧ ofText path text style isNew = .ok f := fun h => by
      obtain ⟨text, hread, hf⟩ := exec_openFile_ok.1 h
      exact ⟨text, false, .existing hread, hf⟩
    unfold openStart at h
    cases create? with
    | none => exact hexisting h
    | some skeleton =>
      dsimp only at h
      rw [exec_openOrNew] at h
      split at h
      · exact hexisting h
      · rename_i hmissing
        cases hg : skeleton.generate style with
        | error fault =>
          rw [hg] at h
          cases h
        | ok text =>
          rw [hg] at h
          exact ⟨text, true, .missing (Bool.eq_false_iff.2 hmissing) rfl hg, h⟩
  · rintro ⟨text, isNew, hstart, hf⟩
    unfold openStart
    cases hstart with
    | existing hread =>
      have hopen := exec_openFile_ok.2 ⟨text, hread, hf⟩
      cases create? with
      | none => exact hopen
      | some skeleton =>
        dsimp only
        rw [exec_openOrNew, if_pos (Disk.isSome_of_read hread)]
        exact hopen
    | missing hmissing hcreate hg =>
      subst hcreate
      dsimp only
      rw [exec_openOrNew, if_neg (Bool.eq_false_iff.1 hmissing), hg]
      exact hf

end ClassFile

namespace Command

/-! The steps of a batch but for the last, which saves the file. -/

theorem observes_applyAll (ops : List Operation) (f : ClassFile) (i : Nat) :
    Observes (applyAll i f ops : ExceptT Failure (StateM Disk) ClassFile) := by
  induction ops generalizing f i with
  | nil => exact observes_pure f
  | cons op ops ih => exact (observes_mk _).adapt _ |>.bind fun f => ih f _

/-- Operations succeed on a file as they do in its editor. -/
theorem exec_applyAll_ok {ops : List Operation} {f g : ClassFile} {i : Nat} {d : Disk} :
    (exec (applyAll i f ops) d).1 = .ok g ↔
      ∃ e, f.editor.applyAll ops = .ok e ∧ g = { f with editor := e } := by
  induction ops generalizing f i with
  | nil =>
    constructor
    · intro h
      cases h
      exact ⟨_, rfl, rfl⟩
    · rintro ⟨e, he, rfl⟩
      cases he
      rfl
  | cons op ops ih =>
    have hop : Observes (pureInContext s!"Operation {i} failed".toList (f.apply op) :
      ExceptT Failure (StateM Disk) ClassFile) := (observes_mk _).adapt _
    rw [applyAll, hop.exec_bind_ok, Editor.applyAll]
    simp only [pureInContext, inContext, exec_adapt_ok, exec_mk, ih]
    rw [ClassFile.apply, ClassFile.edit]
    cases f.editor.apply op with
    | error fault =>
      constructor
      · rintro ⟨_, h, _⟩
        cases h
      · rintro ⟨_, h, _⟩
        cases h
    | ok e =>
      constructor
      · rintro ⟨_, h, hg⟩
        cases h
        exact hg
      · exact fun hg => ⟨_, rfl, hg⟩

/-- Opens the file of a batch and applies the operations in memory. -/
def prepare {m : Type → Type} [Monad m] [Storage m] (config? : Option Text) (path : Text) (b : Batch) :
    ExceptT Failure m ClassFile := do
  let style ← plainly (Config.styleFor config? path)
  let f ← inContext ("Failed to open " ++ path) (ClassFile.openStart path b.create? style)
  applyAll 1 f b.operations

variable {config? : Option Text} {file path : Text} {b : Batch} {d : Disk}

theorem runBatch_eq (config? : Option Text) (file : Text) (b : Batch) (apply : Bool) :
    (runBatch config? file b apply : ExceptT Failure (StateM Disk) Text) =
      prepare config? (batchPath file b) b >>= fun f => finish f apply := by
  simp only [runBatch, prepare, bind_assoc]
  rfl

theorem observes_prepare (config? : Option Text) (path : Text) (b : Batch) :
    Observes (prepare config? path b : ExceptT Failure (StateM Disk) ClassFile) :=
  ((Config.observes_styleFor config? path).adapt _).bind fun style =>
    ((ClassFile.observes_openStart path b.create? style).adapt _).bind fun f =>
      observes_applyAll b.operations f 1

end Command

namespace Batch

/-- What the steps of a batch come to before it is saved. -/
structure Draft where
  style : Style
  text : Text
  isNew : Bool
  opened : Editor
  edited : Editor

/-- The steps of a batch succeed on a disk: the configuration gives a style, the file starts with a
text that can be read as code, and the operations can be applied to it in order. -/
structure Drafts (b : Batch) (config? : Option Text) (path : Text) (d : Disk) (x : Draft) : Prop where
  config : (exec (Config.styleFor config? path) d).1 = .ok x.style
  start : d.Starts path b.create? x.style x.text x.isNew
  parse : Editor.parse x.text x.style = .ok x.opened
  edits : x.opened.applyAll b.operations = .ok x.edited

end Batch

namespace Command

variable {config? : Option Text} {file path : Text} {b : Batch} {d d' : Disk} {f : ClassFile}

theorem ofText_eq_ok {text : Text} {style : Style} {isNew : Bool} :
    ClassFile.ofText path text style isNew = .ok f ↔
      ∃ e, Editor.parse text style = .ok e ∧ f = ⟨path, e, isNew⟩ := by
  rw [ClassFile.ofText]
  cases Editor.parse text style with
  | error fault => exact ⟨nofun, fun ⟨_, h, _⟩ => nomatch h⟩
  | ok e => exact ⟨fun h => ⟨e, rfl, (Except.ok.inj h).symm⟩, fun ⟨_, h, hf⟩ => by cases h; rw [hf]⟩

theorem exec_prepare_ok : (exec (prepare config? path b) d).1 = .ok f ↔
    ∃ x, b.Drafts config? path d x ∧ f = ⟨path, x.edited, x.isNew⟩ := by
  have hstyle : Observes (plainly (Config.styleFor config? path) : ExceptT Failure (StateM Disk) Style) :=
    (Config.observes_styleFor config? path).adapt _
  have hopen (style : Style) : Observes (inContext ("Failed to open " ++ path)
      (ClassFile.openStart path b.create? style) : ExceptT Failure (StateM Disk) ClassFile) :=
    (ClassFile.observes_openStart path b.create? style).adapt _
  rw [prepare, hstyle.exec_bind_ok]
  simp only [(hopen _).exec_bind_ok]
  simp only [exec_applyAll_ok, plainly, inContext, exec_adapt_ok, ClassFile.exec_openStart_ok,
    ofText_eq_ok]
  constructor
  · rintro ⟨style, hs, f, ⟨text, isNew, hstart, e, he, rfl⟩, e', he', rfl⟩
    exact ⟨⟨style, text, isNew, e, e'⟩, ⟨hs, hstart, he, he'⟩, rfl⟩
  · rintro ⟨x, h, rfl⟩
    exact ⟨x.style, h.config, _, ⟨x.text, x.isNew, h.start, x.opened, h.parse, rfl⟩, x.edited, h.edits, rfl⟩

/-! Saving. -/

/-- A dry run and a file that was not modified end without writing. -/
theorem exec_finish_idle {apply : Bool} (h : (apply && f.isModified) = false) :
    ∃ answer, exec (finish f apply) d = (.ok answer, d) := by
  cases apply with
  | false => exact ⟨preview f, rfl⟩
  | true =>
    rw [Bool.true_and] at h
    exact ⟨noChanges f, by rw [finish, h]; rfl⟩

theorem exec_finish_error {fault : Error} (h : f.isModified = true)
    (hwrite : exec (Storage.writeFile f.path f.contents) d = (.error fault, d')) :
    exec (finish f true) d =
      (.error ((Failure.ofError fault).within ("Failed to write " ++ f.path)), d') := by
  rw [finish, h]
  change exec (inContext _ f.save >>= _) d = _
  rw [exec_bind, inContext, exec_adapt, ClassFile.save, exec_bind, hwrite]
  rfl

theorem exec_finish_ok (h : f.isModified = true)
    (hwrite : exec (Storage.writeFile f.path f.contents) d = (.ok (), d')) :
    exec (finish f true) d =
      (.ok ((if f.isNew then "Created " else "Updated ") ++ f.path ++ "\n"), d') := by
  rw [finish, h]
  change exec (inContext _ f.save >>= _) d = _
  rw [exec_bind, inContext, exec_adapt, ClassFile.save, exec_bind, hwrite]
  rfl

end Command

namespace Batch

variable {b : Batch} {config? : Option Text} {path : Text} {apply : Bool} {d : Disk} {x y : Draft}

theorem Drafts.edited_eq (hx : b.Drafts config? path d x) (hy : b.Drafts config? path d y) :
    y.edited = x.edited := by
  have hprepare := Command.exec_prepare_ok.2 ⟨x, hx, rfl⟩
  rw [Command.exec_prepare_ok.2 ⟨y, hy, rfl⟩] at hprepare
  exact congrArg ClassFile.editor (Except.ok.inj hprepare)

/-- The file is modified if it is new or there is anything to apply. -/
theorem Drafts.isModified (h : b.Drafts config? path d x) :
    (ClassFile.mk path x.edited x.isNew).isModified = (x.isNew || !b.operations.isEmpty) := by
  obtain ⟨s, hparse, he⟩ := Editor.parse_eq h.parse
  have hf := Source.faithful_of_parse hparse
  have hreached := (Editor.reached_read s (x.style.matching x.text)).applyAll hf (he ▸ h.edits)
  rw [ClassFile.isModified, hreached.isModified hf, Bool.false_or]

theorem Drafts.render_of_isEmpty (h : b.Drafts config? path d x) (hops : b.operations.isEmpty = true) :
    x.edited.render = x.text := by
  obtain ⟨s, hparse, he⟩ := Editor.parse_eq h.parse
  have hedits := h.edits
  rw [List.isEmpty_iff.1 hops, he] at hedits
  rw [← Except.ok.inj hedits]
  exact Source.print_of_parse hparse _

/-- What a batch at a path leaves of a disk `d`: its answer `r` and the disk `d'`. -/
structure Settles (b : Batch) (config? : Option Text) (path : Text) (apply : Bool) (d : Disk)
    (r : Except Failure Text) (d' : Disk) : Prop where
  /-- Only the file at the path changes, and only if the batch is to be applied and succeeds. -/
  changed : ∀ l, d'.fileAt? l ≠ d.fileAt? l → apply = true ∧ r.isOk = true ∧ d'.resolve path = .ok l
  dry : apply = false → d' = d
  /-- One step that fails is enough to leave the disk alone. -/
  failing : (∀ x, ¬b.Drafts config? path d x) → r.isOk = false ∧ d' = d
  /-- The batch succeeds if its steps do and its file can be written. -/
  succeeds : ∀ x, b.Drafts config? path d x →
    (apply = true → (exec (Storage.writeFile path x.edited.render) d).1.isOk = true) → r.isOk = true
  /-- The file holds what the operations make of the text that it starts with. -/
  applied : ∀ x, b.Drafts config? path d x → apply = true → r.isOk = true →
    d'.read path = .ok x.edited.render
  idle : b.operations = [] → (d.entryAt? path).isSome = true → d' = d

theorem settles_of_fails (fault : Failure) (h : ∀ x, ¬b.Drafts config? path d x) :
    b.Settles config? path apply d (.error fault) d where
  changed _ hl := absurd rfl hl
  dry _ := rfl
  failing _ := ⟨rfl, rfl⟩
  succeeds x hx := absurd hx (h x)
  applied x hx := absurd hx (h x)
  idle _ _ := rfl

/-- A batch that ends without writing. -/
theorem Drafts.settles_idle (h : b.Drafts config? path d x) (answer : Text)
    (hidle : apply = true → x.isNew = false ∧ b.operations.isEmpty = true) :
    b.Settles config? path apply d (.ok answer) d where
  changed _ hl := absurd rfl hl
  dry _ := rfl
  failing hno := absurd h (hno x)
  succeeds _ _ _ := rfl
  applied y hy happly _ := by
    obtain ⟨hnew, hops⟩ := hidle happly
    rw [h.edited_eq hy, h.render_of_isEmpty hops]
    have hstart := h.start
    rw [hnew] at hstart
    cases hstart with
    | existing hread => exact hread
  idle _ _ := rfl

/-- Without operations only a new file is written. -/
theorem Drafts.isSome_entryAt? (h : b.Drafts config? path d x)
    (hmodified : (x.isNew || !b.operations.isEmpty) = true) (hops : b.operations = []) :
    (d.entryAt? path).isSome = false := by
  rw [hops, List.isEmpty_nil, Bool.not_true, Bool.or_false] at hmodified
  have hstart := h.start
  rw [hmodified] at hstart
  cases hstart with
  | missing hmissing => exact hmissing

theorem Drafts.settles (h : b.Drafts config? path d x) (apply : Bool) :
    b.Settles config? path apply d (exec (Command.finish ⟨path, x.edited, x.isNew⟩ apply) d).1
      (exec (Command.finish ⟨path, x.edited, x.isNew⟩ apply) d).2 := by
  cases hmodified : apply && (ClassFile.mk path x.edited x.isNew).isModified with
  | false =>
    obtain ⟨answer, hfinish⟩ := Command.exec_finish_idle (d := d) hmodified
    rw [hfinish]
    refine h.settles_idle answer fun happly => ?_
    rw [happly, Bool.true_and, h.isModified] at hmodified
    exact (Bool.or_eq_false_iff.1 hmodified).imp_right fun hops => by simpa using hops
  | true =>
    obtain ⟨rfl, hmodified⟩ := Bool.and_eq_true_iff.1 hmodified
    have hidle (hops : b.operations = []) (hsome : (d.entryAt? path).isSome = true) : False := by
      rw [h.isSome_entryAt? (h.isModified ▸ hmodified) hops] at hsome
      cases hsome
    cases hwrite : exec (Storage.writeFile path x.edited.render) d with
    | mk r d' =>
    cases r with
    | error fault =>
      rw [Command.exec_finish_error hmodified hwrite]
      exact {
        changed := fun l hl => absurd (Disk.sameFiles_of_error hwrite l) hl
        dry := nofun
        failing := fun hno => absurd h (hno x)
        succeeds := fun y hy hok => by
          have hfails := hok rfl
          rw [h.edited_eq hy, hwrite] at hfails
          cases hfails
        applied := fun _ _ _ => nofun
        idle := fun hops hsome => (hidle hops hsome).elim }
    | ok =>
      obtain ⟨hread, hchanged⟩ := Disk.written_of_ok hwrite
      rw [Command.exec_finish_ok hmodified hwrite]
      exact {
        changed := fun l hl => ⟨rfl, rfl, hchanged l hl⟩
        dry := nofun
        failing := fun hno => absurd h (hno x)
        succeeds := fun _ _ _ => rfl
        applied := fun y hy _ _ => by rw [h.edited_eq hy, hread]
        idle := fun hops hsome => (hidle hops hsome).elim }

end Batch

/-- A batch is all or nothing: it writes the one file that it names, after all else has succeeded. -/
theorem runBatch_atomic (config? : Option Text) (file : Text) (b : Batch) (apply : Bool) (d : Disk) :
    b.Settles config? (Command.batchPath file b) apply d
      (exec (Command.runBatch config? file b apply) d).1
      (exec (Command.runBatch config? file b apply) d).2 := by
  have hd := Command.observes_prepare config? (Command.batchPath file b) b d
  rw [Command.runBatch_eq, exec_bind]
  cases hprepare : exec (Command.prepare config? (Command.batchPath file b) b) d with
  | mk r d₁ =>
    rw [hprepare] at hd
    obtain rfl : d₁ = d := hd
    cases r with
    | error fault =>
      refine Batch.settles_of_fails fault fun x h => ?_
      have hok := Command.exec_prepare_ok.2 ⟨x, h, rfl⟩
      rw [hprepare] at hok
      cases hok
    | ok f =>
      obtain ⟨x, h, rfl⟩ := Command.exec_prepare_ok.1 (congrArg Prod.fst hprepare)
      exact h.settles apply

/-- The file would be new and its first method goes well, but the second has no name. -/
example :
    let r := exec (Command.runBatch none "b.json"
      ⟨"A.php", some ⟨"", "A"⟩, [.addMethod { name := "f" }, .addMethod { name := "1" }]⟩ true)
      (⟨[], []⟩ : Disk)
    r.1.isOk = false ∧ r.2.entries = [] := by
  decide +kernel

end PhpGraft
