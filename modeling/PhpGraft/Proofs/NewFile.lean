import Mathlib.Data.List.DropRight
import PhpGraft.Proofs.Agreement
import PhpGraft.Proofs.BatchRun
import PhpGraft.Proofs.Session

/-!
New files. Whatever names a file is generated for, it opens in an editor with the one class that it
was generated for, so no generated file is written or held in memory that cannot be edited.
-/
namespace PhpGraft

open Steps

variable {k : Skeleton} {style : Style} {path text : Text} {d d' : Disk} {e : Editor}

/-! The class of a generated file. -/

namespace Skeleton

/-- The name of the class as seen from outside its namespace. -/
def qualifiedName (k : Skeleton) : Text :=
  match Name.normalize k.scope with
  | [] => k.name
  | scope => scope ++ '\\' :: k.name

theorem qualify_normalize (t name : Text) (h : (Name.normalize t).isEmpty = false) :
    Name.qualify (some (Name.normalize t)) name = Name.normalize t ++ '\\' :: name := by
  have hstripped : (Name.normalize t).dropWhile (· == '\\') = Name.normalize t :=
    List.dropWhile_idempotent _ _
  cases hn : Name.normalize t with
  | nil =>
    rw [hn] at h
    cases h
  | cons c s =>
    rw [hn] at hstripped
    rw [Name.qualify, hstripped]

/-- The one class that a generated file declares. -/
theorem declaredClasses_source (k : Skeleton) (style : Style) :
    (k.plain.source style).tree.root.declaredClasses = [k.qualifiedName] := by
  unfold qualifiedName
  cases h : k.plain.scope.isEmpty with
  | true =>
    rw [root_plain h, show Name.normalize k.scope = [] from List.isEmpty_iff.1 h]
    rfl
  | false =>
    have hname : Name.qualify (some k.plain.scope) k.name = Name.normalize k.scope ++ '\\' :: k.name :=
      qualify_normalize k.scope k.name h
    rw [root_scoped h]
    refine (congrArg (fun name => [name]) hname).trans ?_
    cases hn : Name.normalize k.scope with
    | nil =>
      have : (Name.normalize k.scope).isEmpty = false := h
      rw [hn] at this
      cases this
    | cons c s => rfl

theorem exists_edited (k : Skeleton) (style : Style) : ∃ (sc : (k.source style).ClassScope) (a : Nat),
    sc.cls = k.classNode a := by
  cases h : k.scope.isEmpty with
  | true => exact ⟨plainScope h style, 2, rfl⟩
  | false => exact ⟨scopedScope h style, 7, rfl⟩

end Skeleton

/-! Generated files on a disk. -/

/-- What making a file may come to: the name is taken, the file cannot be written and all files are as
before, or the file is there, can be opened, and is the only one that is new. -/
inductive ClassFile.Creates (d : Disk) (path text : Text) (style : Style) (f : ClassFile) :
    Except Error ClassFile × Disk → Prop
  | taken : (d.entryAt? path).isSome = true → Creates d path text style f (.error (.alreadyExists path), d)
  | unwritten {fault : Error} {d' : Disk} : exec (Storage.writeFile path text) d = (.error fault, d') →
      d.SameFiles d' → Creates d path text style f (.error fault, d')
  | written {d' : Disk} : exec (Storage.writeFile path text) d = (.ok (), d') →
      d'.read path = .ok text → exec (openFile path style) d' = (.ok f, d') →
      (∀ l, d'.fileAt? l ≠ d.fileAt? l → d'.resolve path = .ok l) →
      Creates d path text style f (.ok f, d')

namespace ClassFile

theorem exec_create (path : Text) (skeleton : Skeleton) (style : Style) (d : Disk) :
    exec (create path skeleton style : ExceptT Error (StateM Disk) ClassFile) d =
      if (d.entryAt? path).isSome then (.error (.alreadyExists path), d)
      else match skeleton.generate style with
        | .error fault => (.error fault, d)
        | .ok text =>
          match exec (Storage.writeFile path text) d with
          | (.ok (), d') => exec (openFile path style) d'
          | (.error fault, d') => (.error fault, d') := by
  unfold create
  simp only [exec_bind, exec_lift, Disk.run_present]
  split
  · rfl
  · simp only [exec_bind, exec_mk]
    cases skeleton.generate style with
    | error fault => rfl
    | ok text =>
      dsimp only
      generalize exec (Storage.writeFile path text) d = r
      obtain ⟨r | u, d'⟩ := r <;> rfl

theorem exec_openFile_written (h : Editor.parse text style = .ok e) (hread : d.read path = .ok text) :
    exec (openFile path style : ExceptT Error (StateM Disk) ClassFile) d = (.ok ⟨path, e, false⟩, d) := by
  rw [exec_openFile, if_pos (Disk.isSome_of_read hread), hread]
  dsimp only
  rw [Command.ofText_eq_ok.2 ⟨e, h, rfl⟩]

theorem creates (hk : k.generate style = .ok text) (h : Editor.parse text style = .ok e) (path : Text)
    (d : Disk) : Creates d path text style ⟨path, e, false⟩ (exec (create path k style) d) := by
  rw [exec_create]
  split
  · exact .taken ‹_›
  · rw [hk]
    dsimp only
    cases hw : exec (Storage.writeFile path text) d with
    | mk r d' =>
      cases r with
      | error fault => exact .unwritten hw (Disk.sameFiles_of_error hw)
      | ok u =>
        obtain ⟨hread, hother⟩ := Disk.written_of_ok hw
        have hopen := exec_openFile_written h hread
        dsimp only
        rw [hopen]
        exact .written hw hread hopen hother

end ClassFile

/-! Generated files in general. -/

namespace Skeleton

/-- An editor `e` of the text that was generated for a class. -/
structure EditedIn (k : Skeleton) (style : Style) (text : Text) (e : Editor) : Prop where
  unchanged : e.style = style
  declaredClasses : e.working.root.declaredClasses = [k.qualifiedName]
  /-- The class being edited is the one that was asked for, and has no members yet. -/
  edited : ∃ scope classAt n c, e.working.root.classScope? = some (scope, classAt) ∧
    e.working.root.at? scope = some n ∧ n.children[classAt]? = some c ∧
    c.decl = .classLike (.ofName k.name) ∧ c.children = []
  create : ∀ path d,
    ClassFile.Creates d path text style ⟨path, e, false⟩ (exec (ClassFile.create path k style) d)
  openOrNew : ∀ path (d : Disk), exec (ClassFile.openOrNew path k style) d =
    if (d.entryAt? path).isSome then exec (ClassFile.openFile path style) d
    else (.ok ⟨path, e, true⟩, d)
  /-- Whatever is tried on the file, there is a class to try it on. -/
  session : ∀ ops, .error .noClass ∉ ((Edit.session ops).run e).1

end Skeleton

theorem Source.answer_ne_noClass {s : Source} (h : s.tree.root.classScope?.isSome = true)
    (op : Operation) : s.answer op ≠ .error .noClass := by
  have hfound : s.found = .ok () := if_pos h
  cases op with
  | addMethod m =>
    rw [answer, hfound]
    split
    · rintro ⟨⟩
    · split <;> rintro ⟨⟩
  | addImports names =>
    rw [answer, hfound]
    split <;> rintro ⟨⟩

/-- Every file that can be generated can be edited, wherever it is kept. -/
theorem generated_editable {k : Skeleton} {style : Style} {text : Text}
    (h : k.generate style = .ok text) :
    ∃ e, Editor.parse text style = .ok e ∧ k.EditedIn style text e := by
  have hparse := Skeleton.parse_generate h style
  obtain ⟨hsound, -⟩ := Skeleton.generate_cases h
  have hf := Source.faithful_of_parse
    (show Source.parse _ = .ok (k.plain.source style) from Skeleton.parse_tokens hsound)
  obtain ⟨sc, a, hcls⟩ := k.plain.exists_edited style
  refine ⟨_, hparse, rfl, k.declaredClasses_source style, ?_, ClassFile.creates h hparse, ?_, ?_⟩
  · refine ⟨sc.path, sc.before.length, sc.node, sc.cls, sc.edited, sc.reached, ?_, ?_, ?_⟩
    · rw [sc.split, List.getElem?_append_right (Nat.le_refl _), Nat.sub_self]
      rfl
    · rw [hcls]
      rfl
    · rw [hcls]
      rfl
  · intro path d
    rw [ClassFile.exec_openOrNew, h]
    exact congrArg (fun r => ite _ _ (r, d)) (Command.ofText_eq_ok.2 ⟨_, hparse, rfl⟩)
  · intro ops
    obtain ⟨e', edited, hrun, -⟩ := (Editor.reached_read (k.plain.source style) style).run_session hf ops
    rw [hrun]
    intro hmem
    obtain ⟨op, -, hop⟩ := List.mem_map.1 hmem
    exact Source.answer_ne_noClass (by rw [sc.edited]; rfl) op hop

/-- Keywords as names, a space beyond ASCII inside a name, a namespace with white space and a backslash
in front, and an indent that is no white space. -/
theorem generated_editable_keywords : ∃ text e,
    Skeleton.generate ⟨" \\namespace\\é\u00a0é", "final"⟩ ⟨"//", true, .crlf⟩ = .ok text ∧
      Editor.parse text ⟨"//", true, .crlf⟩ = .ok e ∧
        e.working.root.declaredClasses = ["namespace\\é\u00a0é\\final"] := by
  have hgenerate : (Skeleton.generate ⟨" \\namespace\\é\u00a0é", "final"⟩ ⟨"//", true, .crlf⟩).isOk = true ∧
      Skeleton.qualifiedName ⟨" \\namespace\\é\u00a0é", "final"⟩ = "namespace\\é\u00a0é\\final" := by
    decide +kernel
  obtain ⟨hok, hname⟩ := hgenerate
  obtain ⟨text, h⟩ := exists_of_isOk hok
  obtain ⟨e, hparse, hedited⟩ := generated_editable h
  exact ⟨text, e, h, hparse, hedited.declaredClasses.trans (congrArg (fun name => [name]) hname)⟩

end PhpGraft
