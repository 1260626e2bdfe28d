import PhpGraft.Proofs.Steps
import PhpGraft.Storage.Disk

/-!
What reading and writing do to the files of a disk. A file that was written reads as it was written,
under the path that it was written to, and no other file changes.
-/
namespace PhpGraft

namespace Disk

variable {d d' : Disk} {l k : Location} {path text : Text} {e : Entry}

/-- What the file at a location holds. -/
def fileAt? (d : Disk) (l : Location) : Option Content :=
  match d.find? l with
  | some (.file c) => some c
  | _ => none

/-- The same files, perhaps in other directories. -/
def SameFiles (d d' : Disk) : Prop := ∀ l, d'.fileAt? l = d.fileAt? l

theorem SameFiles.trans {d₁ d₂ : Disk} (h : d.SameFiles d₁) (h' : d₁.SameFiles d₂) : d.SameFiles d₂ :=
  fun l => (h' l).trans (h l)

/-! An entry in its place. -/

theorem lookup_filter_of_ne (h : k ≠ l) (es : List (Location × Entry)) :
    (es.filter (·.1 ≠ l)).lookup k = es.lookup k := by
  induction es with
  | nil => rfl
  | cons p es ih =>
    obtain ⟨m, e⟩ := p
    rw [List.filter_cons, List.lookup_cons]
    by_cases hm : m = l
    · have hk : (k == m) = false := beq_eq_false_iff_ne.2 fun he => h (he.trans hm)
      rw [if_neg (by simp [hm]), ih, hk]
    · rw [if_pos (by simp [hm]), List.lookup_cons, ih]

theorem lookup_put_self (d : Disk) (l : Location) (e : Entry) :
    (d.put l e).entries.lookup l = some e := by
  have hnone : (d.entries.filter (·.1 ≠ l)).lookup l = none := by
    refine List.lookup_eq_none_iff.2 fun p hp => bne_iff_ne.2 fun he => ?_
    exact of_decide_eq_true (List.mem_filter.1 hp).2 he.symm
  rw [put, List.lookup_append, hnone, Option.none_or, List.lookup_cons_self]

theorem lookup_put_of_ne (d : Disk) (e : Entry) (h : k ≠ l) :
    (d.put l e).entries.lookup k = d.entries.lookup k := by
  have hnone : List.lookup k [(l, e)] = none := by
    rw [List.lookup_cons, beq_eq_false_iff_ne.2 h]
    exact List.lookup_nil
  rw [put, List.lookup_append, lookup_filter_of_ne h, hnone, Option.or_none]

theorem find?_put_self (d : Disk) (l : Location) (e : Entry) : (d.put l e).find? l = some e := by
  rw [find?, lookup_put_self]

theorem fileAt?_eq (d : Disk) (l : Location) : d.fileAt? l =
    match d.entries.lookup l with
    | some (.file c) => some c
    | _ => none := by
  rw [fileAt?, find?]
  cases d.entries.lookup l with
  | some e => rfl
  | none =>
    dsimp only
    split
    · rename_i h
      split at h <;> cases h
    · rfl

theorem fileAt?_put_of_ne (d : Disk) (e : Entry) (h : k ≠ l) : (d.put l e).fileAt? k = d.fileAt? k := by
  rw [fileAt?_eq, fileAt?_eq, lookup_put_of_ne d e h]

/-- A directory stays when something else is put in its place. -/
theorem find?_put_directory (h : d.find? k = some .directory) (hne : k ≠ l) (e : Entry) :
    (d.put l e).find? k = some .directory := by
  rw [find?] at h
  rw [find?, lookup_put_of_ne d e hne]
  cases hlookup : d.entries.lookup k with
  | some e' =>
    rw [hlookup] at h
    exact h
  | none =>
    rw [hlookup] at h
    have hholds : (k.isPrefixOf d.working || d.entries.any fun x => k.isPrefixOf x.1) = true := by
      refine Decidable.byContradiction fun hno => ?_
      dsimp only at h
      rw [if_neg hno] at h
      cases h
    have hkept : (k.isPrefixOf d.working || (d.put l e).entries.any fun x => k.isPrefixOf x.1) = true := by
      rcases Bool.or_eq_true_iff.1 hholds with hworking | hentry
      · rw [hworking, Bool.true_or]
      · obtain ⟨x, hx, hprefix⟩ := List.any_eq_true.1 hentry
        refine Bool.or_eq_true_iff.2 (.inr (List.any_eq_true.2 ?_))
        by_cases hxl : x.1 = l
        · exact ⟨(l, e), List.mem_append_right _ List.mem_cons_self, hxl ▸ hprefix⟩
        · exact ⟨x, List.mem_append_left _ (List.mem_filter.2 ⟨hx, decide_eq_true hxl⟩), hprefix⟩
    exact if_pos hkept

theorem follow_put (hl : d.find? l ≠ some .directory) (e : Entry) {parts : List Text} {k' : Location}
    (h : d.follow k parts = .ok k') : (d.put l e).follow k parts = .ok k' := by
  induction parts generalizing k with
  | nil => exact h
  | cons part parts ih =>
    rw [follow] at h ⊢
    cases hk : d.find? k with
    | none =>
      rw [hk] at h
      cases h
    | some entry =>
      rw [hk] at h
      cases entry with
      | file c => cases h
      | directory =>
        have hne : k ≠ l := by
          rintro rfl
          exact hl hk
        rw [find?_put_directory hk hne]
        dsimp only at h ⊢
        split at h
        · rw [if_pos ‹_›]
          exact ih h
        · rw [if_neg ‹_›]
          split at h
          · rw [if_pos ‹_›]
            exact ih h
          · rw [if_neg ‹_›]
            exact ih h

theorem resolve_put (h : d.resolve path = .ok k) (hl : d.find? l ≠ some .directory) (e : Entry) :
    (d.put l e).resolve path = .ok k := by
  rw [resolve] at h ⊢
  split at h
  · cases h
  · rw [if_neg ‹_›]
    exact follow_put hl e h

/-! Writing. -/

/-- What it takes to write a file. -/
theorem write_cases (h : d.write path text = .ok d') : ∃ l, d.resolve path = .ok l ∧
    d.find? l ≠ some .directory ∧ endsInDots path = false ∧ endsInSeparator path = false ∧
      d' = d.put l (.file (.text text)) := by
  rw [write] at h
  cases hl : d.resolve path with
  | error fault =>
    rw [hl] at h
    cases h
  | ok l =>
    rw [hl] at h
    dsimp only at h
    split at h
    · cases h
    · rename_i hno
      split at h
      · cases h
      · split at h
        · cases h
        · cases h
          exact ⟨l, rfl, hno, Bool.eq_false_iff.2 ‹_›, Bool.eq_false_iff.2 ‹_›, rfl⟩

/-- What was written is read. -/
theorem read_write (h : d.write path text = .ok d') : d'.read path = .ok text := by
  obtain ⟨l, hl, hno, hdots, hseparator, rfl⟩ := write_cases h
  have hlocate : (d.put l (.file (.text text))).locate path = .ok l := by
    rw [locate, resolve_put hl hno]
    dsimp only
    rw [find?_put_self, hdots, hseparator]
    rfl
  rw [read, hlocate]
  dsimp only
  rw [find?_put_self]

/-- Only what was written changes. -/
theorem resolve_of_write (h : d.write path text = .ok d') (hk : d'.fileAt? k ≠ d.fileAt? k) :
    d'.resolve path = .ok k := by
  obtain ⟨l, hl, hno, -, -, rfl⟩ := write_cases h
  have hkl : k = l := Classical.byContradiction fun hne => hk (fileAt?_put_of_ne d _ hne)
  rw [hkl]
  exact resolve_put hl hno _

/-! Directories. -/

/-- The same files, in directories that are still there. -/
structure Grows (d d' : Disk) : Prop where
  files : d.SameFiles d'
  paths : ∀ path k, d.resolve path = .ok k → d'.resolve path = .ok k

theorem Grows.refl (d : Disk) : d.Grows d := ⟨fun _ => rfl, fun _ _ h => h⟩

theorem Grows.trans {d₁ d₂ : Disk} (h : d.Grows d₁) (h' : d₁.Grows d₂) : d.Grows d₂ :=
  ⟨h.files.trans h'.files, fun path k hk => h'.paths path k (h.paths path k hk)⟩

theorem grows_makeDirectory (h : d.makeDirectory path = .ok d') : d.Grows d' := by
  rw [makeDirectory] at h
  split at h
  · cases h
  · rename_i l hl
    split at h
    · cases h
    · rename_i hnone
      cases h
      rw [Option.not_isSome_iff_eq_none] at hnone
      constructor
      · intro k
        by_cases hk : k = l
        · subst hk
          rw [fileAt?, fileAt?, find?_put_self, hnone]
        · exact fileAt?_put_of_ne d _ hk
      · intro path k hk
        exact resolve_put hk (by simp [hnone]) _

theorem grows_settle {fault : IoFault} (h : d.settle path fault = .ok d') : d.Grows d' := by
  rw [settle] at h
  split at h
  · cases h
    exact .refl _
  · cases h

theorem grows_makeDirectories {ancestors : List Text}
    (h : d.makeDirectories path ancestors = .ok d') : d.Grows d' := by
  induction ancestors generalizing d d' path with
  | nil =>
    unfold makeDirectories at h
    split at h
    · cases h
      exact .refl _
    · split at h
      · cases h
        exact grows_makeDirectory ‹_›
      · rename_i hnil
        cases hnil
      · exact grows_settle h
  | cons parent ancestors ih =>
    unfold makeDirectories at h
    split at h
    · cases h
      exact .refl _
    · split at h
      · cases h
        exact grows_makeDirectory ‹_›
      · rename_i hcons
        cases hcons
        split at h
        · cases h
        · rename_i d₁ h₁
          have hparent := ih h₁
          split at h
          · cases h
            exact hparent.trans (grows_makeDirectory ‹_›)
          · exact hparent.trans (grows_settle h)
      · exact grows_settle h

/-! Files and the directories that they are in. -/

/-- The disk with the directories that a file at this path is in. -/
def withParents (d : Disk) (path : Text) : Except Error Disk :=
  match (Path.parent? path).filter (!·.isEmpty) with
  | some parent =>
    (d.makeDirectories parent ((Path.ancestors parent).drop 1)).mapError (.io parent ·)
  | none => .ok d

theorem grows_withParents (h : d.withParents path = .ok d') : d.Grows d' := by
  rw [withParents] at h
  split at h
  · rename_i parent _
    cases hmake : d.makeDirectories parent ((Path.ancestors parent).drop 1) with
    | error fault =>
      rw [hmake] at h
      cases h
    | ok d₁ =>
      rw [hmake] at h
      cases h
      exact grows_makeDirectories hmake
  · cases h
    exact .refl _

open Steps

theorem run_write (path text : Text) (d : Disk) :
    (Storage.write path text : StateM Disk (Except IoFault Unit)).run d =
      match d.write path text with
      | .ok d' => (.ok (), d')
      | .error fault => (.error fault, d) := rfl

theorem run_makeDirectories (path : Text) (d : Disk) :
    (Storage.makeDirectories path : StateM Disk (Except IoFault Unit)).run d =
      match d.makeDirectories path ((Path.ancestors path).drop 1) with
      | .ok d' => (.ok (), d')
      | .error fault => (.error fault, d) := rfl

/-- Writing a file: first its directories, then the file itself. -/
theorem exec_writeFile (path text : Text) (d : Disk) :
    exec (Storage.writeFile path text : ExceptT Error (StateM Disk) Unit) d =
      match d.withParents path with
      | .error fault => (.error fault, d)
      | .ok d₁ =>
        match d₁.write path text with
        | .error fault => (.error (.io path fault), d₁)
        | .ok d' => (.ok (), d') := by
  unfold Storage.writeFile withParents
  cases (Path.parent? path).filter (!·.isEmpty) with
  | none =>
    simp only [exec_bind, exec_lift, run_write]
    cases d.write path text <;> rfl
  | some parent =>
    simp only [exec_bind, exec_lift, run_makeDirectories]
    cases d.makeDirectories parent ((Path.ancestors parent).drop 1) with
    | error fault => rfl
    | ok d₁ =>
      change _ = match d₁.write path text with
        | .error fault => _
        | .ok d' => _
      simp only [exec_bind, exec_lift, run_write]
      cases d₁.write path text <;> rfl

/-- A file that cannot be written changes no file. -/
theorem sameFiles_of_error {fault : Error} (h : exec (Storage.writeFile path text) d = (.error fault, d')) :
    d.SameFiles d' := by
  rw [exec_writeFile] at h
  split at h
  · cases h
    exact fun _ => rfl
  · split at h
    · cases h
      exact (grows_withParents ‹_›).files
    · cases h

/-- Writing comes to a disk on which the file reads as it was written and no other has changed. -/
theorem written_of_ok (h : exec (Storage.writeFile path text) d = (.ok (), d')) :
    d'.read path = .ok text ∧ ∀ l, d'.fileAt? l ≠ d.fileAt? l → d'.resolve path = .ok l := by
  rw [exec_writeFile] at h
  split at h
  · cases h
  · rename_i d₁ hparents
    split at h
    · cases h
    · rename_i d₂ hwrite
      cases h
      refine ⟨read_write hwrite, fun l hl => resolve_of_write hwrite ?_⟩
      rwa [(grows_withParents hparents).files l]

/-- Where a text can be read. -/
theorem resolve_of_read (h : d.read path = .ok text) :
    ∃ l, d.resolve path = .ok l ∧ d.find? l = some (.file (.text text)) := by
  have hlocate (l : Location) : d.locate path = .ok l → d.resolve path = .ok l := by
    grind [locate]
  grind [read]

/-- Writing what a file holds changes no file. -/
theorem sameFiles_of_read (hread : d.read path = .ok text)
    (h : exec (Storage.writeFile path text) d = (.ok (), d')) : d.SameFiles d' := by
  rw [exec_writeFile] at h
  split at h
  · cases h
  · rename_i d₁ hparents
    split at h
    · cases h
    · rename_i d₂ hwrite
      cases h
      have hgrows := grows_withParents hparents
      obtain ⟨l, hl, hfind⟩ := resolve_of_read hread
      obtain ⟨l', hl', -, -, -, rfl⟩ := write_cases hwrite
      obtain rfl : l = l' := Except.ok.inj ((hgrows.paths path l hl).symm.trans hl')
      intro k
      by_cases hk : k = l
      · simp [fileAt?, find?_put_self, hk, hfind]
      · rw [fileAt?_put_of_ne _ _ hk, hgrows.files k]

end Disk
end PhpGraft
