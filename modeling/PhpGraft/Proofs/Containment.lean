import PhpGraft.Proofs.Autoload
import PhpGraft.Proofs.LineBreaks
import PhpGraft.Proofs.Text

/-!
Where the files lie that classes are looked up in. A name is not checked before it becomes a path, so
it can lead out of the directories that are registered; the name of a class that can be declared does
not.
-/
namespace PhpGraft

theorem Text.splitOn_eq (c : Char) (t : Text) : List.splitOn c t = Text.splitOn c t := by
  induction t with
  | nil => exact List.splitOn_nil c
  | cons d t ih =>
    rw [List.splitOn, List.splitOnP_cons_eq_if_modifyHead, ← List.splitOn, ih, Text.splitOn]
    by_cases hd : d = c
    · rw [if_pos (beq_iff_eq.2 hd), if_pos hd]
    · rw [if_neg (mt beq_iff_eq.1 hd), if_neg hd]
      cases hw : Text.splitOn c t with
      | nil => exact absurd hw (Text.splitOn_ne_nil c t)
      | cons w ws => rfl

namespace Path

variable {part : Text}

/-- What the parts of a path say. -/
def components (p : Text) : List Text := (parts p).map Prod.fst

def parent : Text := ['.', '.']

/-- A directory followed by a relative path that does not leave it. -/
def Below (base p : Text) : Prop :=
  ∃ rel, rel ≠ [] ∧ isAbsolute rel = false ∧ parent ∉ components rel ∧ p = join base rel

theorem mem_partsFrom (hempty : part ≠ []) (hdot : part ≠ ['.']) (start : Nat) (ps : List Text) :
    part ∈ (partsFrom start ps).map Prod.fst ↔ part ∈ ps := by
  induction ps generalizing start with
  | nil => rfl
  | cons q ps ih =>
    rw [partsFrom]
    split
    · rename_i hq
      have hne : part ≠ q := by
        rintro rfl
        exact hq.elim hempty fun h => hdot h.1
      rw [ih, List.mem_cons, or_iff_right hne]
    · rw [List.map_cons, List.mem_cons, List.mem_cons, ih]

/-- Splitting a path at its slashes only adds parts that say nothing. -/
theorem mem_components (hempty : part ≠ []) (hdot : part ≠ ['.']) (hroot : part ≠ ['/']) (p : Text) :
    part ∈ components p ↔ part ∈ p.splitOn '/' := by
  rw [components, parts]
  split
  · rename_i habs
    obtain ⟨t, rfl⟩ := List.head?_eq_some_iff.1 (beq_iff_eq.1 habs)
    have hsplit : Text.splitOn '/' ('/' :: t) = [] :: Text.splitOn '/' t := if_pos rfl
    rw [List.map_cons, List.mem_cons, or_iff_right hroot, mem_partsFrom hempty hdot, hsplit,
      List.mem_cons, or_iff_right hempty, ← Text.splitOn_eq]
    rfl
  · exact mem_partsFrom hempty hdot 0 _

end Path

namespace Autoload

variable {rest scope name : Text} {entries : List (Text × Text)}

/-- The pieces of a name between backslashes and slashes. -/
def segments (name : Text) : List Text := (name.splitOn '\\').flatMap (Text.splitOn '/')

/-- Nothing stands in front of the first separator. -/
def IsRooted (rest : Text) : Prop := rest.head? = some '\\' ∨ rest.head? = some '/'

theorem relative_ne_nil (rest : Text) : relative rest ≠ [] :=
  List.append_ne_nil_of_right_ne_nil _ (by decide)

theorem isAbsolute_relative (h : ¬IsRooted rest) : Path.isAbsolute (relative rest) = false := by
  refine beq_eq_false_iff_ne.2 fun habs => h ?_
  cases rest with
  | nil => cases habs
  | cons c rest =>
    have hc : (if c = '\\' then '/' else c) = '/' := Option.some.inj habs
    split at hc
    · exact .inl (congrArg some ‹c = '\\'›)
    · exact .inr (congrArg some hc)

theorem splitOn_map (rest : Text) :
    Text.splitOn '/' (rest.map fun c => if c = '\\' then '/' else c) = segments rest := by
  rw [← Text.join_splitOn_map, Text.splitOn_join _ (Text.splitOn_ne_nil _ _), segments]

/-- A path leads upwards where the name has `..` in front of its last separator. -/
theorem parent_mem_components (rest : Text) :
    Path.parent ∈ Path.components (relative rest) ↔ Path.parent ∈ (segments rest).dropLast := by
  obtain ⟨front, last, hrest, hphp⟩ := Text.splitOn_append_right (c := '/') (s := ".php") (by decide)
    (rest.map fun c => if c = '\\' then '/' else c)
  have hlast : Path.parent ≠ last ++ ".php" := by
    intro h
    -- the last characters differ
    have hend := congrArg List.getLast? h
    rw [List.getLast?_append] at hend
    cases hend
  rw [Path.mem_components (by decide) (by decide) (by decide), relative, hphp, ← splitOn_map, hrest,
    List.dropLast_concat, List.mem_append, List.mem_singleton, or_iff_left hlast]

theorem below_of_segments (h : ¬IsRooted rest) (hparent : Path.parent ∉ (segments rest).dropLast)
    (directory : Text) : Path.Below directory (Path.join directory (relative rest)) :=
  ⟨_, relative_ne_nil rest, isAbsolute_relative h, mt (parent_mem_components rest).1 hparent, rfl⟩

/-! Names of classes. -/

theorem normalizePrefix_cases (scope : Text) :
    normalizePrefix scope = [] ∨ ∃ core, normalizePrefix scope = core ++ ['\\'] := by
  rw [normalizePrefix]
  split
  · exact .inl rfl
  · exact .inr ⟨_, rfl⟩

theorem withoutRoot_normalize (name : Text) :
    Name.withoutRoot (Name.normalize name) = Name.normalize name := by
  rw [Name.withoutRoot, Text.dropPrefix?]
  split
  · rename_i hroot
    obtain ⟨t, ht⟩ := List.isPrefixOf_iff_prefix.1 hroot
    have hhead := List.head?_dropWhile_not (· == '\\') name.trim
    rw [← Name.normalize, ← ht] at hhead
    cases hhead
  · rfl

/-- What a prefix leaves of a qualified name is made of identifiers. -/
theorem isIdentifier_of_rest (hname : Name.isQualified (Name.normalize name) = true)
    (h : Name.normalize name = normalizePrefix scope ++ rest) :
    ∀ w ∈ rest.splitOn '\\', Name.isIdentifier w = true := by
  rw [Name.isQualified, withoutRoot_normalize, h] at hname
  intro w hw
  refine List.all_eq_true.1 hname w ?_
  rcases normalizePrefix_cases scope with hscope | ⟨core, hscope⟩
  · rwa [hscope, List.nil_append]
  · rw [hscope, List.append_assoc, List.singleton_append, Text.splitOn_append]
    exact List.mem_append_right _ hw

theorem segments_of_identifiers (h : ∀ w ∈ rest.splitOn '\\', Name.isIdentifier w = true) :
    segments rest = rest.splitOn '\\' := by
  have hslash : ∀ w ∈ rest.splitOn '\\', Text.splitOn '/' w = [w] := fun w hw =>
    Text.splitOn_of_not_mem fun hc => absurd (isNameChar_of_isIdentifier (h w hw) hc) (by decide)
  rw [segments, List.flatMap_congr hslash, List.flatMap_singleton']

theorem not_isRooted_of_identifiers (h : ∀ w ∈ rest.splitOn '\\', Name.isIdentifier w = true) :
    ¬IsRooted rest := by
  -- in front of a separator there would be an empty piece
  have hsegments := segments_of_identifiers h
  intro hroot
  obtain ⟨t, rfl⟩ | ⟨t, rfl⟩ := hroot.imp List.head?_eq_some_iff.1 List.head?_eq_some_iff.1
  · exact absurd (h [] List.mem_cons_self) (by decide)
  · have hempty : [] ∈ segments ('/' :: t) := by
      rw [← splitOn_map]
      exact List.mem_cons_self
    exact absurd (h [] (hsegments ▸ hempty)) (by decide)

theorem parent_not_mem_of_identifiers (h : ∀ w ∈ rest.splitOn '\\', Name.isIdentifier w = true) :
    Path.parent ∉ (segments rest).dropLast := by
  rw [segments_of_identifiers h]
  intro hmem
  exact absurd (h _ (List.dropLast_subset _ hmem)) (by decide)

theorem mem_candidates {p : Text} (h : p ∈ (ofList entries).candidates name) :
    ∃ e ∈ entries, ∃ rest, Name.normalize name = normalizePrefix e.1 ++ rest ∧
      p = Path.join e.2 (relative rest) := by
  rw [candidates_ofList, ranked] at h
  obtain ⟨rule, hrule, rfl⟩ := List.mem_map.1 h
  obtain ⟨hrule, happlies⟩ := List.mem_filter.1 (List.mem_mergeSort.1 hrule)
  obtain ⟨e, he, rfl⟩ := List.mem_map.1 hrule
  obtain ⟨rest, hrest⟩ := List.isPrefixOf_iff_prefix.1 happlies
  refine ⟨e, he, rest, hrest.symm, ?_⟩
  rw [candidate, ← hrest, List.drop_left]

end Autoload

/-- Names that cannot be declared lead out of the directory of their prefix, upwards or to the root. -/
theorem locate_leaves :
    let entries : List (Text × Text) := [("App", "src")]
    let d : Disk := ⟨[(["src", "k.txt"], .file (.text [])), (["x.php"], .file (.text []))], []⟩
    ∀ e ∈ ([("App\\..\\x", "src/../x.php"), ("App\\\\x", "/x.php")] : List (Text × Text)),
      (((Locator.autoload (.ofList entries)).locate? e.1 : StateM Disk _).run d).1 = some e.2 ∧
        ¬∃ r ∈ entries, Autoload.normalizePrefix r.1 <+: Name.normalize e.1 ∧ Path.Below r.2 e.2 := by
  refine List.forall_mem_cons.2 ⟨⟨by decide +kernel, ?_⟩,
    List.forall_mem_singleton.2 ⟨by decide +kernel, ?_⟩⟩
  · rintro ⟨r, hr, -, rel, -, habs, hparent, hp⟩
    rw [List.mem_singleton.1 hr, Path.join, habs] at hp
    have hrel : "src/".toList ++ rel = "src/".toList ++ "../x.php".toList := hp.symm
    exact hparent (List.append_cancel_left hrel ▸ by decide +kernel)
  · rintro ⟨r, hr, -, rel, -, habs, -, hp⟩
    rw [List.mem_singleton.1 hr, Path.join, habs] at hp
    have hrel : "/x.php".toList = "src/".toList ++ rel := hp
    cases hrel

/-- The path of a class is a directory of one of its prefixes with a relative path below it. This path
leads upwards only where the name does, so not at all for a name that can be declared. Nothing is said
of a name with a separator right behind the prefix. -/
theorem locate_below {σ : Type} [Storage (StateM σ)] {isFile : σ → Text → Bool}
    (h : ∀ path d, (Storage.isFile path : StateM σ Bool).run d = (isFile d path, d))
    {entries : List (Text × Text)} {name p : Text} {d : σ}
    (hp : (((Locator.autoload (.ofList entries)).locate? name : StateM σ (Option Text)).run d).1 =
      some p) :
    ∃ e ∈ entries, ∃ rest, Name.normalize name = Autoload.normalizePrefix e.1 ++ rest ∧
      (¬Autoload.IsRooted rest → ∃ rel, rel ≠ [] ∧ Path.isAbsolute rel = false ∧
        (Path.parent ∈ Path.components rel ↔ Path.parent ∈ (Autoload.segments rest).dropLast) ∧
        p = Path.join e.2 rel) ∧
      (Name.isQualified (Name.normalize name) = true → Path.Below e.2 p) := by
  rw [Locator.locate?, Locator.run_findM? h] at hp
  obtain ⟨e, he, rest, hrest, rfl⟩ := Autoload.mem_candidates (List.mem_of_find?_eq_some hp)
  refine ⟨e, he, rest, hrest, fun hroot => ?_, fun hname => ?_⟩
  · exact ⟨_, Autoload.relative_ne_nil rest, Autoload.isAbsolute_relative hroot,
      Autoload.parent_mem_components rest, rfl⟩
  · have hidentifiers := Autoload.isIdentifier_of_rest hname hrest
    exact Autoload.below_of_segments (Autoload.not_isRooted_of_identifiers hidentifiers)
      (Autoload.parent_not_mem_of_identifiers hidentifiers) e.2

theorem locate_below_nested :
    let entries : List (Text × Text) := [("App", "src")]
    let d : Disk := ⟨[(["src", "Http", "Kernel.php"], .file (.text []))], []⟩
    (((Locator.autoload (.ofList entries)).locate? "\\App\\Http\\Kernel" : StateM Disk _).run d).1 =
      some "src/Http/Kernel.php" ∧ Path.Below "src" "src/Http/Kernel.php" := by
  intro entries d
  have hp : (((Locator.autoload (.ofList entries)).locate? "\\App\\Http\\Kernel" :
      StateM Disk _).run d).1 = some "src/Http/Kernel.php".toList := by decide +kernel
  obtain ⟨e, he, -, -, -, hbelow⟩ := locate_below (fun path d => (rfl :
    (Storage.isFile path : StateM Disk Bool).run d = (d.isFile path, d))) hp
  rw [List.mem_singleton.1 he] at hbelow
  exact ⟨hp, hbelow (by decide +kernel)⟩

end PhpGraft
