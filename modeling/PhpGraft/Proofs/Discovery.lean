import PhpGraft.Proofs.BatchRun
import PhpGraft.Proofs.PathNames

/-!
Where the style of a file comes from. The nearest configuration in the directory of the file or above
it counts, but the search goes by the names of the path as it is given: from an absolute path it
reaches the root, and from a relative one that has a directory it stops at the working directory.
-/
namespace PhpGraft

open Steps

namespace Disk

variable {d : Disk} {p q : Text} {l : Location}

/-! ### What paths without dots lead to -/

/-- The working directory and those it is in are there, under names that lead downwards. -/
structure Works (d : Disk) : Prop where
  names : ∀ n ∈ d.working, Path.IsName n
  directory : ∀ l, l <+: d.working → d.find? l = some .directory

/-- The location that a path without dots spells. -/
def spelled (d : Disk) (p : Text) : Location :=
  (if Path.isAbsolute p then [] else d.working) ++ Path.names p

theorem follow_append {l : Location} {ns : List Text} (hns : ∀ n ∈ ns, Path.IsName n)
    (hdir : ∀ k, k <+: ns → d.find? (l ++ k) = some .directory) (parts : List Text) :
    d.follow l (ns ++ parts) = d.follow (l ++ ns) parts := by
  induction ns generalizing l with
  | nil => simp
  | cons n ns ih =>
    simp only [List.forall_mem_cons] at hns
    have hl : d.find? l = some .directory := by simpa using hdir [] (List.nil_prefix)
    have hroot : n ≠ ['/'] := by
      intro hroot
      exact hns.1.no_slash (by simp [hroot])
    have hup : n ≠ ['.', '.'] := hns.1.ne_parent
    rw [List.cons_append, follow, hl]
    simp only [hup, hns.1.ne_dot, hroot, or_self, if_false]
    rw [ih hns.2]
    · simp
    · intro k hk
      simpa using hdir (n :: k) (by simpa using hk)

theorem resolve_eq (hd : d.Works) (hp : Path.Plain p) (hne : p ≠ []) :
    d.resolve p = d.follow [] (d.spelled p) := by
  have hroot := hd.directory [] List.nil_prefix
  have hcomponents := Path.components_eq hp
  rw [Path.components] at hcomponents
  rw [resolve, hcomponents, spelled, if_neg (by simpa using hne)]
  cases Path.isAbsolute p with
  | true => simp [follow, hroot]
  | false =>
    simp only [Bool.false_eq_true, if_false, List.nil_append]
    rw [follow_append hd.names hd.directory]
    simp

theorem endsInDots_eq_false (hp : Path.Plain p) : endsInDots p = false := by
  have hfilter : (Text.splitOn '/' p).filter (!·.isEmpty) = Path.names p := by
    rw [Path.names]
    congr 1
    funext name
    cases name <;> rfl
  simp only [endsInDots, hfilter, Bool.or_eq_false_iff, beq_eq_false_iff_ne]
  constructor
  · intro hlast
    exact hp.1 (List.mem_of_getLast? hlast)
  · intro hlast
    exact hp.2 (List.mem_of_getLast? hlast)

/-- What the file at a location holds, if all directories on the way to it are there. -/
def contentAt? (d : Disk) (l : Location) : Option Content :=
  match d.follow [] l with
  | .ok k => d.fileAt? k
  | .error _ => none

theorem isFile_eq (hd : d.Works) (hp : Path.Plain p) (hne : p ≠ [])
    (hend : endsInSeparator p = false) : d.isFile p = (d.contentAt? (d.spelled p)).isSome := by
  rw [isFile, entryAt?, locate, resolve_eq hd hp hne, contentAt?, hend, endsInDots_eq_false hp]
  cases d.follow [] (d.spelled p) with
  | error fault => rfl
  | ok k =>
    simp only [fileAt?]
    rcases hk : d.find? k with _ | (_ | _) <;> simp [hk]

theorem read_eq (hd : d.Works) (hp : Path.Plain p) (hne : p ≠ []) (hend : endsInSeparator p = false)
    {c : Content} (hc : d.contentAt? (d.spelled p) = some c) :
    d.read p = match c with
      | .text t => .ok t
      | .binary _ => .error .invalidUtf8 := by
  rw [contentAt?] at hc
  rw [read, locate, resolve_eq hd hp hne, hend, endsInDots_eq_false hp]
  cases hfollow : d.follow [] (d.spelled p) with
  | error fault => simp [hfollow] at hc
  | ok k =>
    simp only [hfollow, fileAt?] at hc
    rcases hk : d.find? k with _ | (_ | _) <;> simp [hk] at hc ⊢
    subst hc
    rename_i c
    cases c <;> rfl

end Disk

/-- An error but for how the path of a file is spelled. -/
def Error.withoutPath : Error → Error
  | .io _ fault => .io [] fault
  | .config _ fault => .config [] fault
  | e => e

namespace Disk

variable {d : Disk} {p q : Text} {l : Location} {ls : List Location}

/-- The style that the configuration in a directory says, if there is one. -/
def styleIn? (d : Disk) (l : Location) : Option (Except Error Style) :=
  (d.contentAt? (l ++ [Config.fileName])).map fun
    | .text t => Config.parse t []
    | .binary _ => .error (.io [] .invalidUtf8)

/-- The style that the first configuration in some directories says, or else the default one. -/
def nearestStyle (d : Disk) (ls : List Location) : Except Error Style :=
  (ls.findSome? d.styleIn?).getD (.ok {})

end Disk

namespace Config

variable {d : Disk} {p q : Text}

theorem exec_load (path : Text) (d : Disk) :
    (exec (load path : ExceptT Error (StateM Disk) Style) d).1 = match d.read path with
      | .error fault => .error (.io path fault)
      | .ok text => parse text path := by
  unfold load
  simp only [exec_bind, exec_lift, Disk.run_read]
  cases d.read path <;> rfl

theorem parse_withoutPath (text path : Text) :
    (parse text path).mapError Error.withoutPath = parse text [] := by
  unfold parse
  cases (Toml.read? text).bind styleOfData? with
  | none => rfl
  | some style =>
    dsimp only
    split <;> rfl

theorem isName_fileName : Path.IsName fileName := by
  constructor <;> decide

theorem isAbsolute_fileName : Path.isAbsolute fileName = false := by decide

theorem names_join_fileName (q : Text) :
    Path.names (Path.join q fileName) = Path.names q ++ [fileName] := by
  rw [Path.names_join isAbsolute_fileName, isName_fileName.names_eq]

theorem plain_join_fileName (hq : Path.Plain q) : Path.Plain (Path.join q fileName) := by
  apply Path.plain_of_forall
  intro n hn
  rw [names_join_fileName, List.mem_append, List.mem_singleton] at hn
  rcases hn with hn | rfl
  · exact hq.isName hn
  · exact isName_fileName

theorem spelled_join_fileName (d : Disk) (q : Text) :
    d.spelled (Path.join q fileName) = d.spelled q ++ [fileName] := by
  simp [Disk.spelled, Path.isAbsolute_join isAbsolute_fileName, names_join_fileName]

theorem endsInSeparator_join_fileName (q : Text) :
    Disk.endsInSeparator (Path.join q fileName) = false := by
  have hlast : fileName.getLast? = some 'l' := by decide
  have hjoin : ∃ front, Path.join q fileName = front ++ fileName := by
    rw [Path.join]
    split
    · exact ⟨[], rfl⟩
    · split
      · exact ⟨q, rfl⟩
      · exact ⟨q ++ ['/'], by simp⟩
  obtain ⟨front, hfront⟩ := hjoin
  rw [Disk.endsInSeparator, hfront, List.getLast?_append, hlast]
  rfl

theorem isFile_join_fileName (hd : d.Works) (hq : Path.Plain q) :
    d.isFile (Path.join q fileName) = (d.styleIn? (d.spelled q)).isSome := by
  have hne : Path.join q fileName ≠ [] := by
    intro hnil
    simpa [hnil] using names_join_fileName q
  rw [Disk.isFile_eq hd (plain_join_fileName hq) hne (endsInSeparator_join_fileName q),
    spelled_join_fileName, Disk.styleIn?, Option.isSome_map]

theorem load_join_fileName (hd : d.Works) (hq : Path.Plain q) {r : Except Error Style}
    (h : d.styleIn? (d.spelled q) = some r) :
    (exec (load (Path.join q fileName) : ExceptT Error (StateM Disk) Style) d).1.mapError
      Error.withoutPath = r := by
  have hne : Path.join q fileName ≠ [] := by
    intro hnil
    simpa [hnil] using names_join_fileName q
  rw [Disk.styleIn?, ← spelled_join_fileName] at h
  obtain ⟨c, hc, rfl⟩ := Option.map_eq_some_iff.1 h
  rw [exec_load, Disk.read_eq hd (plain_join_fileName hq) hne (endsInSeparator_join_fileName q) hc]
  cases c with
  | text t => exact parse_withoutPath t _
  | binary bytes => rfl

/-- The first configuration in some directories is the one that is found by their paths. -/
theorem load_find? (hd : d.Works) {qs : List Text} (hqs : ∀ q ∈ qs, Path.Plain q) :
    (match (qs.map (Path.join · fileName)).find? d.isFile with
      | some path => (exec (load path : ExceptT Error (StateM Disk) Style) d).1
      | none => .ok {}).mapError Error.withoutPath = d.nearestStyle (qs.map d.spelled) := by
  induction qs with
  | nil => rfl
  | cons q qs ih =>
    simp only [List.forall_mem_cons] at hqs
    have hfile := isFile_join_fileName hd hqs.1
    rw [Disk.nearestStyle, List.map_cons, List.map_cons, List.find?_cons, List.findSome?_cons, hfile]
    cases hstyle : d.styleIn? (d.spelled q) with
    | some r => simpa using load_join_fileName hd hqs.1 hstyle
    | none => simpa [Disk.nearestStyle] using ih hqs.2

/-- The search goes from a directory upwards along the names of its path. -/
theorem loadNearest_eq (hd : d.Works) (hq : Path.Plain q) :
    (exec (loadNearest q : ExceptT Error (StateM Disk) Style) d).1.mapError Error.withoutPath =
      d.nearestStyle ((Path.ancestors q).map d.spelled) := by
  have hplain : ∀ r ∈ Path.ancestors q, Path.Plain r := by
    intro r hr
    have hnames := List.mem_map_of_mem (f := Path.names) hr
    rw [Path.map_names_ancestors hq, List.mem_reverse, List.mem_inits] at hnames
    exact hq.of_prefix hnames
  rw [← load_find? hd hplain]
  unfold loadNearest discover?
  simp only [exec_bind, exec_lift, run_findFile?]
  cases ((Path.ancestors q).map (Path.join · fileName)).find? d.isFile <;> rfl

theorem map_spelled_ancestors (d : Disk) (hq : Path.Plain q) :
    (Path.ancestors q).map d.spelled = (Path.names q).inits.reverse.map
      ((if Path.isAbsolute q then [] else d.working) ++ ·) := by
  rw [← Path.map_names_ancestors hq, List.map_map]
  apply List.map_congr_left
  intro r hr
  simp [Disk.spelled, Path.isAbsolute_ancestors hq hr]

end Config

namespace Disk

variable {d : Disk} {p : Text} {l : Location}

/-! ### The working directory -/

theorem names_join_of_isName {ns : List Text} (h : ∀ n ∈ ns, Path.IsName n) :
    Path.names (Text.join ['/'] ns) = ns := by
  induction ns with
  | nil => rfl
  | cons n ns ih =>
    simp only [List.forall_mem_cons] at h
    by_cases hns : ns = []
    · subst hns
      simpa [Text.join_cons] using h.1.names_eq
    · rw [Path.join_cons_of_ne_nil hns, Path.names_append, h.1.names_eq, ih h.2]
      rfl

theorem names_path (h : ∀ n ∈ l, Path.IsName n) : Path.names (path l) = l := by
  rw [path, Path.names_root, names_join_of_isName h]

theorem isAbsolute_path (l : Location) : Path.isAbsolute (path l) = true := rfl

theorem plain_path (h : ∀ n ∈ l, Path.IsName n) : Path.Plain (path l) := by
  apply Path.plain_of_forall
  rwa [names_path h]

/-- A directory and those it is in, up to the root. -/
def upwards (l : Location) : List Location := l.inits.reverse

/-- A search that goes on in more directories comes to the same unless it finds only in these. -/
theorem nearestStyle_eq_append_iff {ks ls : List Location} :
    d.nearestStyle ks = d.nearestStyle (ks ++ ls) ↔
      (∃ l ∈ ks, (d.styleIn? l).isSome = true) ∨ d.nearestStyle ls = .ok {} := by
  simp only [nearestStyle, List.findSome?_append]
  cases hks : ks.findSome? d.styleIn? with
  | none =>
    have hnone : ¬∃ l ∈ ks, (d.styleIn? l).isSome = true := by
      simpa using hks
    simp only [hnone, Option.none_or, Option.getD_none, false_or]
    exact eq_comm
  | some r =>
    obtain ⟨l, hl, hr⟩ := List.exists_of_findSome?_eq_some hks
    have hsome : ∃ l ∈ ks, (d.styleIn? l).isSome = true := ⟨l, hl, by simp [hr]⟩
    simp [hsome]

theorem upwards_eq_cons (l : Location) : upwards l = l :: (upwards l).tail := by
  rcases List.eq_nil_or_concat' l with rfl | ⟨front, last, rfl⟩
  · rfl
  · simp [upwards, List.inits_append]

theorem upwards_append (k l : Location) :
    upwards (k ++ l) = (upwards l).map (k ++ ·) ++ (upwards k).tail := by
  have hl : upwards l = l.inits.tail.reverse ++ [[]] := by cases l <;> simp [upwards]
  have hk := upwards_eq_cons k
  calc upwards (k ++ l) = (l.inits.tail.map (k ++ ·)).reverse ++ upwards k := by
        simp [upwards, List.inits_append]
    _ = (l.inits.tail.map (k ++ ·)).reverse ++ [k] ++ (upwards k).tail := by
        rw [hk]
        simp
    _ = (upwards l).map (k ++ ·) ++ (upwards k).tail := by
        simp [hl]

/-! ### The style for a file -/

/-- The style for a file, or what is wrong with its configuration. -/
def styleFor (d : Disk) (p : Text) : Except Error Style :=
  (exec (Config.styleFor none p) d).1.mapError Error.withoutPath

/-- The search starts in the directory of the file, if its path has one. -/
theorem styleFor_of_parent {q : Text} (hd : d.Works) (hp : Path.Plain p) (hne : Path.names p ≠ [])
    (hq : Path.parent? p = some q) (hqne : q ≠ []) :
    d.styleFor p = d.nearestStyle ((upwards (Path.names p).dropLast).map
      ((if Path.isAbsolute p then [] else d.working) ++ ·)) := by
  obtain ⟨r, hr, hnames, habs⟩ := Path.exists_parent hp hne
  obtain rfl : q = r := Option.some.inj (hq.symm.trans hr)
  have hplain : Path.Plain q := hp.of_prefix (hnames ▸ List.dropLast_prefix _)
  have hfilter : (Path.parent? p).filter (!·.isEmpty) = some q := by
    simp [hq, hqne]
  rw [styleFor, Config.styleFor, hfilter]
  dsimp only
  rw [Config.loadNearest_eq hd hplain, Config.map_spelled_ancestors d hplain, habs, hnames, upwards]

/-- The search starts in the working directory if the path names no other. -/
theorem styleFor_of_bare (hd : d.Works) (hq : (Path.parent? p).filter (!·.isEmpty) = none) :
    d.styleFor p = d.nearestStyle (upwards d.working) := by
  have hplain := plain_path hd.names
  have hstyle : d.styleFor p = (exec (Config.loadNearest (path d.working)) d).1.mapError
      Error.withoutPath := by
    rw [styleFor, Config.styleFor, hq]
    rfl
  rw [hstyle, Config.loadNearest_eq hd hplain, Config.map_spelled_ancestors d hplain,
    names_path hd.names, isAbsolute_path]
  simp [upwards]

theorem styleFor_bare (hd : d.Works) (hp : Path.Plain p) (habs : Path.isAbsolute p = false)
    (hdir : (Path.names p).dropLast = []) : d.styleFor p = d.nearestStyle (upwards d.working) := by
  apply styleFor_of_bare hd
  by_cases hne : Path.names p = []
  · simp [Path.parent?_eq_none hp hne]
  · obtain ⟨q, hq, hqnames, hqabs⟩ := Path.exists_parent hp hne
    have hnil := Path.eq_nil_of_names (hqabs.trans habs) (hqnames.trans hdir)
    simp [hq, hnil]

/-- From a relative path with a directory the search ends in the working directory. -/
theorem styleFor_below (hd : d.Works) (hp : Path.Plain p) (habs : Path.isAbsolute p = false)
    (hdir : (Path.names p).dropLast ≠ []) : d.styleFor p =
      d.nearestStyle ((upwards (Path.names p).dropLast).map (d.working ++ ·)) := by
  have hne : Path.names p ≠ [] := by
    intro hnil
    simp [hnil] at hdir
  obtain ⟨q, hq, hqnames, -⟩ := Path.exists_parent hp hne
  have hqne : q ≠ [] := by
    rintro rfl
    exact hdir hqnames.symm
  simpa [habs] using styleFor_of_parent hd hp hne hq hqne

/-- From an absolute path the search reaches the root. -/
theorem styleFor_join (hd : d.Works) (hp : Path.Plain p) (habs : Path.isAbsolute p = false) :
    d.styleFor (Path.join (path d.working) p) =
      d.nearestStyle (upwards (d.working ++ Path.names p).dropLast) := by
  have hnames : Path.names (Path.join (path d.working) p) = d.working ++ Path.names p := by
    rw [Path.names_join habs, names_path hd.names]
  have hplain : Path.Plain (Path.join (path d.working) p) := by
    apply Path.plain_of_forall
    intro n hn
    rw [hnames, List.mem_append] at hn
    exact hn.elim (hd.names n) hp.isName
  have hjoin : Path.isAbsolute (Path.join (path d.working) p) = true := by
    rw [Path.isAbsolute_join habs, isAbsolute_path]
  by_cases hne : d.working ++ Path.names p = []
  · have hparent := Path.parent?_eq_none hplain (hnames.trans hne)
    rw [styleFor_of_bare hd (by simp [hparent]), hne, (List.append_eq_nil_iff.1 hne).1]
    rfl
  · rw [← hnames] at hne
    obtain ⟨q, hq, -, hqabs⟩ := Path.exists_parent hplain hne
    have hqne : q ≠ [] := by
      rintro rfl
      exact absurd (hqabs.trans hjoin) (by decide)
    rw [styleFor_of_parent hd hplain hne hq hqne, hjoin, hnames]
    simp

/-- The style for a file at a relative path, and for the same file at its absolute path. -/
structure Discovers (d : Disk) (p : Text) : Prop where
  /-- From an absolute path the nearest configuration up to the root counts. -/
  absolute : d.styleFor (Path.join (path d.working) p) =
    d.nearestStyle (upwards (d.working ++ Path.names p).dropLast)
  /-- So it does for a name in the working directory. -/
  bare : (Path.names p).dropLast = [] → d.styleFor p = d.nearestStyle (upwards d.working)
  /-- From a relative path with a directory the search ends in the working directory. -/
  below : (Path.names p).dropLast ≠ [] → d.styleFor p =
    d.nearestStyle ((upwards (Path.names p).dropLast).map (d.working ++ ·))
  agree : p ≠ [] → (d.styleFor p = d.styleFor (Path.join (path d.working) p) ↔
    (Path.names p).dropLast = [] ∨
      (∃ l, l <+: (Path.names p).dropLast ∧ (d.styleIn? (d.working ++ l)).isSome = true) ∨
      d.nearestStyle (upwards d.working).tail = .ok {})

/-- A relative path and the absolute one of the same file lead to the same style unless only the
absolute one reaches a configuration, which is one above the working directory. -/
theorem discovers_relative (hd : d.Works) (hp : Path.Plain p) (habs : Path.isAbsolute p = false) :
    Discovers d p := by
  have habsolute := styleFor_join hd hp habs
  refine ⟨habsolute, styleFor_bare hd hp habs, styleFor_below hd hp habs, ?_⟩
  intro hne
  have hnames : Path.names p ≠ [] := by
    intro hnil
    exact hne (Path.eq_nil_of_names habs hnil)
  rw [List.dropLast_append_of_ne_nil hnames] at habsolute
  by_cases hdir : (Path.names p).dropLast = []
  · simp [hdir, styleFor_bare hd hp habs hdir, habsolute]
  · -- upwards from the file the absolute path leads on where the relative one ends
    rw [styleFor_below hd hp habs hdir, habsolute, upwards_append, nearestStyle_eq_append_iff]
    simp [hdir, upwards]

/-- A disk with a configuration above its working directory. -/
def configured : Disk :=
  ⟨[(["p".toList, Config.fileName], .file (.text "[style]\nfinal_newline = true\n"))],
    ["p".toList, "app".toList]⟩

theorem works_configured : configured.Works where
  names := by
    intro n hn
    have : n = ['p'] ∨ n = ['a', 'p', 'p'] := by simpa [configured] using hn
    rcases this with rfl | rfl <;> constructor <;> decide
  directory := by
    have hdir : ∀ l ∈ configured.working.inits, configured.find? l = some .directory := by decide
    simpa only [List.mem_inits] using hdir

/-- A file in a directory of the working directory. -/
theorem discovers_relative_configured :
    configured.Works ∧ Path.Plain "src//A.php" ∧ Path.isAbsolute "src//A.php" = false ∧
      Discovers configured "src//A.php" := by
  have hplain : Path.Plain "src//A.php" := by
    constructor <;> decide
  exact ⟨works_configured, hplain, rfl, discovers_relative works_configured hplain rfl⟩

/-- The configuration above the working directory counts for the absolute path alone. -/
theorem styleFor_differs :
    (exec (Config.styleFor none "src/A.php") configured).1 = .ok {} ∧
      (exec (Config.styleFor none (Path.join (path configured.working) "src/A.php")) configured).1 =
        .ok { finalNewline := true } := by
  constructor <;> decide +kernel

end Disk
end PhpGraft
