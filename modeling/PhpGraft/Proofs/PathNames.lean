import Mathlib.Data.List.Infix
import PhpGraft.Proofs.Containment

/-!
Paths by the names between their slashes. The parent of a path without dots has its names but for the
last one, so its ancestors have the names that come in front, the longest first.
-/
namespace PhpGraft.Path

variable {p q n : Text}

/-- The names between the slashes of a path. -/
def names (p : Text) : List Text := (Text.splitOn '/' p).filter (· ≠ [])

/-- A name that is followed downwards. -/
structure IsName (n : Text) : Prop where
  ne_nil : n ≠ []
  no_slash : '/' ∉ n
  ne_dot : n ≠ ['.']
  ne_parent : n ≠ parent

/-- No name of a path is a dot or two. -/
def Plain (p : Text) : Prop := ['.'] ∉ names p ∧ parent ∉ names p

theorem Plain.isName (h : Plain p) (hn : n ∈ names p) : IsName n where
  ne_nil := by simpa using (List.mem_filter.1 hn).2
  no_slash := Text.not_mem_of_mem_splitOn (List.mem_filter.1 hn).1
  ne_dot := by
    rintro rfl
    exact h.1 hn
  ne_parent := by
    rintro rfl
    exact h.2 hn

theorem plain_of_forall (h : ∀ n ∈ names p, IsName n) : Plain p := by
  constructor
  · intro hdot
    exact (h _ hdot).ne_dot rfl
  · intro hparent
    exact (h _ hparent).ne_parent rfl

@[simp] theorem names_nil : names [] = [] := rfl

@[simp] theorem names_append (p q : Text) : names (p ++ '/' :: q) = names p ++ names q := by
  simp [names, Text.splitOn_append]

@[simp] theorem names_root (p : Text) : names ('/' :: p) = names p := by
  simpa using names_append [] p

theorem IsName.names_eq (h : IsName n) : names n = [n] := by
  simp [names, Text.splitOn_of_not_mem h.no_slash, h.ne_nil]

theorem names_join (h : isAbsolute q = false) : names (join p q) = names p ++ names q := by
  simp only [join, h, Bool.false_or]
  split
  · simp_all
  · split
    next hlast =>
      obtain ⟨front, rfl⟩ := List.getLast?_eq_some_iff.1 (beq_iff_eq.1 hlast)
      simp
    next => simp

theorem isAbsolute_join (h : isAbsolute q = false) : isAbsolute (join p q) = isAbsolute p := by
  cases p with
  | nil => simpa [join, isAbsolute] using h
  | cons c p =>
    simp only [join, h]
    split
    · simp_all
    · split <;> rfl

/-- A path without names in front of which no slash stands is empty. -/
theorem eq_nil_of_names (habs : isAbsolute p = false) (h : names p = []) : p = [] := by
  cases p with
  | nil => rfl
  | cons c p =>
    have hc : c ≠ '/' := by simpa [isAbsolute] using habs
    have hsplit : ∃ w ws, Text.splitOn '/' (c :: p) = (c :: w) :: ws := by
      cases hp : Text.splitOn '/' p with
      | nil => exact absurd hp (Text.splitOn_ne_nil _ _)
      | cons w ws => exact ⟨w, ws, by simp [Text.splitOn, hc, hp]⟩
    obtain ⟨w, ws, hsplit⟩ := hsplit
    simp [names, hsplit] at h

/-! ### Parts -/

theorem map_partsFrom {ps : List Text} (h : ['.'] ∉ ps) (start : Nat) :
    (partsFrom start ps).map Prod.fst = ps.filter (· ≠ []) := by
  induction ps generalizing start with
  | nil => simp [partsFrom]
  | cons p ps ih =>
    simp only [List.mem_cons, not_or] at h
    have hp : ¬(p = ['.'] ∧ 0 < start) := fun hdot => h.1 hdot.1.symm
    rw [partsFrom]
    by_cases hnil : p = []
    · simp [hnil, ih h.2]
    · simp [hnil, hp, ih h.2]

theorem join_cons_of_ne_nil {ps : List Text} (h : ps ≠ []) (p : Text) :
    Text.join ['/'] (p :: ps) = p ++ '/' :: Text.join ['/'] ps := by
  rw [Text.join_cons, Text.flatMap_join h]
  rfl

/-- Up to the end of a part a path has the names up to it. -/
theorem names_take_of_partsFrom {ps : List Text} {start stop : Nat} {part : Text}
    {front behind : List (Text × Nat)} (h : ['.'] ∉ ps) (hslash : ∀ p ∈ ps, '/' ∉ p)
    (hparts : partsFrom start ps = front ++ (part, stop) :: behind) :
    ∃ size, stop = start + size ∧ 0 < size ∧
      names ((Text.join ['/'] ps).take size) = front.map Prod.fst ++ [part] := by
  induction ps generalizing start front with
  | nil => simp [partsFrom] at hparts
  | cons p ps ih =>
    simp only [List.mem_cons, not_or] at h
    simp only [List.forall_mem_cons] at hslash
    have hp : ¬(p = ['.'] ∧ 0 < start) := fun hdot => h.1 hdot.1.symm
    have hbehind {start : Nat} {front : List (Text × Nat)}
        (hparts : partsFrom start ps = front ++ (part, stop) :: behind) : ps ≠ [] := by
      rintro rfl
      simp [partsFrom] at hparts
    rw [partsFrom] at hparts
    by_cases hnil : p = []
    · -- an empty part is passed over: it moves the ends, and adds no name
      simp only [hnil, true_or, if_true, List.length_nil] at hparts
      obtain ⟨size, rfl, hsize, hnames⟩ := ih h.2 hslash.2 hparts
      refine ⟨size + 1, by omega, by omega, ?_⟩
      simpa [join_cons_of_ne_nil (hbehind hparts), hnil] using hnames
    · simp only [hnil, hp, or_self, if_false] at hparts
      cases front with
      | nil =>
        simp only [List.nil_append, List.cons.injEq, Prod.mk.injEq] at hparts
        obtain ⟨⟨rfl, rfl⟩, -⟩ := hparts
        refine ⟨p.length, rfl, by simp [List.length_pos_iff, hnil], ?_⟩
        simp [Text.join_cons, names, Text.splitOn_of_not_mem hslash.1, hnil]
      | cons first front =>
        simp only [List.cons_append, List.cons.injEq] at hparts
        obtain ⟨rfl, hparts⟩ := hparts
        obtain ⟨size, rfl, hsize, hnames⟩ := ih h.2 hslash.2 hparts
        refine ⟨p.length + 1 + size, by omega, by omega, ?_⟩
        rw [join_cons_of_ne_nil (hbehind hparts), Nat.add_assoc, List.take_length_add_append,
          Nat.add_comm 1, List.take_succ_cons, names_append, hnames]
        simp [names, Text.splitOn_of_not_mem hslash.1, hnil]

theorem Plain.dot_not_mem (h : Plain p) : ['.'] ∉ Text.splitOn '/' p := by
  intro hdot
  exact h.1 (List.mem_filter.2 ⟨hdot, by simp⟩)

theorem parts_relative (h : isAbsolute p = false) : parts p = partsFrom 0 (Text.splitOn '/' p) := by
  rw [parts, if_neg (by simp [h])]

theorem parts_absolute (t : Text) :
    parts ('/' :: t) = (['/'], 1) :: partsFrom 1 (Text.splitOn '/' t) := by
  simp [parts, isAbsolute, Text.splitOn_eq]

theorem exists_of_isAbsolute (h : isAbsolute p = true) : ∃ t, p = '/' :: t :=
  List.head?_eq_some_iff.1 (beq_iff_eq.1 h)

/-- What the parts of a path without dots say. -/
theorem components_eq (h : Plain p) :
    components p = (if isAbsolute p then [['/']] else []) ++ names p := by
  cases habs : isAbsolute p with
  | false => simp [components, parts_relative habs, map_partsFrom h.dot_not_mem, names]
  | true =>
    obtain ⟨t, rfl⟩ := exists_of_isAbsolute habs
    have ht : Plain t := by simpa [Plain] using h
    rw [names_root]
    simp [components, parts_absolute, map_partsFrom ht.dot_not_mem, names]

/-! ### Parents -/

theorem parent?_eq_some {front : List (Text × Nat)} {part : Text} {stop : Nat} {last : Text × Nat}
    (h : parts p = front ++ [(part, stop), last]) : parent? p = some (p.take stop) := by
  simp [parent?, h]

theorem parent?_eq_none (h : Plain p) (hp : names p = []) : parent? p = none := by
  have hcomponents := components_eq h
  rw [hp, List.append_nil, components] at hcomponents
  split at hcomponents
  · obtain ⟨⟨part, stop⟩, hparts, rfl⟩ := List.map_eq_singleton_iff.1 hcomponents
    simp [parent?, hparts]
  · simp [parent?, List.map_eq_nil_iff.1 hcomponents]

/-- The parts of a path that has names end in a last one. -/
theorem exists_last_part (h : Plain p) (hp : names p ≠ []) (start : Nat) :
    ∃ front last, partsFrom start (Text.splitOn '/' p) = front ++ [last] ∧
      front.map Prod.fst = (names p).dropLast ∧ last.1 ∈ names p := by
  have hnames := map_partsFrom h.dot_not_mem start
  change _ = names p at hnames
  rcases List.eq_nil_or_concat' (partsFrom start (Text.splitOn '/' p)) with hnil | ⟨front, last, heq⟩
  · rw [hnil] at hnames
    exact absurd hnames.symm hp
  · refine ⟨front, last, heq, ?_, ?_⟩
    · simp [← hnames, heq]
    · simp [← hnames, heq]

/-- The parent has the names of a path but for the last. -/
theorem exists_parent (h : Plain p) (hp : names p ≠ []) :
    ∃ q, parent? p = some q ∧ names q = (names p).dropLast ∧ isAbsolute q = isAbsolute p := by
  cases habs : isAbsolute p with
  | false =>
    have hparts := parts_relative habs
    obtain ⟨front, last, heq, hfront, hlast⟩ := exists_last_part h hp 0
    rw [heq] at hparts
    rcases List.eq_nil_or_concat' front with rfl | ⟨front, ⟨part, stop⟩, rfl⟩
    · refine ⟨[], ?_, by simpa using hfront, rfl⟩
      have hroot : last.1 ≠ ['/'] := by
        intro hroot
        exact (h.isName hlast).no_slash (by simp [hroot])
      simp [parent?, hparts, hroot]
    · rw [List.append_assoc, List.singleton_append] at hparts heq
      obtain ⟨size, rfl, hsize, hnames⟩ := names_take_of_partsFrom h.dot_not_mem
        (fun _ hp => Text.not_mem_of_mem_splitOn hp) heq
      rw [Text.join_splitOn] at hnames
      refine ⟨_, parent?_eq_some hparts, ?_, ?_⟩
      · simpa [← hfront] using hnames
      · rw [← habs, isAbsolute, isAbsolute, List.head?_take, if_neg (by omega)]
  | true =>
    obtain ⟨t, rfl⟩ := exists_of_isAbsolute habs
    rw [names_root] at hp ⊢
    have ht : Plain t := by simpa [Plain] using h
    have hparts := parts_absolute t
    obtain ⟨front, last, heq, hfront, -⟩ := exists_last_part ht hp 1
    rw [heq] at hparts
    rcases List.eq_nil_or_concat' front with rfl | ⟨front, ⟨part, stop⟩, rfl⟩
    · refine ⟨['/'], ?_, by simpa using hfront, rfl⟩
      simp [parent?, hparts]
    · rw [List.append_assoc, List.singleton_append] at heq
      rw [List.append_assoc, List.singleton_append, ← List.cons_append] at hparts
      obtain ⟨size, rfl, hsize, hnames⟩ := names_take_of_partsFrom ht.dot_not_mem
        (fun _ hp => Text.not_mem_of_mem_splitOn hp) heq
      rw [Text.join_splitOn] at hnames
      refine ⟨_, parent?_eq_some hparts, ?_, ?_⟩
      · rw [Nat.add_comm, List.take_succ_cons, names_root, hnames]
        simp [← hfront]
      · rw [Nat.add_comm, List.take_succ_cons]
        rfl

/-! ### Ancestors -/

theorem Plain.of_prefix (h : Plain p) (hq : names q <+: names p) : Plain q :=
  plain_of_forall fun _ hn => h.isName (hq.subset hn)

/-- The ancestors of a path have its names from the front, the longest first. -/
theorem map_names_ancestorsFrom {fuel : Nat} (h : Plain p) (hfuel : (names p).length ≤ fuel) :
    (ancestorsFrom fuel p).map names = (names p).inits.reverse := by
  induction fuel generalizing p with
  | zero =>
    have hp : names p = [] := List.length_eq_zero_iff.1 (Nat.le_zero.1 hfuel)
    simp [ancestorsFrom, hp]
  | succ fuel ih =>
    rw [ancestorsFrom]
    by_cases hp : names p = []
    · simp [parent?_eq_none h hp, hp]
    · obtain ⟨q, hq, hnames, -⟩ := exists_parent h hp
      have hlast : names p = names q ++ [(names p).getLast hp] := by
        rw [hnames, List.dropLast_append_getLast]
      have hplain : Plain q := h.of_prefix ⟨_, hlast.symm⟩
      have hlength : (names q).length ≤ fuel := by
        have := congrArg List.length hlast
        simp only [List.length_append, List.length_singleton] at this
        omega
      rw [hq]
      simp only [List.map_cons, ih hplain hlength]
      rw [hlast]
      simp [List.inits_append]

/-- The ancestors of a path start where it does. -/
theorem isAbsolute_ancestorsFrom {fuel : Nat} (h : Plain p) (hq : q ∈ ancestorsFrom fuel p) :
    isAbsolute q = isAbsolute p := by
  induction fuel generalizing p with
  | zero =>
    rw [List.mem_singleton.1 hq]
  | succ fuel ih =>
    rw [ancestorsFrom] at hq
    by_cases hp : names p = []
    · rw [parent?_eq_none h hp] at hq
      rw [List.mem_singleton.1 hq]
    · obtain ⟨r, hr, hnames, habs⟩ := exists_parent h hp
      have hplain : Plain r := h.of_prefix (hnames ▸ List.dropLast_prefix _)
      rw [hr] at hq
      rcases List.mem_cons.1 hq with rfl | hq
      · rfl
      · rw [ih hplain hq, habs]

/-- A path has no more names than the search for its ancestors has steps. -/
theorem length_names_le (p : Text) : (names p).length ≤ p.length + 1 := by
  have hsplit : (Text.splitOn '/' p).length ≤ p.length + 1 := by
    induction p with
    | nil => simp [Text.splitOn]
    | cons c p ih =>
      rw [Text.splitOn]
      cases hp : Text.splitOn '/' p with
      | nil => exact absurd hp (Text.splitOn_ne_nil _ _)
      | cons w ws => grind
  exact (List.length_filter_le _ _).trans hsplit

theorem map_names_ancestors (h : Plain p) :
    (ancestors p).map names = (names p).inits.reverse :=
  map_names_ancestorsFrom h (length_names_le p)

theorem isAbsolute_ancestors (h : Plain p) (hq : q ∈ ancestors p) : isAbsolute q = isAbsolute p :=
  isAbsolute_ancestorsFrom h hq

end PhpGraft.Path
