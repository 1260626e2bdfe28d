import Mathlib.Data.List.Flatten
import PhpGraft.Proofs.Declarations

/-!
A tree as a table. Each node is a row under its number, with its children by their numbers. In a tree
that can be reached no number is given twice, new nodes get numbers that none had before, and a
change of one node changes no other row than its own and those below it.
-/
namespace PhpGraft

/-- A node with its children by their numbers. -/
structure Row where
  id : Nat
  origin : Origin
  decl : Decl
  children : List Nat
  deriving DecidableEq, Repr

namespace Node

variable {root n m c : Node} {path : List Nat} {f : Node → Node} {r : Row} {i : Nat}

def row (n : Node) : Row := ⟨n.id, n.origin, n.decl, n.children.map Node.id⟩

def table (n : Node) : List Row := n.subnodes.map row

/-- What stands under a number. -/
def row? (root : Node) (i : Nat) : Option Row := (root.find? i).map row

theorem subnodesList_eq (ns : List Node) : subnodesList ns = ns.flatMap subnodes := by
  induction ns with
  | nil => rfl
  | cons n ns ih => rw [subnodesList, ih, List.flatMap_cons]

theorem table_eq (n : Node) : n.table = n.row :: n.children.flatMap table := by
  rw [table, subnodes_eq, subnodesList_eq, List.map_cons, List.map_flatMap]
  rfl

theorem distinct_iff {n : Node} : n.Distinct ↔ (n.table.map Row.id).Nodup := by
  rw [table, List.map_map]
  rfl

theorem row_mem_table (h : m ∈ n.subnodes) : m.row ∈ n.table := List.mem_map_of_mem h

theorem table_sublist (h : m ∈ n.subnodes) : m.table.Sublist n.table :=
  (subnodes_sublist n h).map row

theorem table_leaf (h : n.children = []) : n.table = [n.row] := by
  rw [table_eq, h, List.flatMap_nil]

theorem flatMap_table_leaves {ns : List Node} (h : ∀ n ∈ ns, n.children = []) :
    ns.flatMap table = ns.map row := by
  induction ns with
  | nil => rfl
  | cons n ns ih =>
    obtain ⟨hn, hns⟩ := List.forall_mem_cons.1 h
    rw [List.flatMap_cons, table_leaf hn, ih hns, List.map_cons, List.singleton_append]

theorem Distinct.row?_iff (h : root.Distinct) : root.row? i = some r ↔ r ∈ root.table ∧ r.id = i := by
  constructor
  · intro hr
    obtain ⟨m, hm, rfl⟩ := Option.map_eq_some_iff.1 hr
    rw [find?_eq] at hm
    have hid : m.id = i := by simpa using List.find?_some hm
    exact ⟨row_mem_table (List.mem_of_find?_eq_some hm), hid⟩
  · rintro ⟨hr, rfl⟩
    obtain ⟨m, hm, rfl⟩ := List.mem_map.1 hr
    rw [row?, show m.row.id = m.id from rfl, h.find? hm]
    rfl

/-- Trees with the same rows of one number have the same row there. -/
theorem row?_congr (hroot : root.Distinct) (hn : n.Distinct)
    (h : ∀ r : Row, r.id = i → (r ∈ root.table ↔ r ∈ n.table)) : root.row? i = n.row? i := by
  apply Option.ext
  intro r
  rw [hroot.row?_iff, hn.row?_iff]
  constructor
  · rintro ⟨hr, hi⟩
    exact ⟨(h r hi).1 hr, hi⟩
  · rintro ⟨hr, hi⟩
    exact ⟨(h r hi).2 hr, hi⟩

theorem row_modifyAt_child {i : Nat} (hc : root.children[i]? = some c) (hid : (f c).id = c.id) :
    ({ root with children := root.children.modify i f } : Node).row = root.row := by
  obtain ⟨before, behind, hsplit, rfl⟩ := split_of_getElem? hc
  simp only [row, hsplit, modify_append_cons, List.map_append, List.map_cons, hid]

/-- A change of the node at a path changes a run of rows, those of the node and of all below it. -/
theorem table_modifyAt (hn : root.at? path = some n) (hid : (f n).id = n.id) :
    ∃ front back, root.table = front ++ (n.table ++ back) ∧
      (root.modifyAt f path).table = front ++ ((f n).table ++ back) := by
  induction path generalizing root with
  | nil =>
    cases hn
    exact ⟨[], [], by simp, by simp [modifyAt]⟩
  | cons i path ih =>
    obtain ⟨c, hc, hcn⟩ := Option.bind_eq_some_iff.1 hn
    obtain ⟨front, back, hold, hnew⟩ := ih hcn
    have hcid : (c.modifyAt f path).id = c.id := by
      cases path with
      | nil =>
        cases hcn
        exact hid
      | cons => rfl
    have hrow := row_modifyAt_child hc hcid
    obtain ⟨before, behind, hsplit, rfl⟩ := split_of_getElem? hc
    refine ⟨root.row :: before.flatMap table ++ front, back ++ behind.flatMap table, ?_, ?_⟩
    · rw [table_eq, hsplit, List.flatMap_append, List.flatMap_cons, hold]
      simp only [List.cons_append, List.append_assoc]
    · rw [table_eq, modifyAt, hrow]
      simp only [hsplit, modify_append_cons, List.flatMap_append, List.flatMap_cons, hnew,
        List.cons_append, List.append_assoc]

end Node

/-- In the place of some numbers others may stand, as long as each of these is one of them or stands
nowhere else. -/
theorem nodup_exchange {front old new back : List Nat} (h : (front ++ (old ++ back)).Nodup)
    (hnew : new.Nodup) (hids : ∀ i ∈ new, i ∈ old ∨ i ∉ front ++ back) :
    (front ++ (new ++ back)).Nodup := by
  obtain ⟨hfront, hrest, hapart⟩ := List.nodup_append.1 h
  obtain ⟨-, hback, hapart'⟩ := List.nodup_append.1 hrest
  refine List.nodup_append.2 ⟨hfront, List.nodup_append.2 ⟨hnew, hback, ?_⟩, ?_⟩
  · rintro i hi _ hb rfl
    rcases hids i hi with hold | hnot
    · exact hapart' i hold i hb rfl
    · exact hnot (List.mem_append_right _ hb)
  · rintro i ha _ hi rfl
    rcases List.mem_append.1 hi with hi | hi
    · rcases hids i hi with hold | hnot
      · exact hapart i ha i (List.mem_append_left _ hold) rfl
      · exact hnot (List.mem_append_left _ ha)
    · exact hapart i ha i (List.mem_append_right _ hi) rfl

/-- A tree whose nodes have numbers of their own, all below the next one, and children only where
there can be some. -/
structure Tree.Sound (t : Tree) : Prop where
  distinct : t.root.Distinct
  fresh : ∀ r ∈ t.root.table, r.id < t.next
  leaf : ∀ r ∈ t.root.table, r.decl.isContainer = false → r.children = []

namespace Tree.Sound

variable {t : Tree} {n : Node} {path : List Nat} {f : Node → Node} {next : Nat}

theorem children_eq_nil (h : t.Sound) (hn : n ∈ t.root.subnodes) (hd : n.decl.isContainer = false) :
    n.children = [] := List.map_eq_nil_iff.1 (h.leaf n.row (Node.row_mem_table hn) hd)

/-- One node changes, and numbers that none had before are given to new nodes below it. -/
theorem modifyAt (h : t.Sound) (hn : t.root.at? path = some n) (hid : (f n).id = n.id)
    (hdistinct : (f n).Distinct) (hnext : t.next ≤ next)
    (hrows : ∀ r ∈ (f n).table, (r.id ∈ n.table.map Row.id ∨ t.next ≤ r.id ∧ r.id < next) ∧
      (r.decl.isContainer = false → r.children = [])) :
    Tree.Sound ⟨t.root.modifyAt f path, next⟩ := by
  obtain ⟨front, back, hold, hnew⟩ := Node.table_modifyAt hn hid
  have hrest : ∀ r ∈ front ++ back, r ∈ t.root.table := by
    intro r hr
    rw [hold]
    rcases List.mem_append.1 hr with hr | hr <;> simp [hr]
  have hsplit : ∀ r ∈ (t.root.modifyAt f path).table, r ∈ front ++ back ∨ r ∈ (f n).table := by
    intro r hr
    rw [hnew] at hr
    simp only [List.mem_append] at hr ⊢
    tauto
  have hlt : ∀ i ∈ n.table.map Row.id, i < t.next := by
    intro i hi
    obtain ⟨r, hr, rfl⟩ := List.mem_map.1 hi
    exact h.fresh r (by rw [hold]; simp [hr])
  constructor
  · have hids := h.distinct
    rw [Node.distinct_iff, hold, List.map_append, List.map_append] at hids
    rw [Node.distinct_iff, hnew, List.map_append, List.map_append]
    apply nodup_exchange hids (Node.distinct_iff.1 hdistinct)
    intro i hi
    obtain ⟨r, hr, rfl⟩ := List.mem_map.1 hi
    refine (hrows r hr).1.imp_right fun ⟨hle, _⟩ hmem => ?_
    rw [← List.map_append] at hmem
    obtain ⟨r', hr', he⟩ := List.mem_map.1 hmem
    have := h.fresh r' (hrest r' hr')
    omega
  · intro r hr
    rcases hsplit r hr with hr | hr
    · exact Nat.lt_of_lt_of_le (h.fresh r (hrest r hr)) hnext
    rcases (hrows r hr).1 with hin | ⟨-, hbound⟩
    · exact Nat.lt_of_lt_of_le (hlt _ hin) hnext
    · exact hbound
  · intro r hr
    rcases hsplit r hr with hr | hr
    · exact h.leaf r (hrest r hr)
    · exact (hrows r hr).2

/-- A node becomes detached. -/
theorem detach (h : t.Sound) (hn : t.root.at? path = some n) :
    Tree.Sound ⟨t.root.modifyAt .detach path, t.next⟩ := by
  have hmem := Node.mem_subnodes_at? (Node.self_mem_subnodes _) hn
  have hsub := Node.table_sublist hmem
  rw [Node.table_eq] at hsub
  have htable : n.detach.table = n.detach.row :: n.children.flatMap Node.table := Node.table_eq _
  have hids : n.detach.table.map Row.id = n.table.map Row.id := by
    rw [htable, Node.table_eq n]
    rfl
  apply h.modifyAt hn rfl
  · rw [Node.distinct_iff, hids]
    exact ((Node.table_sublist hmem).map _).nodup (Node.distinct_iff.1 h.distinct)
  · exact Nat.le_refl _
  · intro r hr
    refine ⟨.inl (hids ▸ List.mem_map_of_mem hr), ?_⟩
    rw [htable] at hr
    rcases List.mem_cons.1 hr with rfl | hr
    · exact h.leaf n.row (Node.row_mem_table hmem)
    · exact h.leaf r (hsub.subset (List.mem_cons_of_mem _ hr))

/-- Children of a container go or move, and new ones without children of their own come among
them. -/
theorem exchange {olds news ns : List Node} (h : t.Sound) (hn : t.root.at? path = some n)
    (hd : n.decl.isContainer = true) (holds : olds.Subperm n.children)
    (hns : ns.Perm (olds ++ news)) (hnext : t.next ≤ next) (hnews : (news.map Node.id).Nodup)
    (hnew : ∀ m ∈ news, m.children = [] ∧ t.next ≤ m.id ∧ m.id < next) :
    Tree.Sound ⟨t.root.modifyAt (.withChildren fun _ => ns) path, next⟩ := by
  have hmem := Node.mem_subnodes_at? (Node.self_mem_subnodes _) hn
  have htable : (n.withChildren fun _ => ns).table =
      (n.withChildren fun _ => ns).row :: ns.flatMap Node.table := Node.table_eq _
  have hrows : (ns.flatMap Node.table).Perm (olds.flatMap Node.table ++ news.map Node.row) := by
    rw [← Node.flatMap_table_leaves fun m hm => (hnew m hm).1, ← List.flatMap_append]
    exact hns.flatMap_right _
  obtain ⟨kept, hkept, hsub⟩ := holds
  have hold : ∀ r ∈ olds.flatMap Node.table, r ∈ n.children.flatMap Node.table := by
    intro r hr
    exact (hsub.flatMap _).subset ((hkept.flatMap_right _).symm.subset hr)
  have hdistinct := ((Node.table_sublist hmem).map _).nodup (Node.distinct_iff.1 h.distinct)
  rw [Node.table_eq, List.map_cons, List.nodup_cons] at hdistinct
  have hbelow : ∀ r ∈ n.children.flatMap Node.table, r ∈ t.root.table := by
    intro r hr
    refine (Node.table_sublist hmem).subset ?_
    rw [Node.table_eq]
    exact List.mem_cons_of_mem _ hr
  have hids : ∀ i ∈ (news.map Node.row).map Row.id, t.next ≤ i ∧ i < next := by
    intro i hi
    rw [List.map_map] at hi
    obtain ⟨m, hm, rfl⟩ := List.mem_map.1 hi
    exact (hnew m hm).2
  apply h.modifyAt hn rfl
  · rw [Node.distinct_iff, htable, List.map_cons, List.nodup_cons, (hrows.map _).mem_iff,
      (hrows.map _).nodup_iff, List.map_append, List.nodup_append]
    refine ⟨fun hself => ?_, ?_, ?_, fun i hi j hj hij => ?_⟩
    · rcases List.mem_append.1 hself with hi | hi
      · obtain ⟨r, hr, he⟩ := List.mem_map.1 hi
        exact hdistinct.1 (List.mem_map.2 ⟨r, hold r hr, he⟩)
      · exact Nat.not_lt.2 (hids _ hi).1 (h.fresh n.row (Node.row_mem_table hmem))
    · rw [← ((hkept.flatMap_right _).map _).nodup_iff]
      exact ((hsub.flatMap _).map _).nodup hdistinct.2
    · rwa [List.map_map]
    · obtain ⟨r, hr, rfl⟩ := List.mem_map.1 hi
      have := h.fresh r (hbelow r (hold r hr))
      have := (hids j hj).1
      omega
  · exact hnext
  · intro r hr
    rw [htable] at hr
    rcases List.mem_cons.1 hr with rfl | hr
    · refine ⟨.inl ?_, fun hleaf => ?_⟩
      · exact List.mem_map.2 ⟨n.row, Node.row_mem_table (Node.self_mem_subnodes n), rfl⟩
      · cases hd.symm.trans hleaf
    rcases List.mem_append.1 (hrows.subset hr) with hr | hr
    · refine ⟨.inl (List.mem_map_of_mem ?_), h.leaf r (hbelow r (hold r hr))⟩
      rw [Node.table_eq]
      exact List.mem_cons_of_mem _ (hold r hr)
    · obtain ⟨m, hm, rfl⟩ := List.mem_map.1 hr
      obtain ⟨hleaf, hbounds⟩ := hnew m hm
      exact ⟨.inr hbounds, fun _ => by rw [Node.row, hleaf, List.map_nil]⟩

end Tree.Sound
end PhpGraft
