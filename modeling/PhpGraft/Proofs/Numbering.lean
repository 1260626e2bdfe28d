import Mathlib.Data.List.Nodup
import PhpGraft.Layout.Preserving
import PhpGraft.Proofs.Placement
import PhpGraft.Proofs.Reading

/-!
The nodes of a tree and their numbers. A numbered tree gives no number twice, so a number leads back
to the node that has it.
-/
namespace PhpGraft.Node

mutual

/-- The node and all nodes below it. -/
def subnodes : Node → List Node
  | ⟨id, origin, decl, children⟩ => ⟨id, origin, decl, children⟩ :: subnodesList children

def subnodesList : List Node → List Node
  | [] => []
  | n :: ns => subnodes n ++ subnodesList ns

end

theorem subnodes_eq (n : Node) : n.subnodes = n :: subnodesList n.children := by
  cases n
  rw [subnodes]

theorem self_mem_subnodes (n : Node) : n ∈ n.subnodes := by
  rw [subnodes_eq]
  exact List.mem_cons_self

theorem sublist_subnodesList (ns : List Node) : ns.Sublist (subnodesList ns) := by
  induction ns with
  | nil => exact .slnil
  | cons n ns ih =>
    rw [subnodesList, subnodes_eq]
    exact (ih.trans (List.sublist_append_right _ _)).cons_cons n

mutual

theorem subnodes_sublist {m : Node} : ∀ n : Node, m ∈ n.subnodes → m.subnodes.Sublist n.subnodes
  | ⟨id, origin, decl, children⟩, h => by
    rw [subnodes] at h
    rcases List.mem_cons.1 h with rfl | h
    · exact .refl _
    · rw [subnodes.eq_1 id origin]
      exact (subnodes_sublist_of_list children h).cons _

theorem subnodes_sublist_of_list {m : Node} : ∀ ns : List Node, m ∈ subnodesList ns →
    m.subnodes.Sublist (subnodesList ns)
  | [], h => by
    rw [subnodesList] at h
    cases h
  | n :: ns, h => by
    rw [subnodesList] at h ⊢
    rcases List.mem_append.1 h with h | h
    · exact (subnodes_sublist n h).trans (List.sublist_append_left _ _)
    · exact (subnodes_sublist_of_list ns h).trans (List.sublist_append_right _ _)

end

theorem children_sublist_subnodes (n : Node) : n.children.Sublist n.subnodes := by
  rw [subnodes_eq]
  exact (sublist_subnodesList _).cons _

theorem mem_subnodes_of_child {c n root : Node} (hc : c ∈ n.children) (hn : n ∈ root.subnodes) :
    c ∈ root.subnodes :=
  (subnodes_sublist root hn).subset ((children_sublist_subnodes n).subset hc)

theorem mem_subnodes_at? {root n m : Node} {path : List Nat} (hn : n ∈ root.subnodes)
    (h : n.at? path = some m) : m ∈ root.subnodes := by
  induction path generalizing n with
  | nil =>
    cases h
    exact hn
  | cons i path ih =>
    obtain ⟨k, hk, hm⟩ := Option.bind_eq_some_iff.1 h
    exact ih (mem_subnodes_of_child (List.mem_of_getElem? hk) hn) hm

mutual

theorem find?_eq (id : Nat) : ∀ n : Node, find? id n = n.subnodes.find? (·.id == id)
  | ⟨i, origin, decl, children⟩ => by
    rw [find?, subnodes, List.find?_cons]
    by_cases h : i = id
    · simp [h]
    · simp only [h, if_false, beq_eq_false_iff_ne.2 h, findList?_eq id children]

theorem findList?_eq (id : Nat) : ∀ ns : List Node,
    findList? id ns = (subnodesList ns).find? (·.id == id)
  | [] => by rw [findList?, subnodesList, List.find?_nil]
  | n :: ns => by
    rw [findList?, subnodesList, List.find?_append, find?_eq id n, findList?_eq id ns]

end

/-- No number is given twice. -/
def Distinct (n : Node) : Prop := (n.subnodes.map Node.id).Nodup

theorem Distinct.find? {m n : Node} (h : n.Distinct) (hm : m ∈ n.subnodes) :
    n.find? m.id = some m := by
  rw [find?_eq]
  obtain ⟨k, hk⟩ : ∃ k, n.subnodes.find? (·.id == m.id) = some k :=
    Option.isSome_iff_exists.1 (List.find?_isSome.2 ⟨m, hm, beq_self_eq_true _⟩)
  have hid : k.id = m.id := by simpa using List.find?_some hk
  rw [hk, List.inj_on_of_nodup_map h (List.mem_of_find?_eq_some hk) hm hid]

theorem Distinct.children {m n : Node} (h : n.Distinct) (hm : m ∈ n.subnodes) :
    (m.children.map Node.id).Nodup :=
  (((children_sublist_subnodes m).trans (subnodes_sublist n hm)).map _).nodup h

mutual

theorem number_bounds : ∀ (n : Nat) (m : Node), n < (number n m).2 ∧
    ∀ k ∈ (number n m).1.subnodes, n ≤ k.id ∧ k.id < (number n m).2
  | n, ⟨id, origin, decl, children⟩ => by
    obtain ⟨hle, hmem⟩ := numberList_bounds n children
    rw [number]
    refine ⟨Nat.lt_succ_of_le hle, fun k hk => ?_⟩
    rw [subnodes] at hk
    rcases List.mem_cons.1 hk with rfl | hk
    · exact ⟨hle, Nat.lt_succ_self _⟩
    · exact ⟨(hmem k hk).1, Nat.lt_succ_of_lt (hmem k hk).2⟩

theorem numberList_bounds : ∀ (n : Nat) (ms : List Node), n ≤ (numberList n ms).2 ∧
    ∀ k ∈ subnodesList (numberList n ms).1, n ≤ k.id ∧ k.id < (numberList n ms).2
  | n, [] => by
    rw [numberList, subnodesList]
    exact ⟨Nat.le_refl n, fun _ hk => nomatch hk⟩
  | n, m :: ms => by
    obtain ⟨hlt, hm⟩ := number_bounds n m
    obtain ⟨hle, hms⟩ := numberList_bounds (number n m).2 ms
    rw [numberList]
    refine ⟨Nat.le_trans (Nat.le_of_lt hlt) hle, fun k hk => ?_⟩
    rw [subnodesList] at hk
    rcases List.mem_append.1 hk with hk | hk
    · exact ⟨(hm k hk).1, Nat.lt_of_lt_of_le (hm k hk).2 hle⟩
    · exact ⟨Nat.le_trans (Nat.le_of_lt hlt) (hms k hk).1, (hms k hk).2⟩

end

mutual

theorem distinct_number : ∀ (n : Nat) (m : Node), (number n m).1.Distinct
  | n, ⟨id, origin, decl, children⟩ => by
    rw [number, Distinct, subnodes, List.map_cons, List.nodup_cons]
    refine ⟨fun hk => ?_, distinct_numberList n children⟩
    obtain ⟨k, hk, he⟩ := List.mem_map.1 hk
    exact absurd he (Nat.ne_of_lt ((numberList_bounds n children).2 k hk).2)

theorem distinct_numberList : ∀ (n : Nat) (ms : List Node),
    ((subnodesList (numberList n ms).1).map Node.id).Nodup
  | n, [] => by
    rw [numberList, subnodesList]
    exact .nil
  | n, m :: ms => by
    rw [numberList, subnodesList, List.map_append, List.nodup_append]
    refine ⟨distinct_number n m, distinct_numberList _ ms, fun a ha b hb he => ?_⟩
    obtain ⟨k, hk, rfl⟩ := List.mem_map.1 ha
    obtain ⟨l, hl, rfl⟩ := List.mem_map.1 hb
    have := ((number_bounds n m).2 k hk).2
    have := ((numberList_bounds _ ms).2 l hl).1
    omega

end

end PhpGraft.Node

namespace PhpGraft

theorem number_origin (n : Nat) (m : Node) : (m.number n).1.origin = m.origin := by
  cases m
  rw [Node.number]

theorem number_decl (n : Nat) (m : Node) : (m.number n).1.decl = m.decl := by
  cases m
  rw [Node.number]

/-- Numbering moves no node. -/
theorem Placed.number {ts : Tokens} {m : Node} (h : Placed ts m) (n : Nat) :
    Placed ts (m.number n).1 := by
  induction h using Placed.induct
    (Q := fun i ms last _ => ∀ n, Siblings ts i (Node.numberList n ms).1 last)
    generalizing n with
  | leaf hd hs hsize =>
    rw [Node.number, Node.numberList]
    exact .leaf hd hs hsize
  | container hd _ he ih =>
    rw [Node.number]
    exact .container hd (ih n) he
  | nil =>
    rw [Node.numberList]
    exact .nil
  | cons ho hi hl _ _ ihn ihns =>
    rw [Node.numberList]
    exact .cons ((number_origin ..).trans ho) hi hl (ihn _) (ihns _)

/-- A file as it was read: its tokens spell its text, and its nodes stand where their tokens do,
with a number for each. -/
structure Source.Faithful (s : Source) (text : Text) : Prop where
  reads : Lexer.Reads .html s.tokens.toList text
  placed : Placed s.tokens s.tree.root
  distinct : s.tree.root.Distinct
  fresh : ∀ n ∈ s.tree.root.subnodes, n.id < s.tree.next

theorem Source.faithful_of_parse {text : Text} {s : Source} (h : Source.parse text = .ok s) :
    s.Faithful text := by
  unfold Source.parse at h
  split at h
  · cases h
  rename_i tokens hl
  split at h
  · cases h
  rename_i root hf
  cases h
  exact ⟨Lexer.reads_of_run hl, (Tokens.placed_file hf).number 0,
    Node.distinct_number 0 root, fun n hn => ((Node.number_bounds 0 root).2 n hn).2⟩

theorem Source.Faithful.spells {s : Source} {text : Text} (h : s.Faithful text) :
    s.tokens.source = text :=
  h.reads.spell

end PhpGraft
