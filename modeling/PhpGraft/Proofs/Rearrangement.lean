import Mathlib.Logic.Relation
import PhpGraft.Proofs.RoundTrip

/-!
Rearranging a tree: children change places, nodes are detached, new nodes come in. What was read
stays: every node with an anchor goes back to a node of the source, and its children with an anchor
are those of that node in some order.
-/
namespace PhpGraft

/-- One change of a working tree. -/
inductive Tree.Step : Tree → Tree → Prop
  | permute {t : Tree} {path n} {ns : List Node} : t.root.at? path = some n → ns.Perm n.children →
      Step t ⟨t.root.modifyAt (.withChildren fun _ => ns) path, t.next⟩
  | detach {t : Tree} {path n} : t.root.at? path = some n →
      Step t ⟨t.root.modifyAt .detach path, t.next⟩
  | insert {t : Tree} {path n i decl} : t.root.at? path = some n → n.decl.isContainer = true →
      i ≤ n.children.length →
      Step t ⟨t.root.modifyAt (.withChildren (·.insertIdx i (t.synthesize decl []))) path, t.next + 1⟩

namespace Node

/-- What the parent of a node sees of it. -/
def face (n : Node) : Nat × Option Anchor := (n.id, n.origin.anchor?)

/-- Numbers of the nodes that were read from the source. -/
def readIds (ns : List Node) : List Nat :=
  (ns.filter (·.origin.anchor?.isSome)).map Node.id

theorem readIds_congr {ns ms : List Node} (h : ns.map face = ms.map face) :
    readIds ns = readIds ms := by
  have hface : ∀ ns : List Node,
      readIds ns = ((ns.map face).filter (·.2.isSome)).map Prod.fst := by
    intro ns
    rw [readIds, List.filter_map, List.map_map]
    rfl
  rw [hface, hface, h]

theorem anchor?_detach (n : Node) : n.detach.origin.anchor? = n.origin.anchor? := by
  cases n with
  | mk id origin decl children => cases origin <;> rfl

theorem face_modifyAt {f : Node → Node} {n m : Node} {path : List Nat} (hn : n.at? path = some m)
    (hf : (f m).face = m.face) : (n.modifyAt f path).face = n.face := by
  cases path with
  | nil =>
    cases hn
    exact hf
  | cons => rfl

theorem mem_subnodesList {k : Node} {ns : List Node} :
    k ∈ subnodesList ns ↔ ∃ n ∈ ns, k ∈ n.subnodes := by
  induction ns with
  | nil => simp [subnodesList]
  | cons n ns ih => simp [subnodesList, ih]

end Node

theorem Placed.of_mem_subnodes {ts : Tokens} {n : Node} (h : Placed ts n) :
    ∀ k ∈ n.subnodes, Placed ts k := by
  induction h using Placed.induct
    (Q := fun _ ns _ _ => ∀ k ∈ Node.subnodesList ns, Placed ts k) with
  | leaf hd hs hsize =>
    intro k hk
    rw [Node.subnodes, Node.subnodesList] at hk
    rw [List.mem_singleton.1 hk]
    exact .leaf hd hs hsize
  | container hd hs he ih =>
    intro k hk
    rw [Node.subnodes] at hk
    rcases List.mem_cons.1 hk with rfl | hk
    · exact .container hd hs he
    · exact ih k hk
  | nil => exact nomatch ‹_ ∈ Node.subnodesList []›
  | cons _ _ _ _ _ ihn ihns =>
    rename_i k hk
    rcases List.mem_append.1 (Node.subnodesList.eq_2 _ _ ▸ hk) with hk | hk
    · exact ihn k hk
    · exact ihns k hk

namespace Source

/-- `n` was read as `m`, and has all children of it. -/
structure ReadAs (s : Source) (n m : Node) : Prop where
  mem : m ∈ s.tree.root.subnodes
  id : n.id = m.id
  decl : n.decl = m.decl
  anchor : n.origin.anchor? = m.origin.anchor?
  children : (Node.readIds n.children).Perm (m.children.map Node.id)

/-- A node of a rearranged tree, by what its parent and its children show of it. -/
inductive Stems (s : Source) (n : Node) : Prop
  /-- Made new, with nothing of the source below it. -/
  | new : n.origin.anchor? = none → s.tree.next ≤ n.id →
      (∀ c ∈ n.children, c.origin.anchor? = none) → Stems s n
  | read {m : Node} : s.ReadAs n m → Stems s n

variable {s : Source} {n m : Node}

theorem Stems.congr (h : s.Stems m) (hface : n.face = m.face) (hdecl : n.decl = m.decl)
    (hc : n.children.map Node.face = m.children.map Node.face) : s.Stems n := by
  obtain ⟨hid, ha⟩ := Prod.mk.inj hface
  cases h with
  | new hm hnew hchildren =>
    refine .new (ha.trans hm) (hid ▸ hnew) fun c hcn => ?_
    obtain ⟨d, hd, he⟩ := List.mem_map.1 (hc ▸ List.mem_map_of_mem hcn)
    exact (Prod.mk.inj he).2.symm.trans (hchildren d hd)
  | read h =>
    exact .read ⟨h.mem, hid.trans h.id, hdecl.trans h.decl, ha.trans h.anchor,
      Node.readIds_congr hc ▸ h.children⟩

/-- A node whose subnodes all go back to the source still has that property when a node below it is
exchanged for one that has it. -/
theorem stems_modifyAt {f : Node → Node} {path : List Nat} (hm : n.at? path = some m)
    (hf : (f m).face = m.face) (hs : ∀ k ∈ n.subnodes, s.Stems k)
    (hnew : ∀ k ∈ (f m).subnodes, s.Stems k) : ∀ k ∈ (n.modifyAt f path).subnodes, s.Stems k := by
  induction path generalizing n with
  | nil =>
    cases hm
    exact hnew
  | cons i path ih =>
    obtain ⟨c, hc, hcm⟩ := Option.bind_eq_some_iff.1 hm
    obtain ⟨hlt, rfl⟩ := List.getElem?_eq_some_iff.1 hc
    have hsplit := List.modify_eq_take_cons_drop (f := Node.modifyAt f path) hlt
    have hchildren : (n.children.modify i (Node.modifyAt f path)).map Node.face =
        n.children.map Node.face := by
      conv_rhs => rw [← List.take_append_drop i n.children, List.drop_eq_getElem_cons hlt]
      rw [hsplit, List.map_append, List.map_append, List.map_cons, List.map_cons,
        Node.face_modifyAt hcm hf]
    have hchild : ∀ c ∈ n.children, ∀ k ∈ c.subnodes, s.Stems k := fun c hc k hk =>
      hs k (by rw [Node.subnodes_eq]; exact .tail _ (Node.mem_subnodesList.2 ⟨c, hc, hk⟩))
    intro k hk
    rw [Node.modifyAt, Node.subnodes_eq] at hk
    rcases List.mem_cons.1 hk with rfl | hk
    · exact (hs n (Node.self_mem_subnodes n)).congr rfl rfl hchildren
    · obtain ⟨c, hc, hk⟩ := Node.mem_subnodesList.1 hk
      rw [hsplit] at hc
      rcases List.mem_append.1 hc with hc | hc
      · exact hchild c (List.mem_of_mem_take hc) k hk
      · rcases List.mem_cons.1 hc with rfl | hc
        · exact ih hcm (hchild _ (List.getElem_mem hlt)) k hk
        · exact hchild c (List.mem_of_mem_drop hc) k hk

/-- A working tree whose nodes all go back to the source or are new. -/
structure Rearranged (s : Source) (t : Tree) : Prop where
  stems : ∀ n ∈ t.root.subnodes, s.Stems n
  next : s.tree.next ≤ t.next
  face : t.root.face = s.tree.root.face

theorem Rearranged.modifyAt {t : Tree} {f : Node → Node} {path : List Nat} {next : Nat}
    (h : s.Rearranged t) (hm : t.root.at? path = some m) (hf : (f m).face = m.face)
    (hnew : ∀ k ∈ (f m).subnodes, s.Stems k) (hnext : t.next ≤ next) :
    s.Rearranged ⟨t.root.modifyAt f path, next⟩ :=
  ⟨stems_modifyAt hm hf h.stems hnew, Nat.le_trans h.next hnext,
    (Node.face_modifyAt hm hf).trans h.face⟩

/-- Children in another order, or with new ones among them. -/
theorem stems_withChildren {ns : List Node} (h : ∀ k ∈ m.subnodes, s.Stems k)
    (hread : (Node.readIds ns).Perm (Node.readIds m.children))
    (hnew : ∀ c ∈ ns, c ∈ m.children ∨ c.origin.anchor? = none ∧ ∀ k ∈ c.subnodes, s.Stems k) :
    ∀ k ∈ (m.withChildren fun _ => ns).subnodes, s.Stems k := by
  have hchild : ∀ c ∈ m.children, ∀ k ∈ c.subnodes, s.Stems k := fun c hc k hk =>
    h k (by rw [Node.subnodes_eq]; exact .tail _ (Node.mem_subnodesList.2 ⟨c, hc, hk⟩))
  intro k hk
  rw [Node.subnodes_eq] at hk
  rcases List.mem_cons.1 hk with rfl | hk
  · cases h m (Node.self_mem_subnodes m) with
    | new ha hid hchildren =>
      refine .new ha hid fun c hc => ?_
      rcases hnew c hc with hc | ⟨hc, -⟩
      · exact hchildren c hc
      · exact hc
    | read h => exact .read ⟨h.mem, h.id, h.decl, h.anchor, hread.trans h.children⟩
  · obtain ⟨c, hc, hk⟩ := Node.mem_subnodesList.1 hk
    rcases hnew c hc with hc | ⟨-, hc⟩
    · exact hchild c hc k hk
    · exact hc k hk

theorem Rearranged.step {t u : Tree} (h : s.Rearranged t) (hstep : t.Step u) : s.Rearranged u := by
  have hsub : ∀ {path m}, t.root.at? path = some m → ∀ k ∈ m.subnodes, s.Stems k :=
    fun hm k hk => h.stems k ((Node.subnodes_sublist _
      (Node.mem_subnodes_at? (Node.self_mem_subnodes _) hm)).subset hk)
  cases hstep with
  | @permute path m ns hm hp =>
    refine h.modifyAt hm rfl (stems_withChildren (hsub hm) ?_ ?_) (Nat.le_refl _)
    · exact (hp.filter _).map _
    · exact fun c hc => .inl (hp.subset hc)
  | @detach path m hm =>
    have hface : m.detach.face = m.face := Prod.ext rfl (Node.anchor?_detach m)
    refine h.modifyAt hm hface (fun k hk => ?_) (Nat.le_refl _)
    rw [Node.subnodes_eq] at hk
    rcases List.mem_cons.1 hk with rfl | hk
    · exact (hsub hm m (Node.self_mem_subnodes m)).congr hface rfl rfl
    · exact hsub hm k (by rw [Node.subnodes_eq]; exact .tail _ hk)
  | @insert path m i decl hm _ hi =>
    have hperm : (m.children.insertIdx i (t.synthesize decl [])).Perm
        (t.synthesize decl [] :: m.children) := List.perm_insertIdx _ _ hi
    refine h.modifyAt hm rfl
      (stems_withChildren (hsub hm) ((hperm.filter _).map _) fun c hc => ?_) (Nat.le_succ t.next)
    rcases List.mem_cons.1 (hperm.subset hc) with rfl | hc
    · refine .inr ⟨rfl, fun k hk => ?_⟩
      rw [Node.subnodes_eq] at hk
      rcases List.mem_cons.1 hk with rfl | hk
      · exact .new rfl h.next fun c hc => nomatch hc
      · exact nomatch hk
    · exact .inl hc

theorem Faithful.rearranged {text : Text} {t : Tree} (hf : s.Faithful text)
    (h : Relation.ReflTransGen Tree.Step s.tree t) : s.Rearranged t := by
  induction h with
  | refl =>
    refine ⟨fun n hn => ?_, Nat.le_refl _, rfl⟩
    refine .read ⟨hn, rfl, rfl, rfl, .of_eq ?_⟩
    rw [Node.readIds, List.filter_eq_self.2 fun c hc => ?_]
    obtain ⟨a, ha⟩ := (hf.placed.of_mem_subnodes c (Node.mem_subnodes_of_child hc hn)).anchor
    rw [ha]
    rfl
  | tail _ hstep ih => exact ih.step hstep

theorem Stems.readAs (h : s.Stems n) {a : Anchor} (ha : n.origin.anchor? = some a) :
    ∃ m, s.ReadAs n m := by
  cases h with
  | new hnone => rw [ha] at hnone; cases hnone
  | read h => exact ⟨_, h⟩

/-- Children `cs` where the children `ms` were read: some of these in any order, and new ones. -/
structure Selected (s : Source) (parent i : Nat) (ms cs : List Node) (last : Nat) : Prop where
  siblings : Siblings s.tokens i ms last
  nodup : (ms.map Node.id).Nodup
  once : (Node.readIds cs).Nodup
  read : ∀ x ∈ cs, ∀ a, x.origin.anchor? = some a →
    ∃ m ∈ ms, m.id = x.id ∧ m.origin = .anchored a
  new : ∀ x ∈ cs, x.origin.anchor? = none → x.id ∉ ms.map Node.id
  predecessor : ∀ before m behind, ms = before ++ m :: behind →
    s.predecessor? parent m.id = some (before.getLast?.map Node.id)

/-- Children `cs` of a rearranged node that was read with the children `ms`. -/
structure Shuffled (s : Source) (parent i : Nat) (ms cs : List Node) (last : Nat) : Prop where
  siblings : Siblings s.tokens i ms last
  nodup : (ms.map Node.id).Nodup
  perm : (Node.readIds cs).Perm (ms.map Node.id)
  read : ∀ x ∈ cs, ∀ a, x.origin.anchor? = some a →
    ∃ m ∈ ms, m.id = x.id ∧ m.origin = .anchored a
  new : ∀ x ∈ cs, x.origin.anchor? = none → x.id ∉ ms.map Node.id
  predecessor : ∀ before m behind, ms = before ++ m :: behind →
    s.predecessor? parent m.id = some (before.getLast?.map Node.id)

theorem Shuffled.selected {parent i last : Nat} {ms cs : List Node}
    (h : s.Shuffled parent i ms cs last) : s.Selected parent i ms cs last :=
  ⟨h.siblings, h.nodup, h.perm.nodup_iff.2 h.nodup, h.read, h.new, h.predecessor⟩

theorem Rearranged.shuffled {text : Text} {t : Tree} {i last : Nat} (hf : s.Faithful text)
    (h : s.Rearranged t) (hn : n ∈ t.root.subnodes) (hm : s.ReadAs n m)
    (hs : Siblings s.tokens i m.children last) :
    s.Shuffled n.id i m.children n.children last := by
  refine ⟨hs, hf.distinct.children hm.mem, hm.children, fun x hx a ha => ?_, fun x hx ha hid => ?_,
    fun before k behind hsplit => ?_⟩
  · have hxid : x.id ∈ m.children.map Node.id := hm.children.subset
      (List.mem_map_of_mem (List.mem_filter.2 ⟨hx, by rw [ha]; rfl⟩))
    obtain ⟨k, hk, hkid⟩ := List.mem_map.1 hxid
    obtain ⟨l, hl⟩ := (h.stems x (Node.mem_subnodes_of_child hx hn)).readAs ha
    have hksub := Node.mem_subnodes_of_child hk hm.mem
    obtain rfl : k = l :=
      List.inj_on_of_nodup_map hf.distinct hksub hl.mem (hkid.trans hl.id)
    obtain ⟨b, hb⟩ := (hf.placed.of_mem_subnodes k hksub).anchor
    have hanchor := hl.anchor
    rw [ha, hb] at hanchor
    exact ⟨k, hk, hkid, hb.trans (congrArg _ (Option.some.inj hanchor).symm)⟩
  · obtain ⟨k, hk, hkid⟩ := List.mem_map.1 hid
    have hksub := Node.mem_subnodes_of_child hk hm.mem
    cases h.stems x (Node.mem_subnodes_of_child hx hn) with
    | new _ hnew _ => exact absurd (hf.fresh k hksub) (by omega)
    | read hl =>
      obtain ⟨b, hb⟩ := (hf.placed.of_mem_subnodes _ hl.mem).anchor
      rw [hl.anchor, hb] at ha
      cases ha
  · rw [hm.id]
    exact predecessor?_child hf.distinct hm.mem hsplit

end Source
end PhpGraft
