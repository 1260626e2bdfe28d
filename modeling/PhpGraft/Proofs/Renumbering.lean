import PhpGraft.Proofs.Imports

/-!
Other numbers for the nodes of a tree. What is printed does not depend on them, as long as the nodes
that were read keep their numbers and no other node takes one of these.
-/
namespace PhpGraft

namespace Node

/-! Generated code, taken apart. -/

/-- A declaration around the text of its children. -/
def frame (style : Style) (level : Nat) (decl : Decl) (inner : Text) : Text :=
  let braced := "\x7b" ++ inner ++ style.newline ++ style.indentation level ++ "\x7d"
  match decl with
  | .file => "<?php" ++ style.newline ++ inner ++ (if style.finalNewline then style.newline else [])
  | .scope (some name) false => "namespace " ++ name ++ ";" ++ inner
  | .scope (some name) true => "namespace " ++ name ++ " " ++ braced
  | .scope none _ => "namespace " ++ braced
  | .imports i => i.print
  | .classLike head => head.print ++ style.newline ++ style.indentation level ++ braced
  | .method m => m.print style level
  | .verbatim text => reindent text (style.indentation level) style.newline

theorem print_eq (style : Style) (level : Nat) (n : Node) : n.print style level =
    frame style level n.decl (printList style (.ofDecl n.decl)
      ((Container.ofDecl n.decl).childLevel level) none n.children) := by
  cases n
  rfl

theorem printList_nil (style : Style) (c : Container) (level : Nat) (prev? : Option Decl) :
    printList style c level prev? [] = [] := rfl

theorem printList_cons (style : Style) (c : Container) (level : Nat) (prev? : Option Decl)
    (n : Node) (ns : List Node) : printList style c level prev? (n :: ns) =
      style.newlines (c.gap prev? n.decl) ++ style.indentation level ++ n.print style level ++
        printList style c level (some n.decl) ns := rfl

/-! Other numbers. -/

mutual

def renumber (f : Nat → Nat) : Node → Node
  | ⟨id, origin, decl, children⟩ => ⟨f id, origin, decl, renumberList f children⟩

def renumberList (f : Nat → Nat) : List Node → List Node
  | [] => []
  | n :: ns => renumber f n :: renumberList f ns

end

variable (f : Nat → Nat)

theorem renumberList_eq (ns : List Node) : renumberList f ns = ns.map (renumber f) := by
  induction ns with
  | nil => rfl
  | cons n ns ih => rw [renumberList, ih, List.map_cons]

theorem renumber_eq (n : Node) :
    n.renumber f = ⟨f n.id, n.origin, n.decl, n.children.map (renumber f)⟩ := by
  cases n
  rw [renumber, renumberList_eq]

@[simp] theorem id_renumber (n : Node) : (n.renumber f).id = f n.id := by
  rw [renumber_eq]

@[simp] theorem origin_renumber (n : Node) : (n.renumber f).origin = n.origin := by
  rw [renumber_eq]

@[simp] theorem decl_renumber (n : Node) : (n.renumber f).decl = n.decl := by
  rw [renumber_eq]

@[simp] theorem children_renumber (n : Node) :
    (n.renumber f).children = n.children.map (renumber f) := by
  rw [renumber_eq]

theorem renumber_detach (n : Node) : n.detach.renumber f = (n.renumber f).detach := by
  cases n
  rw [detach, renumber, renumber, detach]

theorem renumber_withChildren {g h : List Node → List Node} {n : Node}
    (hg : (g n.children).map (renumber f) = h (n.children.map (renumber f))) :
    (n.withChildren g).renumber f = (n.renumber f).withChildren h := by
  rw [renumber_eq, renumber_eq f n, withChildren, withChildren, hg]

theorem at?_renumber (path : List Nat) (n : Node) :
    (n.renumber f).at? path = (n.at? path).map (renumber f) := by
  induction path generalizing n with
  | nil => rfl
  | cons i path ih =>
    rw [at?, at?, children_renumber, List.getElem?_map]
    cases n.children[i]? with
    | none => rfl
    | some m => exact ih m

/-- A change at a path, after the numbers are exchanged. -/
theorem renumber_modifyAt {g h : Node → Node} {n m : Node} {path : List Nat}
    (hm : n.at? path = some m) (hg : (g m).renumber f = h (m.renumber f)) :
    (n.modifyAt g path).renumber f = (n.renumber f).modifyAt h path := by
  induction path generalizing n with
  | nil =>
    cases hm
    exact hg
  | cons i path ih =>
    obtain ⟨c, hc, hcm⟩ := Option.bind_eq_some_iff.1 hm
    rw [modifyAt, modifyAt, renumber_eq, renumber_eq f n]
    congr 1
    refine List.ext_getElem? fun j => ?_
    rw [List.getElem?_map, List.getElem?_modify, List.getElem?_modify, List.getElem?_map]
    by_cases hj : i = j
    · subst hj
      simp [hc, ih hcm]
    · simp [hj]

theorem outline_renumber (n : Node) : (n.renumber f).outline = n.outline := by
  rw [outline, outline, children_renumber, List.map_map]
  refine List.map_congr_left fun m _ => ?_
  simp only [Function.comp_apply, decl_renumber, children_renumber, List.map_map]
  congr 3
  funext k
  exact decl_renumber f k

theorem isImport_renumber (n : Node) : (n.renumber f).isImport = n.isImport := by
  rw [isImport, isImport, decl_renumber]

theorem importBindings_renumber (n : Node) : (n.renumber f).importBindings = n.importBindings := by
  rw [importBindings, importBindings, decl_renumber]

theorem importName_renumber (n : Node) : (n.renumber f).importName = n.importName := by
  rw [importName, importName, decl_renumber]

variable {f}

mutual

/-- Numbers that stay as they are. -/
theorem renumber_eq_self : ∀ n : Node, (∀ k ∈ n.subnodes, f k.id = k.id) → n.renumber f = n
  | ⟨id, origin, decl, children⟩, h => by
    have hid : f id = id := h _ (self_mem_subnodes _)
    rw [renumber, hid, renumberList_eq_self children fun k hk => h k (by
      rw [subnodes]
      exact List.mem_cons_of_mem _ hk)]

theorem renumberList_eq_self : ∀ ns : List Node, (∀ k ∈ subnodesList ns, f k.id = k.id) →
    renumberList f ns = ns
  | [], _ => by rw [renumberList]
  | n :: ns, h => by
    rw [subnodesList] at h
    rw [renumberList, renumber_eq_self n fun k hk => h k (List.mem_append_left _ hk),
      renumberList_eq_self ns fun k hk => h k (List.mem_append_right _ hk)]

end

mutual

/-- Generated code does not show numbers. -/
theorem print_renumber (style : Style) :
    ∀ (level : Nat) (n : Node), (n.renumber f).print style level = n.print style level
  | level, ⟨id, origin, decl, children⟩ => by
    rw [print_eq, print_eq style level ⟨id, origin, decl, children⟩, renumber]
    exact congrArg _ (printList_renumber style _ _ none children)

theorem printList_renumber (style : Style) :
    ∀ (c : Container) (level : Nat) (prev? : Option Decl) (ns : List Node),
      printList style c level prev? (renumberList f ns) = printList style c level prev? ns
  | _, _, _, [] => by rw [renumberList]
  | c, level, prev?, n :: ns => by
    rw [renumberList, printList_cons, printList_cons, decl_renumber, print_renumber style level n,
      printList_renumber style c level _ ns]

end

end Node

namespace Source

/-- Numbers below `limit` stay, and no other number falls below it. -/
structure Renumbering (limit : Nat) (f : Nat → Nat) : Prop where
  fixed : ∀ i, i < limit → f i = i
  fresh : ∀ i, limit ≤ i → limit ≤ f i

/-- All numbers from the limit on become one. -/
theorem renumbering_min (limit : Nat) : Renumbering limit (min limit) :=
  ⟨fun _ h => Nat.min_eq_right (Nat.le_of_lt h), fun _ h => Nat.le_of_eq (Nat.min_eq_left h).symm⟩

variable {s : Source} {text : Text} {f : Nat → Nat}

theorem predecessor?_eq_none {id : Nat} {is : List Nat} (prev? : Option Nat) (h : id ∉ is) :
    Node.predecessor? id prev? is = none := by
  induction is generalizing prev? with
  | nil => rfl
  | cons i is ih =>
    obtain ⟨hne, hmem⟩ := List.ne_and_not_mem_of_not_mem_cons h
    rw [Node.predecessor?, if_neg hne.symm, ih _ hmem]

theorem predecessor?_mem {id : Nat} {is : List Nat} {prev? : Option Nat} {j : Nat}
    (h : Node.predecessor? id prev? is = some (some j)) : prev? = some j ∨ j ∈ is := by
  induction is generalizing prev? with
  | nil => cases h
  | cons i is ih =>
    rw [Node.predecessor?] at h
    split at h
    · exact .inl (Option.some.inj h)
    · rcases ih h with hi | hi
      · exact .inr (Option.some.inj hi ▸ List.mem_cons_self)
      · exact .inr (List.mem_cons_of_mem _ hi)

/-- Only nodes that were read stand behind a sibling, and it was read too. -/
theorem lt_of_predecessor? (hf : s.Faithful text) {parent child : Nat} {prev? : Option Nat}
    (h : s.predecessor? parent child = some prev?) :
    parent < s.tree.next ∧ child < s.tree.next ∧ ∀ j, prev? = some j → j < s.tree.next := by
  obtain ⟨p, hp, hpred⟩ := Option.bind_eq_some_iff.1 h
  rw [Node.find?_eq] at hp
  have hid : p.id = parent := by simpa using List.find?_some hp
  have hsub := List.mem_of_find?_eq_some hp
  have hchild : ∀ j ∈ p.children.map Node.id, j < s.tree.next := by
    intro j hj
    obtain ⟨c, hc, rfl⟩ := List.mem_map.1 hj
    exact hf.fresh c (Node.mem_subnodes_of_child hc hsub)
  refine ⟨hid ▸ hf.fresh p hsub, ?_, fun j hj => ?_⟩
  · refine hchild child (Classical.byContradiction fun hmem => ?_)
    rw [predecessor?_eq_none none hmem] at hpred
    cases hpred
  · subst hj
    exact hchild j ((predecessor?_mem hpred).resolve_left nofun)

/-- Whether a sibling was read in front of a node does not depend on numbers that were not read. -/
theorem predecessor?_renumber (hf : s.Faithful text) (hr : Renumbering s.tree.next f)
    (parent child : Nat) (prev? : Option Nat) :
    (s.predecessor? (f parent) (f child) == some (prev?.map f)) =
      (s.predecessor? parent child == some prev?) := by
  have hlt : ∀ i, f i < s.tree.next → f i = i := fun i hi =>
    hr.fixed i (Nat.lt_of_not_le fun hle => Nat.lt_irrefl _ (Nat.lt_of_lt_of_le hi (hr.fresh i hle)))
  rw [Bool.eq_iff_iff, beq_iff_eq, beq_iff_eq]
  constructor <;> intro h <;> obtain ⟨hp, hc, hprev⟩ := lt_of_predecessor? hf h
  · rw [hlt _ hp, hlt _ hc] at h
    rw [h]
    cases prev? with
    | none => rfl
    | some j => rw [Option.map_some, hlt j (hprev (f j) rfl)]
  · rw [hr.fixed _ hp, hr.fixed _ hc, h]
    cases prev? with
    | none => rfl
    | some j => rw [Option.map_some, hr.fixed j (hprev j rfl)]

def Cursor.renumber (f : Nat → Nat) (cur : Cursor) : Cursor :=
  { cur with prev? := cur.prev?.map (Node.renumber f) }

theorem keeps_renumber (hf : s.Faithful text) (hr : Renumbering s.tree.next f) (parent : Nat)
    (cur : Cursor) (n : Node) :
    s.keeps (f parent) (cur.renumber f) (n.renumber f) = s.keeps parent cur n := by
  have hprev : (cur.renumber f).prev?.map Node.id = (cur.prev?.map Node.id).map f := by
    rw [Cursor.renumber, Option.map_map, Option.map_map]
    congr 1
    funext m
    exact Node.id_renumber f m
  rw [keeps, keeps, Node.origin_renumber, Node.id_renumber, hprev,
    predecessor?_renumber hf hr]
  rfl

theorem gap_renumber (style : Style) (c : Container) (level : Nat) (kept : Bool) (cur : Cursor)
    (n : Node) :
    s.gap style c level kept (cur.renumber f) (n.renumber f) = s.gap style c level kept cur n := by
  have hprev : (cur.renumber f).prev?.map Node.decl = cur.prev?.map Node.decl := by
    rw [Cursor.renumber, Option.map_map]
    congr 1
    funext m
    exact Node.decl_renumber f m
  simp only [gap, Node.origin_renumber, Node.decl_renumber, hprev]
  rfl

theorem pass_renumber (cur : Cursor) (kept : Bool) (n : Node) :
    (cur.renumber f).pass kept (n.renumber f) = (cur.pass kept n).renumber f := by
  rw [Cursor.pass, Cursor.pass, Node.origin_renumber]
  rfl

mutual

/-- Numbers of nodes that were not read are not shown. -/
theorem print_renumber (hf : s.Faithful text) (hr : Renumbering s.tree.next f) (style : Style) :
    ∀ (level : Nat) (n : Node), s.print style level (n.renumber f) = s.print style level n
  | level, ⟨id, origin, decl, children⟩ => by
    rw [Node.renumber, print, print]
    cases origin.anchor? with
    | none =>
      dsimp only
      rw [← Node.print_renumber style level ⟨id, origin, decl, children⟩, Node.renumber]
    | some a =>
      dsimp only
      cases a.body? with
      | none => rfl
      | some body =>
        dsimp only
        rw [← printList_renumber hf hr style _ level id body.stop ⟨body.start, none, true⟩ children]
        rfl

theorem printList_renumber (hf : s.Faithful text) (hr : Renumbering s.tree.next f) (style : Style) :
    ∀ (c : Container) (level parent stop : Nat) (cur : Cursor) (ns : List Node),
      s.printList style c level (f parent) stop (cur.renumber f) (Node.renumberList f ns) =
        s.printList style c level parent stop cur ns
  | _, _, _, _, _, [] => by
    rw [Node.renumberList, printList, printList]
    rfl
  | c, level, parent, stop, cur, n :: ns => by
    rw [Node.renumberList, printList, printList, keeps_renumber hf hr, gap_renumber, pass_renumber,
      print_renumber hf hr style _ n, printList_renumber hf hr style c level parent stop _ ns]

end

end Source
end PhpGraft
