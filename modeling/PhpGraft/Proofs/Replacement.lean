import PhpGraft.Proofs.Renumbering
import PhpGraft.Proofs.Steps

/-!
Nodes of a file that are printed as generated code in the places of their text. Their siblings are
printed as before, each behind all that the source has in front of it; this is where the tokens of a
replaced node are printed once more.
-/
namespace PhpGraft

namespace Node

mutual

/-- The nodes whose numbers pass a test have no source text any more. -/
def renew (p : Nat → Bool) : Node → Node
  | ⟨id, origin, decl, children⟩ =>
    ⟨id, if p id then .synthesized else origin, decl, renewList p children⟩

def renewList (p : Nat → Bool) : List Node → List Node
  | [] => []
  | n :: ns => renew p n :: renewList p ns

end

variable {p : Nat → Bool} {n : Node}

@[simp] theorem renew_id (n : Node) : (n.renew p).id = n.id := by
  cases n
  rfl

@[simp] theorem renew_decl (n : Node) : (n.renew p).decl = n.decl := by
  cases n
  rfl

theorem renew_children (n : Node) : (n.renew p).children = renewList p n.children := by
  cases n
  rfl

theorem renew_new (h : p n.id = true) : (n.renew p).origin = .synthesized := by
  cases n
  exact if_pos h

theorem anchor?_renew (h : p n.id = true) : (n.renew p).origin.anchor? = none := by
  rw [renew_new h]
  rfl

theorem renew_kept (h : p n.id = false) : (n.renew p).origin = n.origin := by
  cases n
  exact if_neg (Bool.eq_false_iff.1 h)

mutual

/-- Nothing is replaced where no number passes the test. -/
theorem renew_eq_self : ∀ n : Node, (∀ m ∈ n.subnodes, p m.id = false) → n.renew p = n
  | ⟨id, origin, decl, children⟩, h => by
    rw [subnodes] at h
    obtain ⟨hid, hchildren⟩ := List.forall_mem_cons.1 h
    rw [renew, if_neg (Bool.eq_false_iff.1 hid), renewList_eq_self children hchildren]

theorem renewList_eq_self : ∀ ns : List Node, (∀ m ∈ subnodesList ns, p m.id = false) →
    renewList p ns = ns
  | [], _ => rfl
  | n :: ns, h => by
    rw [subnodesList] at h
    obtain ⟨hn, hns⟩ := List.forall_mem_append.1 h
    rw [renewList, renew_eq_self n hn, renewList_eq_self ns hns]

end

mutual

/-- Generated code does not show where nodes were read from. -/
theorem print_renew (style : Style) : ∀ (level : Nat) (n : Node),
    (n.renew p).print style level = n.print style level
  | level, ⟨id, origin, decl, children⟩ => by
    rw [print_eq, print_eq style level ⟨id, origin, decl, children⟩, renew]
    exact congrArg _ (printList_renew style _ _ none children)

theorem printList_renew (style : Style) :
    ∀ (c : Container) (level : Nat) (prev? : Option Decl) (ns : List Node),
      printList style c level prev? (renewList p ns) = printList style c level prev? ns
  | _, _, _, [] => rfl
  | c, level, prev?, n :: ns => by
    rw [renewList, printList_cons, printList_cons, renew_decl, print_renew style level n,
      printList_renew style c level _ ns]

end

end Node

namespace Piece

/-- Generated text aside, the pieces are the tokens from one index up to another in their order. -/
inductive Runs : Nat → List Piece → Nat → Prop
  | nil {i} : Runs i [] i
  | copy {i j k ps} : i ≤ j → Runs j ps k → Runs i (.copy i j :: ps) k
  | trimmed {i j k ps} : i ≤ j → Runs j ps k → Runs i (.trimmed i j :: ps) k
  | made {i k t ps} : Runs i ps k → Runs i (.made t :: ps) k

variable {i j k : Nat} {ps qs : List Piece}

theorem Runs.append (h : Runs i ps j) (h' : Runs j qs k) : Runs i (ps ++ qs) k := by
  induction h with
  | nil => exact h'
  | copy hle _ ih => exact .copy hle (ih h')
  | trimmed hle _ ih => exact .trimmed hle (ih h')
  | made _ ih => exact .made (ih h')

theorem Runs.le (h : Runs i ps j) : i ≤ j := by
  induction h with
  | nil => exact Nat.le_refl _
  | copy hle _ ih | trimmed hle _ ih => exact Nat.le_trans hle ih
  | made _ ih => exact ih

theorem Runs.count_eq (h : Runs i ps j) (k : Nat) : count k ps = if i ≤ k ∧ k < j then 1 else 0 := by
  induction h with
  | nil =>
    rw [if_neg (by omega)]
    rfl
  | copy hle h ih => rw [count_cons, count_copy, ih, count_span hle h.le]
  | trimmed hle h ih => rw [count_cons, count_trimmed, ih, count_span hle h.le]
  | made _ ih => rw [count_cons, count_made, Nat.zero_add, ih]

end Piece

namespace Source

/-- `text` is the children one behind the other and the end of the body, where `i` is the end of the last
child that was kept. A replaced child is generated code; any other stands behind all that the source
has from `i` up to it. -/
inductive Refilled (s : Source) (style : Style) (p : Nat → Bool) (c : Container) (level stop : Nat) :
    Nat → Option Decl → Bool → List Node → Text → Prop
  | nil {i prev? kept} :
      Refilled s style p c level stop i prev? kept [] (s.tail style c level ⟨i, none, kept⟩ stop)
  | made {i prev? kept n ns rest} : p n.id = true →
      Refilled s style p c level stop i (some n.decl) false ns rest →
      Refilled s style p c level stop i prev? kept (n :: ns)
        (style.newlines (c.gap prev? n.decl) ++ style.indentation (c.childLevel level) ++
          n.print style (c.childLevel level) ++ rest)
  | kept {i prev? kept n a ns rest} : p n.id = false → n.origin = .anchored a → i ≤ a.span.start →
      Refilled s style p c level stop a.span.stop (some n.decl) true ns rest →
      Refilled s style p c level stop i prev? kept (n :: ns)
        (s.tokens.between i a.span.start ++ s.print style (c.childLevel level) (n.renew p) ++ rest)

variable {s : Source} {style : Style} {p : Nat → Bool} {c : Container} {level stop i last : Nat}
  {cur : Cursor} {n m : Node} {ns before : List Node} {a : Anchor}

theorem print_renewed (h : p n.id = true) (level : Nat) :
    s.print style level (n.renew p) = n.print style level := by
  rw [print_new (Node.anchor?_renew h), Node.print_renew]

/-! A child and the cursor in front of it. -/

/-- The printer is behind `before` and in front of `ns`, the children of `m`; what it printed has the
numbers that were read. -/
structure Amid (s : Source) (m : Node) (last : Nat) (before : List Node) (cur : Cursor)
    (ns : List Node) : Prop where
  children : m.children = before ++ ns
  prev : cur.prev?.map Node.id = before.getLast?.map Node.id
  siblings : ∃ j, cur.index ≤ j ∧ Siblings s.tokens j ns last

theorem Amid.start (hc : m.children = ns) (hs : Siblings s.tokens i ns last) :
    s.Amid m last [] ⟨i, none, true⟩ ns :=
  ⟨hc, rfl, i, Nat.le_refl i, hs⟩

theorem Amid.child (h : s.Amid m last before cur (n :: ns)) :
    ∃ a, n.origin = .anchored a ∧ cur.index ≤ a.span.start ∧ a.span.start < a.span.stop ∧
      Siblings s.tokens a.span.stop ns last := by
  obtain ⟨j, hj, hs⟩ := h.siblings
  cases hs with
  | cons ho hi _ hpl hs => exact ⟨_, ho, Nat.le_trans hj hi, hpl.start_lt ho, hs⟩

/-- Behind a replaced child the cursor is where it was. -/
theorem Amid.made (h : s.Amid m last before cur (n :: ns)) :
    s.Amid m last (before ++ [n]) ⟨cur.index, some (n.renew p), false⟩ ns := by
  obtain ⟨a, -, hstart, hlt, hs⟩ := h.child
  exact ⟨by simp [h.children], by simp, _, Nat.le_trans hstart (Nat.le_of_lt hlt), hs⟩

theorem Amid.kept (h : s.Amid m last before cur (n :: ns)) (ho : n.origin = .anchored a) :
    s.Amid m last (before ++ [n]) ⟨a.span.stop, some (n.renew p), true⟩ ns := by
  obtain ⟨b, hb, -, -, hs⟩ := h.child
  obtain rfl := Origin.anchored.inj (hb.symm.trans ho)
  exact ⟨by simp [h.children], by simp, _, Nat.le_refl _, hs⟩

theorem keeps_new (h : p n.id = true) (parent : Nat) : s.keeps parent cur (n.renew p) = false := by
  rw [keeps, Node.renew_new h]

theorem pass_new (h : p n.id = true) :
    cur.pass false (n.renew p) = ⟨cur.index, some (n.renew p), false⟩ := by
  rw [Cursor.pass, Node.renew_new h]
  rfl

theorem gap_new (n : Node) : s.gap style c level false cur n =
    style.newlines (c.gap (cur.prev?.map Node.decl) n.decl) ++ style.indentation level := by
  simp [gap]

/-- A child that was not replaced keeps its place: the one in front of it has the number it had. -/
theorem Amid.keeps (h : s.Amid m last before cur (n :: ns)) (hd : s.tree.root.Distinct)
    (hm : m ∈ s.tree.root.subnodes) (hn : p n.id = false) :
    s.keeps m.id cur (n.renew p) = true := by
  obtain ⟨a, ho, hstart, -, -⟩ := h.child
  have hpred : s.predecessor? m.id (n.renew p).id = some (before.getLast?.map Node.id) := by
    rw [Node.renew_id]
    exact predecessor?_child hd hm h.children
  exact keeps_of_predecessor ((Node.renew_kept hn).trans ho) hstart hpred h.prev

theorem pass_kept (h : p n.id = false) (ho : n.origin = .anchored a) (hi : cur.index ≤ a.span.stop) :
    cur.pass true (n.renew p) = ⟨a.span.stop, some (n.renew p), true⟩ := by
  rw [Cursor.pass, Node.renew_kept h, ho]
  simp only [Origin.anchor?, Nat.max_eq_right hi]

theorem gap_kept (h : p n.id = false) (ho : n.origin = .anchored a) :
    s.gap style c level true cur (n.renew p) = s.tokens.between cur.index a.span.start := by
  simp only [gap, Node.renew_kept h, ho, Origin.anchor?]

/-- The printer goes over the children of `m` with a cursor that only the kept ones move. -/
theorem Amid.refilled (h : s.Amid m last before cur ns) (hd : s.tree.root.Distinct)
    (hm : m ∈ s.tree.root.subnodes) :
    s.Refilled style p c level stop cur.index (cur.prev?.map Node.decl) cur.kept ns
      (s.printList style c level m.id stop cur (Node.renewList p ns)) := by
  induction ns generalizing before cur with
  | nil => exact .nil
  | cons n ns ih =>
    obtain ⟨a, ho, hstart, hlt, -⟩ := h.child
    rw [Node.renewList, printList]
    cases hn : p n.id with
    | true =>
      have hrest := ih (h.made (p := p))
      rw [keeps_new hn, pass_new hn, print_renewed hn, gap_new, Node.renew_decl]
      rw [Option.map_some, Node.renew_decl] at hrest
      exact .made hn hrest
    | false =>
      have hrest := ih (h.kept (p := p) ho)
      rw [h.keeps hd hm hn, pass_kept hn ho (by omega), gap_kept hn ho]
      rw [Option.map_some, Node.renew_decl] at hrest
      exact .kept hn ho hstart hrest

/-! The source between the generated texts. -/

theorem runs_tailPieces (h : cur.index ≤ stop) :
    Piece.Runs cur.index (s.tailPieces style c level cur stop) stop := by
  unfold tailPieces
  split
  · exact .made (.trimmed h .nil)
  · exact .copy h .nil

/-- What is printed of a node that was not replaced holds all its tokens. -/
def Whole (s : Source) (style : Style) (p : Nat → Bool) (n : Node) : Prop :=
  ∀ level a, p n.id = false → n.origin = .anchored a →
    Piece.Runs a.span.start (s.pieces style level (n.renew p)) a.span.stop

theorem Amid.runs (h : s.Amid m last before cur ns) (hd : s.tree.root.Distinct)
    (hm : m ∈ s.tree.root.subnodes) (hns : ∀ n ∈ ns, s.Whole style p n) (hstop : last ≤ stop) :
    Piece.Runs cur.index (s.piecesList style c level m.id stop cur (Node.renewList p ns)) stop := by
  induction ns generalizing before cur with
  | nil =>
    obtain ⟨j, hj, hs⟩ := h.siblings
    cases hs
    exact runs_tailPieces (Nat.le_trans hj hstop)
  | cons n ns ih =>
    obtain ⟨hwhole, hns⟩ := List.forall_mem_cons.1 hns
    obtain ⟨a, ho, hstart, hlt, -⟩ := h.child
    rw [Node.renewList, piecesList]
    cases hn : p n.id with
    | true =>
      rw [keeps_new hn, pass_new hn, pieces_new (Node.anchor?_renew hn)]
      exact .made (.made (ih h.made hns))
    | false =>
      have hgap : s.gapPiece style c (c.childLevel level) true cur (n.renew p) =
          .copy cur.index a.span.start := by
        simp only [gapPiece, Node.renew_kept hn, ho, Origin.anchor?]
      rw [h.keeps hd hm hn, pass_kept hn ho (by omega), hgap]
      exact .copy hstart ((hwhole _ a hn ho).append (ih (h.kept ho) hns))

theorem whole_of_placed (style : Style) (hd : s.tree.root.Distinct) (h : Placed s.tokens n) :
    n ∈ s.tree.root.subnodes → s.Whole style p n := by
  induction h using Placed.induct
    (Q := fun _ ns _ _ => (∀ n ∈ ns, n ∈ s.tree.root.subnodes) → ∀ n ∈ ns, s.Whole style p n) with
  | leaf _ hlt _ =>
    intro _ level a h ho
    cases ho
    rw [pieces_leaf (by rw [Node.renew_kept h]; rfl)]
    exact .copy (Nat.le_of_lt hlt) .nil
  | @container id decl span body children last hk hs he ih =>
    intro hn level a h ho
    cases ho
    have hc := ih fun c hc => Node.mem_subnodes_of_child hc hn
    have hinner : Piece.Runs body.start (s.piecesList style (.ofDecl decl) level id body.stop
        ⟨body.start, none, true⟩ (Node.renewList p children)) body.stop :=
      (Amid.start rfl hs).runs hd hn hc he.last_le
    rw [pieces_container (by rw [Node.renew_kept h]; rfl), Node.renew_decl, Node.renew_id,
      Node.renew_children]
    exact .copy he.start_le (hinner.append (.copy he.stop_le .nil))
  | nil => exact absurd ‹_ ∈ []› List.not_mem_nil
  | cons _ _ _ _ _ ihn ihns =>
    rename_i hmem n hn
    rcases List.mem_cons.1 hn with rfl | hn
    · exact ihn (hmem _ List.mem_cons_self)
    · exact ihns (fun m hm => hmem m (List.mem_cons_of_mem _ hm)) n hn

/-- What is printed when all nodes whose numbers pass a test are replaced. -/
structure Replaces (s : Source) (style : Style) (p : Nat → Bool) : Prop where
  /-- A replaced node is generated code, whatever is replaced inside of it. -/
  made : ∀ n ∈ s.tree.root.subnodes, p n.id = true → ∀ level,
    s.print style level (n.renew p) = n.print style level
  /-- A node with nothing replaced inside of it is printed as before. -/
  kept : ∀ n ∈ s.tree.root.subnodes, (∀ m ∈ n.subnodes, p m.id = false) → ∀ level,
    s.print style level (n.renew p) = s.print style level n
  /-- The body of a node that stays shows its children in their order. -/
  bodies : ∀ n ∈ s.tree.root.subnodes, p n.id = false →
    ∀ span body, n.origin = .anchored ⟨span, some body⟩ → ∀ level, ∃ inner,
      s.Refilled style p (.ofDecl n.decl) level body.stop body.start none true n.children inner ∧
      s.print style level (n.renew p) = s.tokens.between span.start body.start ++ inner ++
        s.tokens.between body.stop span.stop
  text : (s.pieces style 0 (s.tree.root.renew p)).flatMap (Piece.text s.tokens) =
    s.print style 0 (s.tree.root.renew p)
  /-- Around the generated code stands the whole source. -/
  whole : Piece.Runs 0 (s.pieces style 0 (s.tree.root.renew p)) s.tokens.size
  /-- So the tokens of replaced nodes are printed like all others. -/
  once : ∀ k < s.tokens.size, Piece.count k (s.pieces style 0 (s.tree.root.renew p)) = 1

end Source

/-- A node that is replaced is printed as generated code, and no sibling changes; but its own text is
printed too, with what the source has in front of the next sibling that stays or at the end of the
body. -/
theorem print_replaced {text : Text} {s : Source} (h : Source.parse text = .ok s) (style : Style)
    {p : Nat → Bool} (hroot : p s.tree.root.id = false) : s.Replaces style p := by
  have hf := Source.faithful_of_parse h
  obtain ⟨body, ho⟩ := Source.root_origin h
  have hwhole : Piece.Runs 0 (s.pieces style 0 (s.tree.root.renew p)) s.tokens.size :=
    Source.whole_of_placed style hf.distinct hf.placed (Node.self_mem_subnodes _) 0 _ hroot ho
  refine ⟨fun n _ hn level => Source.print_renewed hn level,
    fun n _ hn level => by rw [Node.renew_eq_self n hn], fun n hmem hn span body ha level => ?_,
    Source.text_pieces 0 _, hwhole, fun k hk => ?_⟩
  · cases hf.placed.of_mem_subnodes n hmem with
    | leaf => cases ha
    | @container id decl _ _ children last _ hs he =>
      cases ha
      refine ⟨_, (Source.Amid.start rfl hs).refilled hf.distinct hmem, ?_⟩
      rw [Source.print_container (by rw [Node.renew_kept hn]; rfl), Node.renew_decl, Node.renew_id,
        Node.renew_children]
  · rw [hwhole.count_eq, if_pos ⟨Nat.zero_le k, hk⟩]

/-- An import between two that stay. -/
theorem print_replaced_import : ∃ s, Source.parse "<?php use A; use B; use C;" = .ok s ∧
    s.Replaces {} (· = 1) ∧
    s.print {} 0 (s.tree.root.renew (· = 1)) = "<?php use A;\nuse B; use B; use C;".toList := by
  have hrun : (Source.parse "<?php use A; use B; use C;").toOption.any (fun s =>
      decide (s.tree.root.id = 3 ∧
        s.print {} 0 (s.tree.root.renew (· = 1)) = "<?php use A;\nuse B; use B; use C;".toList)) =
      true := by
    decide +kernel
  obtain ⟨s, hs, hrun⟩ := Steps.exists_of_any hrun
  obtain ⟨hroot, hprint⟩ := of_decide_eq_true hrun
  exact ⟨s, hs, print_replaced hs {} (by rw [hroot]; rfl), hprint⟩

/-- The text of a replaced class stands behind the class that is printed in its place. -/
theorem replaced_printed_twice : ∃ s n a, Source.parse "<?php class A \x7b\x7d" = .ok s ∧
    s.tree.root.at? [0] = some n ∧ n.id ≠ s.tree.root.id ∧ n.origin = .anchored a ∧
    s.print {} 0 (s.tree.root.renew (· = n.id)) = "<?php \nclass A\n\x7b\n\x7dclass A \x7b\x7d" ∧
    ¬∀ k, a.span.start ≤ k → k < a.span.stop →
      Piece.count k (s.pieces {} 0 (s.tree.root.renew (· = n.id))) = 0 := by
  have hrun : (Source.parse "<?php class A \x7b\x7d").toOption.any (fun s =>
      (s.tree.root.at? [0]).any fun n => decide (n.id ≠ s.tree.root.id ∧
        n.origin = .anchored ⟨⟨1, 7⟩, some ⟨6, 6⟩⟩ ∧
        s.print {} 0 (s.tree.root.renew (· = n.id)) = "<?php \nclass A\n\x7b\n\x7dclass A \x7b\x7d" ∧
        Piece.count 1 (s.pieces {} 0 (s.tree.root.renew (· = n.id))) ≠ 0)) = true := by
    decide +kernel
  obtain ⟨s, hs, hrun⟩ := Steps.exists_of_any hrun
  obtain ⟨n, hn, hrun⟩ := (Option.any_eq_true _ _).1 hrun
  obtain ⟨hid, ho, hprint, hcount⟩ := of_decide_eq_true hrun
  exact ⟨s, n, _, hs, hn, hid, ho, hprint, fun h => hcount (h 1 (by decide) (by decide))⟩

end PhpGraft
