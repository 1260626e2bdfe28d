import PhpGraft.Editor
import PhpGraft.Proofs.Numbering
import PhpGraft.Proofs.Steps

/-!
Printing a tree as it was read gives back its source. Every child keeps its place: it stands behind
the sibling it was read behind, at an index that is not yet passed.
-/
namespace PhpGraft

theorem Node.predecessor?_append {id : Nat} {is js : List Nat} (h : id ∉ is) (prev? : Option Nat) :
    predecessor? id prev? (is ++ id :: js) = some (is.getLast?.or prev?) := by
  induction is generalizing prev? with
  | nil => simp [predecessor?]
  | cons i is ih =>
    have hne : i ≠ id := fun he => h (he ▸ List.mem_cons_self)
    rw [List.cons_append, predecessor?, if_neg hne, ih (fun hm => h (List.mem_cons_of_mem _ hm)),
      List.getLast?_cons]
    cases is.getLast? <;> rfl

namespace Source

variable {s : Source} {style : Style} {level i last stop : Nat} {c : Container}

theorem predecessor?_child {p n : Node} {before behind : List Node} (hd : s.tree.root.Distinct)
    (hp : p ∈ s.tree.root.subnodes) (hc : p.children = before ++ n :: behind) :
    s.predecessor? p.id n.id = some (before.getLast?.map Node.id) := by
  have hn := hd.children hp
  rw [hc, List.map_append, List.map_cons, List.nodup_append] at hn
  rw [predecessor?, hd.find? hp, Option.bind_some, hc, List.map_append, List.map_cons,
    Node.predecessor?_append (fun hm => hn.2.2 _ hm _ List.mem_cons_self rfl), List.getLast?_map,
    Option.or_none]

theorem keeps_of_predecessor {p n : Node} {cur : Cursor} {a : Anchor} {prev? : Option Nat}
    (ho : n.origin = .anchored a) (hi : cur.index ≤ a.span.start)
    (hpred : s.predecessor? p.id n.id = some prev?) (hprev : cur.prev?.map Node.id = prev?) :
    s.keeps p.id cur n = true := by
  simp [keeps, ho, hi, hpred, hprev]

/-- A child that keeps its place is printed behind all that stood in front of it. -/
theorem printList_cons_kept {p n : Node} {ns : List Node} {prev? : Option Node} {kept : Bool}
    {a : Anchor} (ho : n.origin = .anchored a) (hi : i ≤ a.span.start)
    (hle : a.span.start ≤ a.span.stop)
    (hk : s.keeps p.id ⟨i, prev?, kept⟩ n = true) :
    s.printList style c level p.id stop ⟨i, prev?, kept⟩ (n :: ns) =
      s.tokens.between i a.span.start ++ s.print style (c.childLevel level) n ++
        s.printList style c level p.id stop ⟨a.span.stop, some n, true⟩ ns := by
  rw [printList, hk]
  simp only [gap, Cursor.pass, ho, Origin.anchor?, Nat.max_eq_right (Nat.le_trans hi hle)]

/-- What is printed of the source where nothing was changed. -/
def Intact (s : Source) (style : Style) (n : Node) : Prop :=
  ∀ level a, n.origin = .anchored a → s.print style level n = s.tokens.slice a.span

theorem printList_append {p : Node} {before ns behind extra : List Node} {prev? : Option Node}
    (hd : s.tree.root.Distinct) (hp : p ∈ s.tree.root.subnodes)
    (hc : p.children = before ++ ns ++ behind) (hs : Siblings s.tokens i ns last)
    (hprev : prev?.map Node.id = before.getLast?.map Node.id)
    (hn : ∀ n ∈ ns, s.Intact style n) :
    s.printList style c level p.id stop ⟨i, prev?, true⟩ (ns ++ extra) =
      s.tokens.between i last ++
        s.printList style c level p.id stop ⟨last, ns.getLast?.or prev?, true⟩ extra := by
  induction ns generalizing i before prev? with
  | nil =>
    cases hs
    rw [Tokens.between_self]
    rfl
  | cons n ns ih =>
    cases hs with
    | @cons _ _ a _ _ ho hi hl hpl hs =>
      have hlt := hpl.start_lt ho
      have hpred := predecessor?_child hd hp
        (show p.children = before ++ n :: (ns ++ behind) by simp [hc])
      have hk : s.keeps p.id ⟨i, prev?, true⟩ n = true := keeps_of_predecessor ho hi hpred hprev
      have hnext : p.children = (before ++ [n]) ++ ns ++ behind := by simp [hc]
      rw [List.cons_append, printList_cons_kept ho hi (Nat.le_of_lt hlt) hk,
        hn n List.mem_cons_self _ a ho,
        ih hnext hs (by simp)
          (fun m hm => hn m (List.mem_cons_of_mem _ hm))]
      have hle := Nat.le_trans (Nat.le_of_lt hlt) hs.le
      rw [← Tokens.between_append hi hle, ← Tokens.between_append (Nat.le_of_lt hlt) hs.le,
        Tokens.slice, List.getLast?_cons]
      simp only [List.append_assoc]
      cases ns.getLast? <;> rfl

/-- A node of the source that was not changed prints as its tokens. -/
theorem intact_of_placed (hd : s.tree.root.Distinct) {n : Node} (h : Placed s.tokens n) :
    n ∈ s.tree.root.subnodes → s.Intact style n := by
  induction h using Placed.induct
    (Q := fun _ ns _ _ => (∀ n ∈ ns, n ∈ s.tree.root.subnodes) →
      ∀ n ∈ ns, s.Intact style n) with
  | leaf =>
    intro _ level a ho
    cases ho
    rw [print]
    rfl
  | @container id decl span body children last hk hs he ih =>
    intro hn level a ho
    cases ho
    have hc := ih fun c hc => Node.mem_subnodes_of_child hc hn
    have hlist : s.printList style (.ofDecl decl) level id body.stop ⟨body.start, none, true⟩
        (children ++ []) = _ := printList_append hd hn
      (show children = [] ++ children ++ [] by simp) hs rfl hc
    have htail : s.tail style (.ofDecl decl) level ⟨last, children.getLast?.or none, true⟩ body.stop =
        s.tokens.between last body.stop := by
      simp [tail]
    rw [List.append_nil, printList, htail, Tokens.between_append hs.le he.last_le] at hlist
    rw [print]
    simp only [Origin.anchor?]
    rw [hlist, Tokens.between_append he.start_le (Nat.le_trans hs.le he.last_le),
      Tokens.between_append (Nat.le_trans he.start_le (Nat.le_trans hs.le he.last_le)) he.stop_le]
    rfl
  | nil => exact absurd ‹_ ∈ []› List.not_mem_nil
  | cons _ _ _ _ _ ihn ihns =>
    rename_i hmem n hn
    rcases List.mem_cons.1 hn with rfl | hn
    · exact ihn (hmem _ List.mem_cons_self)
    · exact ihns (fun m hm => hmem m (List.mem_cons_of_mem _ hm)) n hn

theorem root_body {text : Text} (h : Source.parse text = .ok s) :
    ∃ body, s.tokens.codeSpan? = some body ∧
      s.tree.root.origin = .anchored ⟨⟨0, s.tokens.size⟩, some body⟩ := by
  unfold Source.parse at h
  split at h
  · cases h
  split at h
  · cases h
  rename_i hf
  unfold Tokens.file at hf
  split at hf
  · cases hf
  rename_i body hb
  split at hf
  · cases hf
  cases hf
  cases h
  exact ⟨body, hb, number_origin ..⟩

theorem root_origin {text : Text} (h : Source.parse text = .ok s) :
    ∃ body, s.tree.root.origin = .anchored ⟨⟨0, s.tokens.size⟩, some body⟩ :=
  (root_body h).imp fun _ => And.right

theorem root_decl {text : Text} (h : Source.parse text = .ok s) : s.tree.root.decl = .file := by
  unfold Source.parse at h
  split at h
  · cases h
  split at h
  · cases h
  rename_i hf
  unfold Tokens.file at hf
  split at hf
  · cases hf
  split at hf
  · cases hf
  cases hf
  cases h
  exact number_decl ..

theorem print_of_parse {text : Text} (h : Source.parse text = .ok s) (style : Style) :
    s.print style 0 s.tree.root = text := by
  have hf := faithful_of_parse h
  obtain ⟨body, ho⟩ := root_origin h
  rw [intact_of_placed hf.distinct hf.placed (Node.self_mem_subnodes _) 0 _ ho, Tokens.slice,
    Tokens.between_size, hf.spells]

end Source

namespace Editor

/-- An editor that was just opened. -/
theorem parse_eq {text : Text} {style : Style} {e : Editor} (h : parse text style = .ok e) :
    ∃ s, Source.parse text = .ok s ∧ e = ⟨s, s.tree, style.matching text⟩ := by
  unfold parse at h
  split at h
  · cases h
  · cases h
    exact ⟨_, ‹_›, rfl⟩

end Editor

/-- Without operations the rendered text is the text that was read, and so is the preserving print
of any parsed tree in any style. -/
theorem render_parse (text : Text) (style : Style) :
    (∀ e, Editor.parse text style = .ok e → e.render = text) ∧
      ∀ s, Source.parse text = .ok s → s.print style 0 s.tree.root = text := by
  refine ⟨fun e h => ?_, fun s h => Source.print_of_parse h style⟩
  obtain ⟨s, hs, rfl⟩ := Editor.parse_eq h
  exact Source.print_of_parse hs _

/-- Inline text, a namespace with braces, comments and mixed line breaks. -/
theorem render_parse_mixed : ∃ e,
    Editor.parse "<i>\r\n<?php\r\nnamespace A \x7b class B \x7b\n\tuse T; // t\n /* z */ \x7d \x7d\n?>\r\nx" =
      .ok e ∧
      e.render =
        "<i>\r\n<?php\r\nnamespace A \x7b class B \x7b\n\tuse T; // t\n /* z */ \x7d \x7d\n?>\r\nx" := by
  have hparse : (Editor.parse
      "<i>\r\n<?php\r\nnamespace A \x7b class B \x7b\n\tuse T; // t\n /* z */ \x7d \x7d\n?>\r\nx").isOk =
      true := by
    decide +kernel
  obtain ⟨e, h⟩ := Steps.exists_of_isOk hparse
  exact ⟨e, h, (render_parse _ _).1 e h⟩

end PhpGraft
