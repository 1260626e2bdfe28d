import PhpGraft.Proofs.Endings
import PhpGraft.Proofs.Retention

/-!
Reading a scope whose imports were gathered. What is printed of its children is read one by one, as
the imports and then what was read of the others.
-/
namespace PhpGraft

namespace Node

variable {ns ms : List Node}

/-! Namespaces and classes. -/

/-- The namespaces and classes among nodes, wherever they were read. -/
def containers (ns : List Node) : List Node := (ns.map bare).filter (·.decl.isContainer)

theorem containers_append (ns ms : List Node) : containers (ns ++ ms) = containers ns ++ containers ms := by
  rw [containers, List.map_append, List.filter_append]
  rfl

theorem containers_of_bare (h : ns.map bare = ms.map bare) : containers ns = containers ms := by
  rw [containers, h]
  rfl

theorem containers_leaves (h : ∀ n ∈ ns, n.decl.isContainer = false) : containers ns = [] := by
  refine List.filter_eq_nil_iff.2 (List.forall_mem_map.2 fun n hn => ?_)
  rw [bare_decl, h n hn]
  exact Bool.false_ne_true

theorem containers_others (ns : List Node) : containers (others ns) = containers ns := by
  induction ns with
  | nil => rfl
  | cons n ns ih =>
    rw [← List.singleton_append, others_append, containers_append, containers_append, ih]
    congr 1
    cases h : n.isImport with
    | true =>
      rw [others, List.filter_cons_of_neg (by rw [h]; exact Bool.false_ne_true)]
      exact (containers_leaves (List.forall_mem_singleton.2 (not_isContainer_of_isImport h))).symm
    | false => rw [others, List.filter_cons_of_pos (by rw [h]; rfl), List.filter_nil]

theorem bare_detach (n : Node) : n.detach.bare = n.bare := by
  cases n
  rfl

end Node

namespace Tokens

open Lexer

variable {ts : Tokens} {p : Place} {i k last mid stop : Nat} {name gap : Text} {n : Node} {ns : List Node}
  {r : Node × Nat}

/-! New imports. -/

/-- The import behind white space. -/
def importPart (name gap : Text) : Part := ⟨gap, importOf name, [], .ofImportOf name⟩

theorem sound_importPart (hp : p ≠ .members) (hname : Name.isQualified name = true)
    (hgap : ∀ c ∈ gap, isSpace c = true) : (importPart name gap).Sound p where
  white := hgap
  phrase := phrase_import hp name
  closed := ⟨[⟨.name, "use"⟩, ⟨.whitespace, " "⟩, ⟨.name, name⟩], ';', rfl, rfl⟩
  reads := ⟨[], _, Skeleton.reads_word (by decide) hname (by rintro c ⟨⟩; rfl)
    (.cons (u := []) (scanCode_barrier rfl _) .nil)⟩
  solid := rfl
  calm := ⟨_, rfl, by decide⟩
  note := .inl rfl
  inside := by simp [importPart, importOf, TokenKind.isOutside]

theorem text_importPart (name gap : Text) :
    (importPart name gap).text = gap ++ Token.spell (importOf name) :=
  congrArg _ (List.append_nil _)

/-- A line ends at index `i`. -/
def BreaksAt (ts : Tokens) (i : Nat) : Prop := ts.between i ts.size = [] ∨ Breaks (ts.between i ts.size)

/-- The line break behind the import at `b` stays where it is, or the brace of `n` follows on its line. -/
def LeavesBreak (ts : Tokens) (n : Node) (b : Anchor) : Prop :=
  ts.BreaksAt b.span.stop ∨ Container.ofDecl n.decl = .block ∧
    ∀ body ∈ n.origin.anchor?.bind Anchor.body?, '\n' ∉ ts.between b.span.stop body.stop

/-- Where the last declaration of `n` ends with a line comment, the imports behind it leave a line break. -/
def Settled (ts : Tokens) (n : Node) : Prop :=
  ∀ m ∈ (Node.others n.children).getLast?, ∀ a ∈ m.origin.anchor?,
    ts.kind? (a.span.stop - 1) = some .lineComment →
      ∀ k ∈ n.children, k.isImport = true → ∀ b ∈ k.origin.anchor?, a.span.stop ≤ b.span.start →
        ts.LeavesBreak n b

instance (t : Text) : Decidable (Breaks t) :=
  decidable_of_iff (t.head? = some '\n' ∨ t.take 2 = ['\r', '\n']) <| by
    refine or_congr List.head?_eq_some_iff ⟨fun h => ⟨t.drop 2, ?_⟩, fun ⟨s, hs⟩ => hs ▸ rfl⟩
    rw [← List.take_append_drop 2 t, h]
    rfl

instance (ts : Tokens) (i : Nat) : Decidable (ts.BreaksAt i) :=
  inferInstanceAs (Decidable (ts.between i ts.size = [] ∨ Breaks (ts.between i ts.size)))

instance (ts : Tokens) (n : Node) (b : Anchor) : Decidable (ts.LeavesBreak n b) :=
  inferInstanceAs (Decidable (ts.BreaksAt b.span.stop ∨ Container.ofDecl n.decl = .block ∧
    ∀ body ∈ n.origin.anchor?.bind Anchor.body?, '\n' ∉ ts.between b.span.stop body.stop))

instance (ts : Tokens) (n : Node) : Decidable (ts.Settled n) :=
  inferInstanceAs (Decidable (∀ m ∈ (Node.others n.children).getLast?, ∀ a ∈ m.origin.anchor?,
    ts.kind? (a.span.stop - 1) = some .lineComment →
      ∀ k ∈ n.children, k.isImport = true → ∀ b ∈ k.origin.anchor?, a.span.stop ≤ b.span.start →
        ts.LeavesBreak n b))

/-! Rows. -/

theorem Quoted.anchor (h : ts.Quoted p stop mid n r) : ∃ a, n.origin = .anchored a ∧
    a.span = ⟨ts.startOf mid stop, (ts.finish stop r).2⟩ := by
  obtain ⟨body?, ho⟩ := h.origin
  exact ⟨_, ho, rfl⟩

theorem Quoted.not_isScope (h : ts.Quoted p stop mid n r) (himport : n.isImport = true) :
    r.1.decl.isScope = false := by
  rw [← Node.decl_of_bare h.bare]
  unfold Node.isImport at himport
  cases hd : n.decl with
  | scope =>
    rw [hd] at himport
    cases himport
  | _ => rfl

theorem Row.last_eq {last' : Nat} (h : ts.Row p stop i ns last) (hs : Siblings ts i ns last') :
    last = last' := by
  induction h with
  | nil =>
    cases hs
    rfl
  | cons hq _ ih =>
    cases hs with
    | cons ho _ _ _ hs =>
      obtain ⟨a, ho', ha⟩ := hq.anchor
      obtain rfl := Origin.anchored.inj (ho'.symm.trans ho)
      rw [ha] at hs
      exact ih hs

end Tokens

theorem Container.exists_gap (c : Container) (prev? : Option Decl) (next : Decl) :
    ∃ k, c.gap prev? next = k + 1 := by
  unfold gap
  split
  · split <;> exact ⟨_, rfl⟩
  · exact ⟨_, rfl⟩
  · exact ⟨_, rfl⟩

namespace Source

open Tokens Lexer

variable {s : Source} {text : Text} {style : Style} {c : Container} {level stop i last limit mid : Nat}
  {p : Place} {cur : Cursor} {x m : Node} {done is xs : List Node} {span body : Span} {r : Node × Nat}
  {gap : Text} {P : Part}

theorem print_detach (s : Source) (style : Style) (level : Nat) (n : Node) :
    s.print style level n.detach = s.print style level n := by
  rw [← text_pieces, ← text_pieces, pieces_detach]

theorem gap_of_keeps (c : Container) (level : Nat) (cur : Cursor) {n : Node} {a : Anchor}
    (ha : n.origin.anchor? = some a) :
    s.gap style c level true cur n = s.tokens.between cur.index a.span.start := by
  unfold gap
  rw [ha]

/-- What stands in front of a child that does not keep its place starts with a line break. -/
theorem breaks_gap (c : Container) (level : Nat) (cur : Cursor) (n : Node) :
    Breaks (s.gap style c level false cur n) := by
  obtain ⟨k, hk⟩ := c.exists_gap (cur.prev?.map Node.decl) n.decl
  rw [gap_new, hk, Skeleton.newlines_succ, List.append_assoc]
  exact Line.breaks_text style.lineEnding _

theorem print_import (s : Source) (style : Style) (level : Nat) {n : Node} {name : Text}
    (ho : n.origin = .synthesized) (hd : n.decl = .imports (.ofClass name)) :
    s.print style level n = Token.spell (importOf name) := by
  rw [print_new (congrArg Origin.anchor? ho), Node.print_eq, hd, spell_importOf, ← Import.print_ofClass]
  rfl

theorem passAll_concat (s : Source) (parent : Nat) (cur : Cursor) (ns : List Node) (n : Node) :
    s.passAll parent cur (ns ++ [n]) = (s.passAll parent cur ns).pass
      (s.keeps parent (s.passAll parent cur ns) n) n := by
  induction ns generalizing cur with
  | nil => rfl
  | cons m ns ih => exact ih _

theorem keeps_cases {parent : Nat} (hk : s.keeps parent cur x = true) : ∃ a, x.origin = .anchored a ∧
    cur.index ≤ a.span.start ∧ s.predecessor? parent x.id = some (cur.prev?.map Node.id) := by
  unfold keeps at hk
  split at hk
  · rename_i a ho
    obtain ⟨hle, hpred⟩ := Bool.and_eq_true_iff.1 hk
    exact ⟨a, ho, of_decide_eq_true hle, beq_iff_eq.1 hpred⟩
  · cases hk

/-- What is printed in front of each of the children. -/
def gaps (s : Source) (style : Style) (c : Container) (level parent : Nat) (cur : Cursor) :
    List Node → List Text
  | [] => []
  | n :: ns => s.gap style c (c.childLevel level) (s.keeps parent cur n) cur n ::
      gaps s style c level parent (cur.pass (s.keeps parent cur n) n) ns

theorem gaps_append {parent : Nat} (cur : Cursor) (ns ms : List Node) :
    s.gaps style c level parent cur (ns ++ ms) = s.gaps style c level parent cur ns ++
      s.gaps style c level parent (s.passAll parent cur ns) ms := by
  induction ns generalizing cur with
  | nil => rfl
  | cons n ns ih => exact congrArg (_ :: ·) (ih _)

/-- What is printed of children that others stand behind. -/
def printFront (s : Source) (style : Style) (c : Container) (level parent : Nat) (cur : Cursor) :
    List Node → Text
  | [] => []
  | n :: ns => s.gap style c (c.childLevel level) (s.keeps parent cur n) cur n ++
      (s.print style (c.childLevel level) n ++
        printFront s style c level parent (cur.pass (s.keeps parent cur n) n) ns)

theorem printList_front {parent : Nat} (cur : Cursor) (ns ms : List Node) :
    s.printList style c level parent stop cur (ns ++ ms) = s.printFront style c level parent cur ns ++
      s.printList style c level parent stop (s.passAll parent cur ns) ms := by
  induction ns generalizing cur with
  | nil => rfl
  | cons n ns ih =>
    rw [List.cons_append, printList, ih, printFront, passAll]
    simp only [List.append_assoc]

theorem length_gaps {parent : Nat} (cur : Cursor) (ns : List Node) :
    (s.gaps style c level parent cur ns).length = ns.length := by
  induction ns generalizing cur with
  | nil => rfl
  | cons n ns ih => exact congrArg Nat.succ (ih _)

theorem keeps_detach (s : Source) (parent : Nat) (cur : Cursor) (n : Node) :
    s.keeps parent cur n.detach = false := by
  obtain ⟨id, origin, decl, children⟩ := n
  cases origin <;> rfl

/-- Where the last child does not keep its place, a block has a line break behind it. -/
theorem newline_mem_tail (hk : cur.kept = false) : '\n' ∈ s.tail style .block level cur stop := by
  unfold tail
  dsimp only
  split
  · have hbreaks := Line.breaks_text style.lineEnding (style.indentation level ++ Text.trim
      (s.tokens.between cur.index stop))
    rw [List.append_assoc]
    exact hbreaks.mem
  · rename_i hif
    by_contra hno
    refine hif ?_
    simp [hk, hno]

namespace ClassScope

variable {sc : s.ClassScope}

/-- The entry `P` shows the child `x` of the arranged scope. -/
inductive Shows (sc : s.ClassScope) (p : Place) (stop i : Nat) : Node → Part → Prop
  | read {m x : Node} {mid : Nat} {r : Node × Nat} {gap : Text} : m ∈ sc.node.children →
      x = m ∨ x = m.detach → i ≤ mid → s.tokens.Quoted p stop mid m r →
      Shows sc p stop i x (s.tokens.entryPart mid stop r gap)
  | new {x : Node} {name gap : Text} : x.origin = .synthesized → x.decl = .imports (.ofClass name) →
      x.children = [] → Shows sc p stop i x (importPart name gap)

/-- The children of the scope were read one by one. -/
structure Rows (sc : s.ClassScope) (p : Place) (stop i last : Nat) : Prop where
  place : p ≠ .members
  coded : s.tokens.Coded i
  row : s.tokens.Row p stop i sc.node.children last

theorem print_quoted (hf : s.Faithful text) (hst : sc.Stands span body last) (hm : m ∈ sc.node.children)
    (hx : x = m ∨ x = m.detach) (hq : s.tokens.Quoted p stop mid m r) :
    s.print style level x = s.tokens.between (s.tokens.startOf mid stop) (s.tokens.finish stop r).2 := by
  have hprint : s.print style level x = s.print style level m := by
    rcases hx with rfl | rfl
    · rfl
    · exact print_detach ..
  obtain ⟨a, ho, ha⟩ := hq.anchor
  rw [hprint, intact_of_placed hf.distinct (hst.siblings.placed m hm)
    (Node.mem_subnodes_of_child hm (node_mem sc)) level a ho, Tokens.slice, ha]

/-- An entry has the text of the child that it shows behind the white space in front of it. -/
theorem Shows.text_eq (hf : s.Faithful text) (hst : sc.Stands span body last) (h : sc.Shows p stop i x P)
    (style : Style) (level : Nat) : P.text = P.gap ++ s.print style level x := by
  cases h with
  | read hm hx _ hq =>
    rw [Row.text_entryPart hq.entry, print_quoted hf hst hm hx hq]
    rfl
  | new ho hd _ =>
    rw [text_importPart, print_import s style level ho hd]
    rfl

theorem flatMap_text {xs : List Node} {ps : List Part} (hf : s.Faithful text)
    (hst : sc.Stands span body last) (h : List.Forall₂ (sc.Shows p stop i) xs ps) {parent : Nat}
    (hgaps : ps.map Part.gap = s.gaps style c level parent cur xs) :
    ps.flatMap Part.text = s.printFront style c level parent cur xs := by
  induction h generalizing cur with
  | nil => rfl
  | cons hP _ ih =>
    obtain ⟨hgap, hgaps⟩ := List.cons.inj hgaps
    rw [List.flatMap_cons, hP.text_eq hf hst style (c.childLevel level), hgap, ih hgaps, printFront]
    simp only [List.append_assoc]

/-- The last child that is no import comes last. -/
theorem getLast?_arranged {y : Node} (hy : (sc.arranged is).getLast? = some y) :
    ∃ m, (Node.others sc.node.children).getLast? = some m ∧ (y = m ∨ y = m.detach) := by
  have hcls : Node.others (sc.cls :: sc.behind) = sc.cls :: Node.others sc.behind := by
    simp [Node.others, Node.isImport_of_isClass sc.isClass]
  rw [arranged, List.getLast?_append_of_ne_nil _ (by simp),
    List.getLast?_append_of_ne_nil _ (List.cons_ne_nil _ _)] at hy
  rw [sc.split, Node.others_append, hcls, List.getLast?_append_of_ne_nil _ (List.cons_ne_nil _ _)]
  cases hb : Node.others sc.behind with
  | nil =>
    rw [hb] at hy
    cases hy
    exact ⟨_, rfl, .inr rfl⟩
  | cons n ns =>
    rw [hb, List.getLast?_cons_cons] at hy
    rw [List.getLast?_cons_cons]
    exact ⟨y, hy, .inl rfl⟩

section

variable (hf : s.Faithful text) (hst : sc.Stands span body last) (hr : sc.Rows p stop body.start last)
  (h : sc.Imports limit is)
include hf hst hr h

/-- A child of the arranged scope, set off by any white space. -/
theorem exists_shows (hx : x ∈ sc.arranged is) (level : Nat) (hgap : ∀ c ∈ gap, isSpace c = true) :
    ∃ P, sc.Shows p stop body.start x P ∧ P.Sound p ∧ P.gap = gap ∧
      P.text = gap ++ s.print style level x := by
  rcases h.cases hx with ⟨m, hm, hxm, -⟩ | ⟨id, name, -, -, hname, rfl⟩
  · obtain ⟨mid, r, hmid, -, hq⟩ := hr.row.quoted hm
    refine ⟨s.tokens.entryPart mid stop r gap, .read hm hxm hmid hq, hq.sound hr.coded hmid hgap, rfl, ?_⟩
    rw [Row.text_entryPart hq.entry, print_quoted hf hst hm hxm hq]
  · refine ⟨importPart name gap, .new rfl rfl rfl, sound_importPart hr.place hname hgap, rfl, ?_⟩
    rw [text_importPart, print_import s style level rfl rfl]

/-- The entry of the child that was read in front of another one may stand in front of that. -/
theorem Shows.fronts {before behind : List Node} {P₀ : Part} {x₀ y : Node}
    (hshow : sc.Shows p stop body.start x₀ P₀) (hx₀ : x₀ ∈ sc.arranged is)
    (hc : sc.node.children = before ++ behind)
    (hy : before.getLast? = some y) (hid : y.id = x₀.id) (hmid : Siblings s.tokens body.start before mid) :
    P₀.Fronts s.tokens stop mid := by
  have hsel := h.selected hf hst
  have hymem : y ∈ sc.node.children := by
    rw [hc]
    exact List.mem_append_left _ (List.mem_of_getLast? hy)
  cases hshow with
  | @read m _ mid₀ r gap hm hxm hmid₀ hq =>
    have hx₀m : x₀.id = m.id := by rcases hxm with rfl | rfl <;> rfl
    obtain rfl := List.inj_on_of_nodup_map hsel.nodup hymem hm (hid.trans hx₀m)
    obtain ⟨a, ho, ha⟩ := hq.anchor
    have hstop := hmid.last_eq
    rw [Node.lastStop, hy, Option.bind_some, ho] at hstop
    obtain rfl : mid = (s.tokens.finish stop r).2 := by
      rw [hstop]
      exact congrArg Span.stop ha
    exact hq.entry.fronts hr.coded hmid₀ gap
  | new ho _ _ =>
    have hread : y.id ∈ sc.node.children.map Node.id := List.mem_map_of_mem hymem
    rw [hid] at hread
    exact absurd hread (hsel.new x₀ hx₀ (by rw [ho]; rfl))

/-- A child that keeps its place, behind the white space that it was read behind. -/
theorem exists_shows_kept (hdone : sc.arranged is = done ++ x :: xs) (hw : Walk body.start done cur)
    (hk : s.keeps sc.node.id cur x = true) (level level' : Nat) :
    ∃ P, sc.Shows p stop body.start x P ∧ P.Sound p ∧ P.gap = s.gap style c level' true cur x ∧
      P.text = s.gap style c level' true cur x ++ s.print style level x ∧
      ∀ P₀ x₀, done.getLast? = some x₀ → sc.Shows p stop body.start x₀ P₀ → P₀.Links P := by
  have hsel := h.selected hf hst
  have hx : x ∈ sc.arranged is := by rw [hdone]; simp
  obtain ⟨a, ho, hle, hpred⟩ := keeps_cases hk
  rw [hdone] at hsel
  obtain ⟨before, hslot⟩ := hw.index_eq hsel ho hk
  obtain ⟨m, behind, hc, hid, hma, -⟩ := hslot.split
  obtain ⟨hm, rfl⟩ : m ∈ sc.node.children ∧ x = m := by
    have hm : m ∈ sc.node.children := by rw [hc]; simp
    refine ⟨hm, ?_⟩
    rcases h.cases hx with ⟨m', hm', rfl | rfl, -⟩ | ⟨id, name, -, -, -, rfl⟩
    · exact List.inj_on_of_nodup_map hsel.nodup hm' hm hid.symm
    · obtain ⟨b, hb⟩ := (hst.siblings.placed m' hm').anchor
      rw [Node.detach, hb] at ho
      cases ho
    · cases ho
  have hrow := hr.row
  rw [hc] at hrow
  obtain ⟨mid, hbefore, hrest⟩ := hrow.split
  obtain rfl := hbefore.last_eq hslot.front
  cases hrest with
  | @cons _ _ r _ _ hq _ =>
    obtain ⟨a', ho', ha'⟩ := hq.anchor
    obtain rfl := Origin.anchored.inj (ho.symm.trans ho')
    have hmid := hbefore.le
    have hspace := (hr.coded.blank hmid hq.entry.le_start (loose_leading s.tokens cur.index stop) (by
      have := hq.entry.start_lt
      have := hq.entry.le_stop
      have := hq.entry.brink.le_size
      omega)).2
    have hgap : s.gap style c level' true cur x =
        s.tokens.between cur.index (s.tokens.startOf cur.index stop) := by
      rw [gap_of_keeps _ _ _ (congrArg Origin.anchor? ho), ha']
    refine ⟨_, .read hm (.inl rfl) hmid hq, hq.sound hr.coded hmid hspace, hgap.symm, ?_,
      fun P₀ x₀ hx₀ hshow => ?_⟩
    · rw [Row.text_entryPart hq.entry, print_quoted hf hst hm (.inl rfl) hq, hgap]
    · rw [← hid, hsel.predecessor before x behind hc, hw.prev, hx₀, Option.map_some, Option.some.injEq]
        at hpred
      obtain ⟨y, hy, hyid⟩ := Option.map_eq_some_iff.1 hpred
      refine (hshow.fronts hf hst hr h ?_ hc hy hyid hslot.front).links hr.coded hmid hq.entry
      rw [hdone]
      exact List.mem_append_left _ (List.mem_of_getLast? hx₀)

theorem exists_shows_next (hi : ∀ c ∈ style.indent, isIndent c = true)
    (hdone : sc.arranged is = done ++ x :: xs) (hw : Walk body.start done cur) (level : Nat) :
    ∃ P, sc.Shows p stop body.start x P ∧ P.Sound p ∧
      P.gap = s.gap style c level (s.keeps sc.node.id cur x) cur x ∧
      P.text = s.gap style c level (s.keeps sc.node.id cur x) cur x ++ s.print style level x ∧
      ∀ P₀ x₀, done.getLast? = some x₀ → sc.Shows p stop body.start x₀ P₀ → P₀.Links P := by
  cases hk : s.keeps sc.node.id cur x with
  | true => exact exists_shows_kept hf hst hr h hdone hw hk level level
  | false =>
    have hgap : ∀ c' ∈ s.gap style c level false cur x, isSpace c' = true := by
      rw [gap_new]
      exact Rendering.isSpace_gap hi _
    have hx : x ∈ sc.arranged is := by rw [hdone]; simp
    obtain ⟨P, hP, hsound, hgap', htext⟩ := exists_shows hf hst hr h hx level hgap
    refine ⟨P, hP, hsound, hgap', htext, fun P₀ x₀ _ _ => .of_breaks ?_⟩
    rw [hgap']
    exact breaks_gap ..

/-- What is printed of the children `xs`, as entries one behind the other. -/
structure Shown (sc : s.ClassScope) (p : Place) (stop i : Nat) (xs : List Node) (ps : List Part) : Prop where
  shows : List.Forall₂ (sc.Shows p stop i) xs ps
  sound : ∀ P ∈ ps, P.Sound p

/-- The children of the arranged scope are printed as entries, and the rest of its body behind them. -/
theorem exists_shown (hi : ∀ c ∈ style.indent, isIndent c = true) (hdone : sc.arranged is = done ++ xs)
    (hw : Walk body.start done cur) (level e : Nat) (P₀? : Option Part)
    (hP₀ : ∀ P₀ ∈ P₀?, ∃ x₀, done.getLast? = some x₀ ∧ sc.Shows p stop body.start x₀ P₀) :
    ∃ ps, sc.Shown p stop body.start xs ps ∧ (P₀?.toList ++ ps).IsChain Part.Links ∧
      ps.map Part.gap = s.gaps style c level sc.node.id cur xs ∧
      s.printList style c level sc.node.id e cur xs = ps.flatMap Part.text ++
        s.tail style c level (s.passAll sc.node.id cur xs) e := by
  induction xs generalizing done cur P₀? with
  | nil =>
    refine ⟨[], ⟨.nil, List.forall_mem_nil _⟩, ?_, rfl, rfl⟩
    cases P₀? <;> simp
  | cons x xs ih =>
    obtain ⟨P, hP, hsound, hgap, htext, hlinks⟩ :=
      exists_shows_next hf hst hr h hi (c := c) hdone hw (c.childLevel level)
    obtain ⟨ps, hps, hchain, hgaps, hprint⟩ := ih (hdone.trans (List.append_cons ..)) (hw.pass _ x) (some P)
      (fun P₀ hP₀ => ⟨x, List.getLast?_concat, by cases hP₀; exact hP⟩)
    refine ⟨P :: ps, ⟨.cons hP hps.shows, List.forall_mem_cons.2 ⟨hsound, hps.sound⟩⟩, ?_, ?_, ?_⟩
    · cases P₀? with
      | none => exact hchain
      | some P₀ =>
        obtain ⟨x₀, hx₀, hshow⟩ := hP₀ P₀ rfl
        exact List.isChain_cons_cons.2 ⟨hlinks P₀ x₀ hx₀ hshow, hchain⟩
    · rw [List.map_cons, hgaps, hgap]
      rfl
    · rw [printList, hprint, List.flatMap_cons, htext, passAll]
      simp only [List.append_assoc]

/-- The child that printing got behind: all that was read behind it are imports that are left out. -/
theorem exists_reached : ∃ before m behind mid r, sc.node.children = before ++ m :: behind ∧
    body.start ≤ mid ∧ s.tokens.Quoted p stop mid m r ∧
    (s.passAll sc.node.id ⟨body.start, none, true⟩ (sc.arranged is)).index = (s.tokens.finish stop r).2 ∧
    s.tokens.Row p stop (s.tokens.finish stop r).2 behind last ∧ ∀ n ∈ behind, n.isImport = true := by
  have hw := (Walk.start (i := body.start)).passAll s sc.node.id (sc.arranged is)
  rw [List.nil_append] at hw
  have hpassed : ∀ n ∈ sc.node.children, n.isImport = false → ∀ a, n.origin = .anchored a →
      a.span.stop ≤ (s.passAll sc.node.id ⟨body.start, none, true⟩ (sc.arranged is)).index := by
    intro n hn himport a ha
    have hmem : n ∈ sc.arranged is ∨ n.detach ∈ sc.arranged is :=
      mem_arranged hn fun ht => by rw [himport] at ht; cases ht
    rcases hmem with hx | hx
    · exact hw.passed n hx a (by rw [ha]; rfl)
    · exact hw.passed _ hx a (by rw [Node.anchor?_detach, ha]; rfl)
  obtain ⟨m, hm, a, ha, hstop⟩ : ∃ m ∈ sc.node.children, ∃ a, m.origin = .anchored a ∧ a.span.stop =
      (s.passAll sc.node.id ⟨body.start, none, true⟩ (sc.arranged is)).index := by
    rcases hw.reached with hstart | ⟨x, hx, a, ha, hstop⟩
    · obtain ⟨a, ha⟩ := (hst.siblings.placed _ (cls_mem sc)).anchor
      have hle := hpassed _ (cls_mem sc) (Node.isImport_of_isClass sc.isClass) a ha
      have hlt := (hst.siblings.placed _ (cls_mem sc)).start_lt ha
      have hbounds := hst.siblings.bounds (cls_mem sc) ha
      omega
    · obtain ⟨m, hm, -, hma⟩ := (h.selected hf hst).read x hx a ha
      exact ⟨m, hm, a, hma, hstop⟩
  obtain ⟨before, behind, hc⟩ := List.append_of_mem hm
  have hrow := hr.row
  rw [hc] at hrow
  obtain ⟨mid, hbefore, hrest⟩ := hrow.split
  cases hrest with
  | @cons _ _ r _ _ hq hbehind =>
    obtain ⟨a', ha', hspan⟩ := hq.anchor
    obtain rfl := Origin.anchored.inj (ha.symm.trans ha')
    rw [hspan] at hstop
    refine ⟨before, m, behind, mid, r, hc, hbefore.le, hq, hstop.symm, hbehind, fun n hn => ?_⟩
    by_contra himport
    have hmem : n ∈ sc.node.children := by rw [hc]; simp [hn]
    obtain ⟨mid', r', hmid', -, hq'⟩ := hbehind.quoted hn
    obtain ⟨b, hb, hspan'⟩ := hq'.anchor
    have hle := hpassed n hmem (Bool.eq_false_iff.2 himport) b hb
    rw [hspan', ← hstop] at hle
    have hstart := hq'.entry.le_start
    have hlt := hq'.entry.lt_finish
    dsimp only at hle
    omega

/-- The last child is printed behind the imports that were read behind it. -/
theorem fronts_or_supplied {y : Node} (hsettled : s.tokens.Settled sc.node)
    (hy : (sc.arranged is).getLast? = some y) (hP : sc.Shows p stop body.start y P)
    (hcur : cur = s.passAll sc.node.id ⟨body.start, none, true⟩ (sc.arranged is)) :
    P.Fronts s.tokens stop cur.index ∨ cur.kept = false ∧ Container.ofDecl sc.node.decl = .block ∧
      '\n' ∉ s.tokens.between cur.index body.stop := by
  obtain ⟨m', hm', hym⟩ := getLast?_arranged hy
  obtain ⟨before, m, behind, mid, r, hc, hmid, hq, hindex, -, himports⟩ := exists_reached hf hst hr h
  rw [← hcur] at hindex
  have hmem : m ∈ sc.node.children := by rw [hc]; simp
  have hmem' : m' ∈ sc.node.children := (Node.mem_others.1 (List.mem_of_getLast? hm')).1
  obtain ⟨a', ho'⟩ := (hst.siblings.placed m' hmem').anchor
  cases hP with
  | new ho _ _ =>
    rcases hym with rfl | rfl
    · rw [ho] at ho'
      cases ho'
    · rw [Node.detach, ho'] at ho
      cases ho
  | @read m'' _ mid'' r'' gap hm'' hym'' hmid'' hq'' =>
    obtain rfl : m'' = m' := by
      refine List.inj_on_of_nodup_map (h.selected hf hst).nodup hm'' hmem' ?_
      rcases hym with rfl | rfl <;> rcases hym'' with he | he <;> exact (congrArg Node.id he).symm
    obtain ⟨b, hb, hspan⟩ := hq.anchor
    obtain ⟨b', hb', hspan'⟩ := hq''.anchor
    obtain rfl := Origin.anchored.inj (ho'.symm.trans hb')
    have hbehind : Node.others behind = [] := Node.others_of_imports himports
    cases himport : m.isImport with
    | false =>
      have hothers : Node.others (m :: behind) = [m] := by
        rw [Node.others, List.filter_cons_of_pos (by rw [himport]; rfl)]
        exact congrArg _ hbehind
      rw [hc, Node.others_append, hothers, List.getLast?_concat] at hm'
      cases hm'
      obtain rfl := Origin.anchored.inj (hb.symm.trans hb')
      have hfinish : (s.tokens.finish stop r).2 = (s.tokens.finish stop r'').2 :=
        congrArg Span.stop (hspan.symm.trans hspan')
      rw [hindex, hfinish]
      exact .inl (hq''.entry.fronts hr.coded hmid'' gap)
    | true =>
      have hothers : Node.others (m :: behind) = [] := by
        rw [Node.others, List.filter_cons_of_neg (by rw [himport]; exact Bool.false_ne_true)]
        exact hbehind
      rw [hc, Node.others_append, hothers, List.append_nil] at hm'
      have hbefore := (Node.mem_others.1 (List.mem_of_getLast? hm')).1
      -- The last child was read in front of the import that printing got behind.
      have hle : a'.span.stop ≤ b.span.start := by
        have hs := hst.siblings
        rw [hc] at hs
        obtain ⟨k, hfront, hback⟩ := hs.split
        exact Nat.le_trans (hfront.bounds hbefore hb').2 (hback.bounds List.mem_cons_self hb).1
      have hlt := (hst.siblings.placed m hmem).start_lt hb
      have hlt' := (hst.siblings.placed m'' hmem').start_lt hb'
      have hstop : cur.index = b.span.stop := by rw [hindex, hspan]
      by_cases hnote : (s.tokens.entryPart mid'' stop r'' gap).note = []
      · left
        unfold Part.Fronts
        rw [if_pos hnote, hindex]
        exact fun _ => hq.entry.trailing_finish hr.coded hmid (hq.not_isScope himport)
      have hline : s.tokens.kind? (a'.span.stop - 1) = some .lineComment := by
        rcases EntryAt.note_cases s.tokens stop r'' with he | ⟨-, -, -, hline⟩
        · refine absurd ?_ hnote
          rw [entryPart, he]
          simp
        · rwa [hspan']
      have hlast : m'' ∈ (Node.others sc.node.children).getLast? := by
        rw [hc, Node.others_append, hothers, List.append_nil]
        exact hm'
      rcases hsettled m'' hlast a' (by rw [hb']; rfl) hline m hmem himport b (by rw [hb]; rfl) hle with
        hbreaks | ⟨hblock, hbody⟩
      · left
        unfold Part.Fronts
        rw [if_neg hnote, hstop]
        exact hbreaks
      · refine .inr ⟨?_, hblock, ?_⟩
        · obtain ⟨init, hinit⟩ := List.getLast?_eq_some_iff.1 hy
          rw [hinit, passAll_concat] at hcur
          refine Bool.eq_false_iff.2 fun hkept => ?_
          rw [hcur] at hkept
          obtain ⟨a, ha, hstart, -⟩ := keeps_cases (x := y) hkept
          obtain rfl : a = a' := by
            rcases hym'' with rfl | rfl
            · exact Origin.anchored.inj (ha.symm.trans hb')
            · rw [Node.detach, hb'] at ha
              cases ha
          rw [hcur, Cursor.pass, ha] at hstop
          simp only [Origin.anchor?] at hstop
          omega
        · rw [hstop]
          exact hbody body (by rw [hst.origin]; rfl)

omit hf hst hr in
theorem containers_arranged : Node.containers (sc.arranged is) = Node.containers sc.node.children := by
  have hcls : Node.others (sc.cls :: sc.behind) = sc.cls :: Node.others sc.behind := by
    simp [Node.others, Node.isImport_of_isClass sc.isClass]
  rw [arranged, Node.containers_append, Node.containers_leaves fun n hn =>
    Node.not_isContainer_of_isImport (h.isImport n hn), List.nil_append,
    ← Node.containers_others sc.node.children, sc.split, Node.others_append, hcls]
  refine Node.containers_of_bare ?_
  rw [List.map_append, List.map_append, List.map_cons, List.map_cons, Node.bare_detach]

end

theorem Shows.containers (h : sc.Shows p stop i x P) : Node.containers [P.node] = Node.containers [x] := by
  cases h with
  | read hm hx hi hq =>
    refine Node.containers_of_bare ?_
    rcases hx with rfl | rfl
    · exact congrArg (fun n => [n]) hq.bare.symm
    · exact congrArg (fun n => [n]) (hq.bare.symm.trans (Node.bare_detach _).symm)
  | @new _ name _ _ hd _ =>
    rw [Node.containers_leaves, Node.containers_leaves]
    · exact List.forall_mem_singleton.2 (by rw [hd]; rfl)
    · refine List.forall_mem_singleton.2 ?_
      change (Decl.ofImportOf name).isContainer = false
      unfold Decl.ofImportOf
      split <;> rfl

theorem Shown.exists_getLast? {ps : List Part} (h : sc.Shown p stop i xs ps) (hx : xs.getLast? = some x) :
    ∃ P, ps.getLast? = some P ∧ sc.Shows p stop i x P := by
  obtain ⟨hshows, -⟩ := h
  induction hshows with
  | nil => cases hx
  | @cons y Q xs ps hQ hrest ih =>
    cases hrest with
    | nil =>
      cases hx
      exact ⟨Q, rfl, hQ⟩
    | cons =>
      rw [List.getLast?_cons_cons] at hx ⊢
      exact ih hx

theorem containers_of_shows {ps : List Part} (h : List.Forall₂ (sc.Shows p stop i) xs ps) :
    Node.containers (ps.map Part.node) = Node.containers xs := by
  induction h with
  | nil => rfl
  | @cons x P xs ps hP _ ih =>
    rw [List.map_cons, ← List.singleton_append, ← List.singleton_append (l := xs), Node.containers_append,
      Node.containers_append, hP.containers, ih]

/-- What is printed of the scope and behind it when its imports are gathered. -/
def arrangedText (sc : s.ClassScope) (style : Style) (body : Span) (is : List Node) : Text :=
  s.printList style (.ofDecl sc.node.decl) 0 sc.node.id body.stop ⟨body.start, none, true⟩
    (sc.arranged is) ++ s.tokens.between body.stop s.tokens.size

/-- What is printed in front of the class. -/
def classGap (sc : s.ClassScope) (style : Style) (is : List Node) : Text :=
  style.newlines ((Container.ofDecl sc.node.decl).gap
      ((is ++ Node.others sc.before).getLast?.map Node.decl) sc.cls.decl) ++
    style.indentation ((Container.ofDecl sc.node.decl).childLevel 0)

/-- The entries `front`, `P` and `back` show the children up to the class, the class and those behind
it, and `rest` shows imports `left` that were left out; the text `t` stands behind the children. -/
structure Displays (sc : s.ClassScope) (style : Style) (p : Place) (stop i : Nat) (is : List Node) (t : Text)
    (front : List Part) (P : Part) (back rest : List Part) (left : List Node) : Prop where
  text : front.flatMap Part.text = s.printFront style (.ofDecl sc.node.decl) 0 sc.node.id
    ⟨i, none, true⟩ (is ++ Node.others sc.before)
  front : List.Forall₂ (sc.Shows p stop i) (is ++ Node.others sc.before) front
  cls : sc.Shows p stop i sc.cls.detach P
  back : List.Forall₂ (sc.Shows p stop i) (Node.others sc.behind) back
  rest : rest.map (·.node.bare) = left.map Node.bare
  left : ∀ n ∈ left, n ∈ sc.node.children ∧ n.isImport = true
  gap : P.gap = sc.classGap style is
  ends : Container.ofDecl sc.node.decl = .block → Node.others sc.behind = [] → '\n' ∈ t

/-- The text `t` is read as entries that show the children of the scope, and code goes on at `e`. -/
structure Printed (sc : s.ClassScope) (style : Style) (p : Place) (stop i : Nat) (is : List Node) (b e : Nat)
    (t : Text) (ps : List Part) (w : Text) (Y : List Token) (T : Text) : Prop where
  sound : ∀ P ∈ ps, P.Sound p
  linked : Part.Linked w (Y ++ s.tokens.toList.drop e) T ps
  closing : s.tokens.Closing p e w Y T
  text : t = ps.flatMap Part.text ++ (w ++ T)
  displays : ∃ front P back rest left t', ps = front ++ P :: (back ++ rest) ∧
    sc.Displays style p stop i is t' front P back rest left ∧
      t' ++ s.tokens.between b s.tokens.size = rest.flatMap Part.text ++ (w ++ T)

theorem Displays.containers {t : Text} {front back rest : List Part} {left : List Node}
    (h : sc.Displays style p stop i is t front P back rest left) (his : sc.Imports limit is) :
    Node.containers ((front ++ P :: (back ++ rest)).map Part.node) = Node.containers sc.node.children := by
  have hrest : (rest.map Part.node).map Node.bare = left.map Node.bare := by
    rw [List.map_map]
    exact h.rest
  have hshown : Node.containers ((front ++ P :: back).map Part.node) = Node.containers (sc.arranged is) := by
    rw [arranged, ← List.append_assoc]
    exact containers_of_shows (List.rel_append h.front (.cons h.cls h.back))
  rw [show front ++ P :: (back ++ rest) = (front ++ P :: back) ++ rest by simp, List.map_append,
    Node.containers_append, hshown, containers_arranged his, Node.containers_of_bare hrest,
    Node.containers_leaves fun n hn => Node.not_isContainer_of_isImport (h.left n hn).2, List.append_nil]

/-- The entries that show the children, told apart at the class. -/
theorem Shown.exists_displays {ps : List Part} (hf : s.Faithful text) (hst : sc.Stands span body last)
    (h : sc.Shown p stop i (sc.arranged is) ps) (hgaps : ps.map Part.gap =
      s.gaps style (.ofDecl sc.node.decl) 0 sc.node.id ⟨i, none, true⟩ (sc.arranged is)) :
    ∃ front P back, ps = front ++ P :: back ∧
      List.Forall₂ (sc.Shows p stop i) (is ++ Node.others sc.before) front ∧
      sc.Shows p stop i sc.cls.detach P ∧ List.Forall₂ (sc.Shows p stop i) (Node.others sc.behind) back ∧
      P.gap = sc.classGap style is ∧ front.flatMap Part.text = s.printFront style (.ofDecl sc.node.decl) 0
        sc.node.id ⟨i, none, true⟩ (is ++ Node.others sc.before) := by
  obtain ⟨hshows, -⟩ := h
  rw [arranged, ← List.append_assoc] at hshows hgaps
  have hlen := hshows.length_eq
  have hfront := (List.forall₂_take_append _ _ _ hshows.flip).flip
  have hback := (List.forall₂_drop_append _ _ _ hshows.flip).flip
  generalize hn : (is ++ Node.others sc.before).length = n at hfront hback
  obtain ⟨P, back, hcls, hbehind, hdrop⟩ := List.forall₂_cons_left_iff.1 hback
  have hps : ps = ps.take n ++ P :: back := by rw [← hdrop, List.take_append_drop]
  refine ⟨_, P, back, hps, hfront, hcls, hbehind, ?_⟩
  have hprev : (s.passAll sc.node.id ⟨i, none, true⟩ (is ++ Node.others sc.before)).prev? =
      (is ++ Node.others sc.before).getLast? := by
    have hw := (Walk.start (i := i)).passAll s sc.node.id (is ++ Node.others sc.before)
    rw [List.nil_append] at hw
    exact hw.prev
  rw [hps, List.map_append, gaps_append] at hgaps
  obtain ⟨hhead, htail⟩ := List.append_inj hgaps (by
    rw [List.length_map, length_gaps]
    exact hfront.length_eq.symm)
  rw [List.map_cons, gaps, keeps_detach, gap_new, hprev] at htail
  exact ⟨(List.cons.inj htail).1, flatMap_text hf hst hfront hhead⟩

/-- The printed children and what was read behind them. -/
theorem Shown.printed {ps qs : List Part} {ns : List Node} {w t' : Text} {Y : List Token} {T : Text}
    {b e : Nat} (hf : s.Faithful text) (hst : sc.Stands span body last)
    (hps : sc.Shown p stop i (sc.arranged is) ps)
    (hgaps : ps.map Part.gap =
      s.gaps style (.ofDecl sc.node.decl) 0 sc.node.id ⟨i, none, true⟩ (sc.arranged is))
    (hchain : ps.IsChain Part.Links) (hP : ps.getLast? = some P)
    (hns : ∀ n ∈ ns, n ∈ sc.node.children ∧ n.isImport = true)
    (hends : Container.ofDecl sc.node.decl = .block → Node.others sc.behind = [] → '\n' ∈ t')
    (hqs : s.tokens.Ends p e P ns (t' ++ s.tokens.between b s.tokens.size) qs w Y T) :
    sc.Printed style p stop i is b e (ps.flatMap Part.text ++ (t' ++ s.tokens.between b s.tokens.size))
      (ps ++ qs) w Y T := by
  obtain ⟨front, P', back, hsplit, hfront, hcls, hback, hgap, htext⟩ :=
    hps.exists_displays hf hst hgaps
  obtain ⟨init, rfl⟩ := List.getLast?_eq_some_iff.1 hP
  have hassoc : init ++ [P] ++ qs = init ++ P :: qs := by simp
  refine ⟨List.forall_mem_append.2 ⟨hps.sound, hqs.sound⟩, linked_of_chain ?_ fun Q hQ => ?_, hqs.closing,
    ?_, front, P', back, qs, ns, t', ?_, ⟨htext, hfront, hcls, hback, hqs.bare, hns, hgap, hends⟩, hqs.text⟩
  · rw [hassoc]
    exact List.isChain_split.2 ⟨hchain, hqs.chain⟩
  · rw [hassoc, List.getLast?_append_of_ne_nil _ (List.cons_ne_nil _ _)] at hQ
    exact hqs.meets Q hQ
  · simp only [hqs.text, List.flatMap_append, List.append_assoc]
  · rw [hsplit]
    simp

section

variable (hf : s.Faithful text) (hst : sc.Stands span body last) (hr : sc.Rows p stop body.start last)
  (h : sc.Imports limit is)
include hf hst hr h

/-- The scope with its imports gathered is printed as entries. -/
theorem exists_printed (hi : ∀ c ∈ style.indent, isIndent c = true) (hsettled : s.tokens.Settled sc.node)
    (hbrink : s.tokens.Brink stop) (hlast : last ≤ stop)
    (hcalm : s.tokens.continues last s.tokens.size = false)
    (hblock : Container.ofDecl sc.node.decl = .block → stop = body.stop) :
    ∃ e ps w Y T, body.stop ≤ e ∧ e ≤ s.tokens.size ∧ s.tokens.Loose body.stop e ∧
      (last = body.stop → Y = []) ∧
      sc.Printed style p stop body.start is body.stop e (sc.arrangedText style body is) ps w Y T := by
  have hplain := hst.encloses.plain
  have hbody := hst.encloses.last_le
  have hsize := Nat.le_trans hst.encloses.stop_le hst.encloses.le_size
  obtain ⟨ps, hps, hchain, hgaps, hprint⟩ := exists_shown hf hst hr h hi (c := .ofDecl sc.node.decl)
    (List.nil_append (sc.arranged is)).symm .start 0 body.stop none nofun
  have hne : sc.arranged is ≠ [] := by simp [arranged]
  obtain ⟨P, hP, hshow⟩ := hps.exists_getLast? (List.getLast?_eq_some_getLast hne)
  obtain ⟨before, m, behind, mid, r, hc, hmid, hq, hindex, hrow, himports⟩ := exists_reached hf hst hr h
  rw [arrangedText, hprint, List.append_assoc]
  generalize hcur : s.passAll sc.node.id ⟨body.start, none, true⟩ (sc.arranged is) = cur at hindex
  rw [← hindex] at hrow
  have hfront := fronts_or_supplied hf hst hr h hsettled (List.getLast?_eq_some_getLast hne) hshow hcur.symm
  have hstart := hq.entry.le_start
  have hfinish := hq.entry.lt_finish
  have hle := hrow.le
  have hleft : ∀ n ∈ behind, n ∈ sc.node.children ∧ n.isImport = true := fun n hn =>
    ⟨by rw [hc]; simp [hn], himports n hn⟩
  have hends : Container.ofDecl sc.node.decl = .block → Node.others sc.behind = [] →
      '\n' ∈ s.tail style (.ofDecl sc.node.decl) 0 cur body.stop := by
    intro hdecl hbehind
    rw [hdecl]
    refine newline_mem_tail ?_
    rw [← hcur, arranged, hbehind, ← List.append_assoc, passAll_concat]
    exact keeps_detach ..
  by_cases hsupplied : cur.kept = false ∧ Container.ofDecl sc.node.decl = .block ∧
      '\n' ∉ s.tokens.between cur.index body.stop
  · obtain ⟨hkept, hdecl, hno⟩ := hsupplied
    obtain rfl := hblock hdecl
    obtain ⟨-, -, -, hclose⟩ := hst.encloses.braces hdecl
    obtain ⟨lead, site, hcl⟩ := exists_closesAt hlast hsize
    have htail : s.tail style (.ofDecl sc.node.decl) 0 cur body.stop =
        style.newline ++ style.indentation 0 ++ (s.tokens.between cur.index body.stop).trim := by
      unfold tail
      exact if_pos (by simp [hkept, hdecl, hno])
    have hspace : ∀ c ∈ style.newlines 1 ++ style.indentation 0, isSpace c = true :=
      Rendering.isSpace_gap hi 1
    rw [Skeleton.newlines_succ, show style.newlines 0 = [] from rfl, List.append_nil] at hspace
    obtain ⟨qs, w, Y, T, hempty, hqs⟩ := exists_ends_trimmed hr.coded
      (show body.start ≤ cur.index by omega) hclose hno hcl hplain hr.place hrow himports hspace
      (Line.breaks_text style.lineEnding _) P
    rw [htail] at hends ⊢
    exact ⟨body.stop, ps ++ qs, w, Y, T, Nat.le_refl _, hsize, fun k hk hks => absurd hks (Nat.not_lt.2 hk),
      hempty, hps.printed hf hst hgaps hchain hP hleft hends hqs⟩
  · obtain ⟨qs, w, Y, T, hempty, hqs⟩ := exists_ends_read (hfront.resolve_right hsupplied) hrow hr.coded
      (show body.start ≤ cur.index by omega) hbrink hlast hcalm hplain
    have htail : s.tail style (.ofDecl sc.node.decl) 0 cur body.stop =
        s.tokens.between cur.index body.stop := by
      unfold tail
      refine if_neg fun hif => hsupplied ?_
      simpa [and_assoc] using hif
    rw [htail] at hends ⊢
    rw [← between_append (show cur.index ≤ body.stop by omega) hsize] at hqs
    refine ⟨_, ps ++ qs, w, Y, T, Nat.le_max_left .., ?_, fun k hk hke => ?_, hempty,
      hps.printed hf hst hgaps hchain hP hleft hends hqs⟩
    · have := s.tokens.leading_le last (s.tokens.significant last s.tokens.size)
      have := s.tokens.significant_le last s.tokens.size
      exact Nat.max_le.2 ⟨hsize, by unfold startOf; omega⟩
    · exact loose_leading s.tokens last s.tokens.size k (by omega) (by unfold startOf at hke; omega)

end

end ClassScope
end Source

end PhpGraft
