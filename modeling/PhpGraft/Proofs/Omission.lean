import PhpGraft.Proofs.Merging
import PhpGraft.Proofs.Retention

/-!
Imports that are left out of the printed text. The source of a scope is copied up to the last child
that stays, gap by gap, and from there on as a whole, so an import that goes is left out of the text
where something that stays stood behind it, and only there.
-/
namespace PhpGraft

namespace Source

variable {s : Source} {text : Text} {style : Style} {level stop i last k : Nat} {c : Container}

/-! How often a token is printed where one node was changed. -/

theorem count_piecesList_replace {p n m : Node} {front before behind : List Node} {prev? : Option Node}
    {a : Anchor} (hd : s.tree.root.Distinct) (hp : p ∈ s.tree.root.subnodes)
    (hc : p.children = front ++ (before ++ n :: behind))
    (hs : Siblings s.tokens i (before ++ n :: behind) last)
    (hprev : prev?.map Node.id = front.getLast?.map Node.id) (hid : m.id = n.id)
    (ho : n.origin = .anchored a) (hm : m.origin = n.origin)
    (hexact : ∀ n ∈ p.children, s.Exact style n) (hstop : last ≤ stop) :
    Piece.count k (s.piecesList style c level p.id stop ⟨i, prev?, true⟩ (before ++ m :: behind)) =
      (if i ≤ k ∧ k < a.span.start then 1 else 0) +
        (Piece.count k (s.pieces style (c.childLevel level) m) +
          if a.span.stop ≤ k ∧ k < stop then 1 else 0) := by
  induction before generalizing i front prev? with
  | nil =>
    cases hs with
    | @cons _ _ b _ _ hob hi _ hpl hs =>
      obtain rfl : b = a := Origin.anchored.inj (hob.symm.trans ho)
      have hlt := hpl.start_lt ho
      have hpred := predecessor?_child hd hp hc
      have hk : s.keeps p.id ⟨i, prev?, true⟩ m = true :=
        keeps_of_predecessor (hm.trans ho) hi (hid ▸ hpred) hprev
      have hbehind : p.children = (front ++ [n]) ++ behind ++ [] := by simp [hc]
      rw [List.nil_append, count_piecesList_cons (hm.trans ho) hi hlt hk,
        count_piecesList_kept hd hp hbehind hs (by simp [hid]) (fun x hx => hexact x (by simp [hc, hx]))
          hstop]
  | cons x before ih =>
    cases hs with
    | @cons _ _ b _ _ hob hi _ hpl hs =>
      have hlt := hpl.start_lt hob
      obtain ⟨mid, hfront, hrest⟩ := hs.split
      have hmid := hfront.le
      have hstart : mid ≤ a.span.start := by
        cases hrest with
        | cons hoa hle _ _ _ =>
          obtain rfl := Origin.anchored.inj (hoa.symm.trans ho)
          exact hle
      -- the children up to `x` are the front of the rest
      have hx : p.children = front ++ x :: (before ++ n :: behind) := hc
      have hdone : p.children = (front ++ [x]) ++ (before ++ n :: behind) := by simp [hc]
      have hprev' : (some x).map Node.id = (front ++ [x]).getLast?.map Node.id := by simp
      have hpred := predecessor?_child hd hp hx
      have hk : s.keeps p.id ⟨i, prev?, true⟩ x = true := keeps_of_predecessor hob hi hpred hprev
      have hcount := hexact x (by simp [hc]) (c.childLevel level) k b hob
      rw [List.cons_append, count_piecesList_cons hob hi hlt hk, hcount, ih hdone hs hprev',
        ← Piece.count_span (k := k) hi (Nat.le_trans (Nat.le_of_lt hlt) (Nat.le_trans hmid hstart)),
        ← Piece.count_span (k := k) (Nat.le_of_lt hlt) (Nat.le_trans hmid hstart)]
      simp only [Nat.add_assoc]

/-- Where the node at a path is changed, all around it is printed once. -/
theorem count_pieces_modifyAt (style : Style) (level : Nat) {f : Node → Node}
    (hd : s.tree.root.Distinct) (hid : ∀ n, (f n).id = n.id) (hf : ∀ n, (f n).origin = n.origin)
    {path : List Nat} {p n : Node} {a b : Anchor} (hp : p ∈ s.tree.root.subnodes)
    (hpl : Placed s.tokens p) (hb : p.origin = .anchored b) (hn : p.at? path = some n)
    (ha : n.origin = .anchored a) :
    Piece.count k (s.pieces style level (p.modifyAt f path)) =
      (if b.span.start ≤ k ∧ k < a.span.start then 1 else 0) +
        (Piece.count k (s.pieces style (p.levelAt level path) (f n)) +
          if a.span.stop ≤ k ∧ k < b.span.stop then 1 else 0) := by
  induction path generalizing p b level with
  | nil =>
    cases hn
    obtain rfl : b = a := Origin.anchored.inj (hb.symm.trans ha)
    rw [if_neg (by omega), if_neg (by omega), Nat.zero_add, Nat.add_zero]
    rfl
  | cons i path ih =>
    obtain ⟨m, hm, hnode⟩ := Option.bind_eq_some_iff.1 hn
    cases hpl with
    | leaf => cases hm
    | @container id decl span body children last hdecl hs he =>
      cases hb
      obtain ⟨before, behind, hsplit, rfl⟩ := Node.split_of_getElem? hm
      dsimp only at hsplit
      subst hsplit
      have hmem : m ∈ before ++ m :: behind := by simp
      have hsub : ∀ k ∈ before ++ m :: behind, k ∈ s.tree.root.subnodes :=
        fun k hk => Node.mem_subnodes_of_child hk hp
      have hmpl := hs.placed m hmem
      obtain ⟨c, hc⟩ := hmpl.anchor
      have hexact : ∀ x ∈ before ++ m :: behind, s.Exact style x :=
        fun x hx => exact_of_placed style hd (hs.placed x hx) (hsub x hx)
      have hchildren : (Node.mk id (.anchored ⟨span, some body⟩) decl
          (before ++ m :: behind)).children = [] ++ (before ++ m :: behind) := rfl
      have hfirst : (none : Option Node).map Node.id = ([] : List Node).getLast?.map Node.id := rfl
      have hlevel : Node.levelAt level (before.length :: path)
          ⟨id, .anchored ⟨span, some body⟩, decl, before ++ m :: behind⟩ =
          Node.levelAt ((Container.ofDecl decl).childLevel level) path m := by
        simp [Node.levelAt]
      have hout := hs.bounds hmem hc
      have hin := hmpl.bounds hnode hc ha
      have h₁ := he.start_le
      have h₂ := he.last_le
      have h₃ := he.stop_le
      rw [Node.modifyAt, Node.modify_append_cons, count_pieces_container rfl]
      dsimp only
      have h₄ := Nat.le_trans h₁ hout.1
      have h₅ := Nat.le_trans hout.2 h₂
      rw [count_piecesList_replace hd hp hchildren hs hfirst (Node.id_modifyAt hid path m) hc
          (Node.origin_modifyAt hf path m) hexact he.last_le, ih _ (hsub _ hmem) hmpl hc hnode, hlevel,
        ← Piece.count_span (k := k) h₄ hin.1, ← Piece.count_span (k := k) h₁ hout.1,
        ← Piece.count_span (k := k) hin.2 (Nat.le_trans h₅ h₃), ← Piece.count_span (k := k) h₅ h₃]
      simp only [Nat.add_assoc]

namespace ClassScope

variable {sc : s.ClassScope} {is front back : List Node} {m : Node} {a : Anchor} {span body : Span}
  {limit : Nat}

/-- Child `m` is still there once the imports of the scope are `is`. -/
def Stays (is : List Node) (m : Node) : Prop := m.isImport = true → m ∈ is

theorem Stands.slot (hst : sc.Stands span body last) (hsplit : sc.node.children = front ++ m :: back)
    (ha : m.origin = .anchored a) :
    ∃ mid, Slot s.tokens body.start sc.node.children last m a front mid ∧
      (∀ x ∈ front, ∀ b, x.origin = .anchored b → b.span.stop ≤ mid) ∧
      ∀ x ∈ back, ∀ b, x.origin = .anchored b → a.span.stop ≤ b.span.start := by
  have hs := hst.siblings
  rw [hsplit] at hs
  obtain ⟨mid, hfront, hrest⟩ := hs.split
  cases hrest with
  | cons ho hle hloose hpl hback =>
    obtain rfl := Origin.anchored.inj (ho.symm.trans ha)
    refine ⟨mid, ⟨⟨m, back, hsplit, rfl, ha, hback⟩, hfront, hle, hloose, hpl.start_lt ha⟩, ?_, ?_⟩
    · intro x hx b hb
      exact (hfront.bounds hx hb).2
    · intro x hx b hb
      exact (hback.bounds hx hb).1

section

variable (h : sc.Imports limit is) (hst : sc.Stands span body last)
  (hsplit : sc.node.children = front ++ m :: back) (himport : m.isImport = true) (hnot : m ∉ is)
  (ha : m.origin = .anchored a)

include h hsplit himport hnot in
theorem Imports.id_ne {x : Node} {b : Anchor} (hf : s.Faithful text) (hx : x ∈ sc.arranged is)
    (hb : x.origin.anchor? = some b) : x.id ≠ m.id := by
  have hm : m ∈ sc.node.children := by simp [hsplit]
  rcases h.cases hx with ⟨y, hy, hxy, hstays⟩ | ⟨id, name, -, -, -, rfl⟩
  · intro hid
    have hyid : y.id = m.id := by rcases hxy with rfl | rfl <;> exact hid
    obtain rfl := List.inj_on_of_nodup_map (hf.distinct.children sc.node_mem) hy hm hyid
    exact hnot (hstays himport)
  · cases hb

include h hst hsplit himport hnot ha in
theorem Imports.tail_of_count (style : Style) (hf : s.Faithful text) (hk : a.span.start ≤ k ∧ k < a.span.stop)
    (hpos : 0 < Piece.count k (sc.scopePieces style body is)) :
    (s.passAll sc.node.id ⟨body.start, none, true⟩ (sc.arranged is)).index ≤ k := by
  obtain ⟨mid, hslot, -, -⟩ := hst.slot hsplit ha
  have hsel : s.Selected sc.node.id body.start sc.node.children ([] ++ sc.arranged is) last :=
    h.selected hf hst
  rcases slot_of_count_piecesList hsel .start (h.covered style hf) hpos with
    ⟨hindex, -⟩ | ⟨x, hx, b, before, mid', hb, hslot', hmid', hstop'⟩
  · exact hindex
  · have hne := h.id_ne hsplit himport hnot hf hx hb
    have := hslot.le
    rcases hslot'.apart hslot hne with hap | hap <;> omega

include hst hsplit ha in
theorem lt_index_of_stays {x : Node} (hx : x ∈ back) (hstays : Stays is x) (hk : k < a.span.stop) :
    k < (s.passAll sc.node.id ⟨body.start, none, true⟩ (sc.arranged is)).index := by
  obtain ⟨mid, -, -, hback⟩ := hst.slot hsplit ha
  have hmem : x ∈ sc.node.children := by simp [hsplit, hx]
  have hplaced := hst.siblings.placed x hmem
  obtain ⟨b, hb⟩ := hplaced.anchor
  have hwalk := (Walk.start (i := body.start)).passAll s sc.node.id (sc.arranged is)
  have hpassed : b.span.stop ≤
      (s.passAll sc.node.id ⟨body.start, none, true⟩ (sc.arranged is)).index := by
    rcases mem_arranged hmem hstays with hx | hx
    · exact hwalk.passed x hx b (by rw [hb]; rfl)
    · exact hwalk.passed _ hx b (by rw [Node.anchor?_detach, hb]; rfl)
  have := hback x hx b hb
  have := hplaced.start_lt hb
  omega

include h hst hsplit himport hnot ha in
theorem Imports.index_le (hgone : ∀ x ∈ back, ¬Stays is x) :
    (s.passAll sc.node.id ⟨body.start, none, true⟩ (sc.arranged is)).index ≤ a.span.start := by
  obtain ⟨mid, hslot, hfront, -⟩ := hst.slot hsplit ha
  have hle := hslot.le
  have hwalk := (Walk.start (i := body.start)).passAll s sc.node.id (sc.arranged is)
  rcases hwalk.reached with hi | ⟨x, hx, b, hb, hstop⟩
  · rw [hi]
    exact Nat.le_trans hslot.front.le hle
  rw [← hstop]
  rcases h.cases hx with ⟨y, hy, hxy, hstays⟩ | ⟨id, name, -, -, -, rfl⟩
  · obtain ⟨b', hb'⟩ := (hst.siblings.placed y hy).anchor
    have hyb : y.origin.anchor? = some b := by
      rcases hxy with rfl | rfl
      · exact hb
      · rwa [Node.anchor?_detach] at hb
    rw [hb'] at hyb
    cases hyb
    rw [hsplit] at hy
    rcases List.mem_append.1 hy with hy | hy
    · exact Nat.le_trans (hfront y hy _ hb') hle
    rcases List.mem_cons.1 hy with rfl | hy
    · exact absurd (hstays himport) hnot
    · exact absurd hstays (hgone y hy)
  · cases hb

include h hst hsplit himport hnot ha in
theorem Imports.count_gone (style : Style) (hf : s.Faithful text) (hk : a.span.start ≤ k ∧ k < a.span.stop) :
    ((∃ x ∈ back, Stays is x) → Piece.count k (sc.scopePieces style body is) = 0) ∧
      ((∀ x ∈ back, ¬Stays is x) → Piece.count k (sc.scopePieces style body is) = 1) := by
  constructor
  · rintro ⟨x, hx, hstays⟩
    refine Nat.eq_zero_of_not_pos fun hpos => ?_
    have htail := h.tail_of_count hst hsplit himport hnot ha style hf hk hpos
    exact Nat.not_le.2 (lt_index_of_stays hst hsplit ha hx hstays hk.2) htail
  · intro hgone
    have hindex := h.index_le hst hsplit himport hnot ha hgone
    have hstop : k < body.stop := by
      obtain ⟨mid, hslot, -⟩ := hst.slot hsplit ha
      have := hslot.stop_le
      have := hst.encloses.last_le
      omega
    have hpos : 0 < Piece.count k (sc.scopePieces style body is) :=
      count_piecesList_pos (.inr ⟨Nat.le_trans hindex hk.1, hstop⟩)
    exact Nat.le_antisymm (h.count_le_one style hf hst k) hpos

end

theorem count_pieces_arranged (style : Style) (hp : Source.parse text = .ok s) {t : Tree}
    (h : sc.Arranged is t) (hst : sc.Stands span body last) (hk : body.start ≤ k ∧ k < body.stop) :
    Piece.count k (s.pieces style 0 t.root) = Piece.count k (sc.scopePieces style body is) := by
  have hf := faithful_of_parse hp
  obtain ⟨rootBody, hroot⟩ := root_origin hp
  have h₁ := hst.encloses.start_le
  have h₂ := hst.encloses.stop_le
  rw [h.root, count_pieces_modifyAt style 0 (f := .withChildren fun _ => sc.arranged is) hf.distinct
    (fun _ => rfl) (fun _ => rfl) (Node.self_mem_subnodes _) hf.placed hroot sc.reached hst.origin,
    sc.level_eq (root_decl hp),
    count_pieces_container (n := sc.node.withChildren fun _ => sc.arranged is)
      (congrArg Origin.anchor? hst.origin)]
  dsimp only
  rw [if_neg (by omega), if_neg (by omega), if_neg (by omega), if_neg (by omega), Nat.zero_add,
    Nat.zero_add]
  rfl

/-- Token `k` belongs to an import of the scope that goes, behind which the children `back` were
read. -/
def Gone (sc : s.ClassScope) (is back : List Node) (k : Nat) : Prop :=
  ∃ front m a, sc.node.children = front ++ m :: back ∧ m.isImport = true ∧ m ∉ is ∧
    m.origin = .anchored a ∧ a.span.start ≤ k ∧ k < a.span.stop

/-- Pieces of text that leave imports out where something stays behind them. -/
structure Omits (sc : s.ClassScope) (is : List Node) (ps : List Piece) : Prop where
  omitted : ∀ back k, sc.Gone is back k → (∃ x ∈ back, Stays is x) → Piece.count k ps = 0
  /-- Where nothing stays, the import is printed although it goes. -/
  printed : ∀ back k, sc.Gone is back k → (∀ x ∈ back, ¬Stays is x) → Piece.count k ps = 1

theorem Arranged.omits (style : Style) (hp : Source.parse text = .ok s) {t : Tree}
    (h : sc.Arranged is t) : sc.Omits is (s.pieces style 0 t.root) := by
  have hf := faithful_of_parse hp
  obtain ⟨span, body, last, hst⟩ := sc.stands hf
  have hcount : ∀ back k, sc.Gone is back k →
      ((∃ x ∈ back, Stays is x) → Piece.count k (s.pieces style 0 t.root) = 0) ∧
        ((∀ x ∈ back, ¬Stays is x) → Piece.count k (s.pieces style 0 t.root) = 1) := by
    rintro back k ⟨front, m, a, hsplit, himport, hnot, ha, hstart, hstop⟩
    have hk : body.start ≤ k ∧ k < body.stop := by
      obtain ⟨mid, hslot, -⟩ := hst.slot hsplit ha
      have := hslot.front.le
      have := hslot.le
      have := hslot.stop_le
      have := hst.encloses.last_le
      omega
    rw [count_pieces_arranged style hp h hst hk]
    exact h.imports.count_gone hst hsplit himport hnot ha style hf ⟨hstart, hstop⟩
  constructor
  · intro back k hgone
    exact (hcount back k hgone).1
  · intro back k hgone
    exact (hcount back k hgone).2

end ClassScope
end Source

/-- An import that goes is left out of the text, unless nothing that stays was read behind it. -/
theorem addImports_omits {text : Text} {style : Style} {e e' : Editor} {names : List Text}
    (h : Editor.parse text style = .ok e) (ha : e.addImports names = .ok e') :
    ∃ (sc : e.source.ClassScope) (is : List Node),
      e'.working.root.at? sc.path = some (sc.node.withChildren fun _ => sc.arranged is) ∧
        (e.source.pieces e'.style 0 e'.working.root).flatMap (Piece.text e.source.tokens) =
          e'.render ∧
        sc.Omits is (e.source.pieces e'.style 0 e'.working.root) := by
  obtain ⟨s, hp, rfl⟩ := Editor.parse_eq h
  have hf := Source.faithful_of_parse hp
  obtain ⟨sc, qs, -, hsource, -, hw⟩ := Editor.addImports_parsed hf rfl ha
  refine ⟨sc, _, hw.at?, ?_, hw.omits _ hp⟩
  rw [Source.text_pieces, Editor.render, hsource]

/-- An import that goes stands in front of the class, one in front of a statement and one behind
everything that stays. -/
theorem addImports_omits_around : ∃ e e',
    Editor.parse "<?php use A; use A; class C \x7b\x7d use A; f(); use A;" = .ok e ∧
      e.addImports ["B"] = .ok e' ∧ ∃ (sc : e.source.ClassScope) (is : List Node),
        e'.working.root.at? sc.path = some (sc.node.withChildren fun _ => sc.arranged is) ∧
          (e.source.pieces e'.style 0 e'.working.root).flatMap (Piece.text e.source.tokens) =
            e'.render ∧
          sc.Omits is (e.source.pieces e'.style 0 e'.working.root) := by
  have hrun : (Editor.parse "<?php use A; use A; class C \x7b\x7d use A; f(); use A;").toOption.any
      (fun e => (e.addImports ["B"]).toOption.any fun _ => true) = true := by
    decide +kernel
  obtain ⟨e, h, hrun⟩ := Steps.exists_of_any hrun
  obtain ⟨e', h', -⟩ := Steps.exists_of_any hrun
  exact ⟨e, e', h, h', addImports_omits h h'⟩

/-- The second import goes, since the first one binds the class, and is printed all the same. -/
theorem addImports_prints_gone : ∃ (e e' : Editor) (m : Node) (a : Anchor),
    Editor.parse "<?php use B; class C \x7b\x7d use B;" = .ok e ∧ e.addImports ["B"] = .ok e' ∧
      (∀ t ∈ e.source.tokens.toList, t.kind ≠ .closeTag) ∧
      m ∈ e.working.root.scopeImports ∧ m ∉ e'.working.root.scopeImports ∧
      m.origin = .anchored a ∧
      (∀ k, a.span.start ≤ k → k < a.span.stop →
        Piece.count k (e.source.pieces e'.style 0 e'.working.root) = 1) ∧
      e'.render = "<?php use B;\n\nclass C \x7b\x7d use B;" := by
  have hrun : (Editor.parse "<?php use B; class C \x7b\x7d use B;").toOption.any (fun (e : Editor) =>
      (e.addImports ["B"]).toOption.any fun (e' : Editor) => (e.working.root.scopeImports[1]?).any fun m =>
        decide ((∀ t ∈ e.source.tokens.toList, t.kind ≠ .closeTag) ∧
          m ∉ e'.working.root.scopeImports ∧ m.origin = .anchored ⟨⟨13, 17⟩, none⟩ ∧
          (∀ k ∈ List.range 17, 13 ≤ k → Piece.count k (e.source.pieces e'.style 0 e'.working.root) = 1) ∧
          e'.render = "<?php use B;\n\nclass C \x7b\x7d use B;")) = true := by
    decide +kernel
  obtain ⟨e, h, hrun⟩ := Steps.exists_of_any hrun
  obtain ⟨e', h', hrun⟩ := Steps.exists_of_any hrun
  obtain ⟨m, hm, hrun⟩ := (Option.any_eq_true _ _).1 hrun
  obtain ⟨htags, hnot, horigin, hcount, hrender⟩ := of_decide_eq_true hrun
  exact ⟨e, e', m, _, h, h', htags, List.mem_of_getElem? hm, hnot, horigin,
    fun k hstart hstop => hcount k (List.mem_range.2 hstop) hstart, hrender⟩

end PhpGraft
