import PhpGraft.Proofs.Replacement

/-!
What importing classes keeps of the text. All that was not changed is printed as it was read; in the
scope that the imports gather in, white space and tags between the declarations may go, and so
may an import that binds nothing of its own.
-/
namespace PhpGraft

namespace Source

variable {s : Source} {text : Text} {style : Style} {level stop i last k : Nat}

/-! Unchanged nodes print their tokens once each. -/

/-- Exactly its tokens, each once. -/
def Exact (s : Source) (style : Style) (n : Node) : Prop :=
  ∀ level k a, n.origin = .anchored a →
    Piece.count k (s.pieces style level n) = if a.span.start ≤ k ∧ k < a.span.stop then 1 else 0

theorem count_piecesList_cons {c : Container} {parent : Nat} {n : Node} {ns : List Node}
    {prev? : Option Node} {a : Anchor} (ho : n.origin = .anchored a) (hi : i ≤ a.span.start)
    (hlt : a.span.start < a.span.stop) (hk : s.keeps parent ⟨i, prev?, true⟩ n = true) :
    Piece.count k (s.piecesList style c level parent stop ⟨i, prev?, true⟩ (n :: ns)) =
      (if i ≤ k ∧ k < a.span.start then 1 else 0) +
        (Piece.count k (s.pieces style (c.childLevel level) n) +
          Piece.count k (s.piecesList style c level parent stop ⟨a.span.stop, some n, true⟩ ns)) := by
  have hmax : max i a.span.stop = a.span.stop := by omega
  rw [piecesList, Piece.count_cons, Piece.count_append, hk]
  simp only [gapPiece, ho, Origin.anchor?, Cursor.pass, hmax, Piece.count_copy]

theorem count_piecesList_kept {c : Container} {p : Node} {before ns behind : List Node}
    {prev? : Option Node} (hd : s.tree.root.Distinct) (hp : p ∈ s.tree.root.subnodes)
    (hc : p.children = before ++ ns ++ behind) (hs : Siblings s.tokens i ns last)
    (hprev : prev?.map Node.id = before.getLast?.map Node.id) (hn : ∀ n ∈ ns, s.Exact style n)
    (hstop : last ≤ stop) :
    Piece.count k (s.piecesList style c level p.id stop ⟨i, prev?, true⟩ ns) =
      if i ≤ k ∧ k < stop then 1 else 0 := by
  induction ns generalizing i before prev? with
  | nil => rw [piecesList, count_tailPieces]
  | cons n ns ih =>
    cases hs with
    | @cons _ _ a _ _ ho hi hl hpl hs =>
      have hlt := hpl.start_lt ho
      have hle := hs.le
      have hpred := predecessor?_child hd hp
        (show p.children = before ++ n :: (ns ++ behind) by simp [hc])
      have hk : s.keeps p.id ⟨i, prev?, true⟩ n = true := keeps_of_predecessor ho hi hpred hprev
      have hnext : p.children = (before ++ [n]) ++ ns ++ behind := by simp [hc]
      rw [count_piecesList_cons ho hi hlt hk, hn n List.mem_cons_self _ k a ho,
        ih hnext hs (by simp) (fun m hm => hn m (List.mem_cons_of_mem _ hm)),
        Piece.count_span (Nat.le_of_lt hlt) (by omega), Piece.count_span hi (by omega)]

theorem exact_of_placed (style : Style) (hd : s.tree.root.Distinct) {n : Node} (h : Placed s.tokens n)
    (hn : n ∈ s.tree.root.subnodes) : s.Exact style n := by
  intro level k a ho
  have hwhole := whole_of_placed (p := fun _ => false) style hd h hn level a rfl ho
  rw [Node.renew_eq_self n fun _ _ => rfl] at hwhole
  exact hwhole.count_eq k

theorem covered_read (style : Style) (hf : s.Faithful text) {n : Node} {a : Anchor}
    (hn : n ∈ s.tree.root.subnodes) (ha : n.origin.anchor? = some a) : s.Covered style n a :=
  covered style hf (hf.rearranged .refl) n hn a ha

/-! A detached node prints as before. -/

theorem pieces_detach (s : Source) (style : Style) (level : Nat) (n : Node) :
    s.pieces style level n.detach = s.pieces style level n := by
  obtain ⟨id, origin, decl, children⟩ := n
  cases origin with
  | anchored a => rw [Node.detach, Origin.detach, pieces, pieces]; rfl
  | detached a => rfl
  | synthesized => rfl

namespace ClassScope

variable (sc : s.ClassScope) {is : List Node} {t : Tree}

theorem decl_cases : sc.path = [] ∧ sc.node = s.tree.root ∨
    ∃ k, sc.path = [k] ∧ s.tree.root.children[k]? = some sc.node ∧ sc.node.decl.isScope = true := by
  rcases Node.classScope?_cases sc.edited with ⟨hpath, -⟩ | ⟨k, n, c, hpath, hn, hscope, -, -⟩
  · have := sc.reached
    rw [hpath] at this
    exact .inl ⟨hpath, (Option.some.inj this).symm⟩
  · have := sc.reached
    rw [hpath, Node.at?, hn] at this
    cases this
    exact .inr ⟨k, hpath, hn, hscope⟩

theorem level_eq (h : s.tree.root.decl = .file) : s.tree.root.levelAt 0 sc.path = 0 := by
  rcases sc.decl_cases with ⟨hpath, -⟩ | ⟨k, hpath, hn, -⟩
  · rw [hpath]
    rfl
  · rw [hpath]
    simp [Node.levelAt, h, Container.ofDecl, Container.childLevel, hn]

/-- Where the scope was read. -/
structure Stands (sc : s.ClassScope) (span body : Span) (last : Nat) : Prop where
  origin : sc.node.origin = .anchored ⟨span, some body⟩
  siblings : Siblings s.tokens body.start sc.node.children last
  encloses : Encloses s.tokens sc.node.decl span body last

theorem stands (hf : s.Faithful text) : ∃ span body last, sc.Stands span body last := by
  obtain ⟨span, body, last, ho, hs, he⟩ :=
    (hf.placed.at? sc.reached).body sc.cls_mem
  exact ⟨span, body, last, ho, hs, he⟩

variable {sc} {span body : Span}

/-- A child of the arranged scope is one that was read there, as it is or detached, or a new import
of it. -/
theorem Imports.cases {limit : Nat} {x : Node} (h : sc.Imports limit is) (hx : x ∈ sc.arranged is) :
    (∃ m ∈ sc.node.children, (x = m ∨ x = m.detach) ∧ (m.isImport = true → m ∈ is)) ∨
      x.NewImport s.tree.next limit := by
  have hothers : ∀ {ns : List Node}, (∀ n ∈ ns, n ∈ sc.node.children) → x ∈ Node.others ns →
      ∃ m ∈ sc.node.children, (x = m ∨ x = m.detach) ∧ (m.isImport = true → m ∈ is) := by
    intro ns hns hx
    obtain ⟨hx, hno⟩ := Node.mem_others.1 hx
    exact ⟨x, hns x hx, .inl rfl, fun h => by rw [hno] at h; cases h⟩
  rcases List.mem_append.1 hx with hx | hx
  · exact (h.each x hx).imp_left fun ⟨hmem, _⟩ => ⟨x, hmem, .inl rfl, fun _ => hx⟩
  rcases List.mem_append.1 hx with hx | hx
  · exact .inl (hothers (fun n hn => by simp [sc.split, hn]) hx)
  rcases List.mem_cons.1 hx with rfl | hx
  · refine .inl ⟨sc.cls, sc.cls_mem, .inr rfl, fun h => ?_⟩
    rw [Node.isImport_of_isClass sc.isClass] at h
    cases h
  · exact .inl (hothers (fun n hn => by simp [sc.split, hn]) hx)

/-- A declaration that is no import is among the children of the arranged scope. -/
theorem mem_arranged {m : Node} (hm : m ∈ sc.node.children)
    (his : m.isImport = true → m ∈ is) : m ∈ sc.arranged is ∨ m.detach ∈ sc.arranged is := by
  rw [arranged]
  cases hi : m.isImport with
  | true => exact .inl (List.mem_append_left _ (his hi))
  | false =>
    rw [sc.split] at hm
    rcases List.mem_append.1 hm with hm | hm
    · exact .inl (List.mem_append_right _ (List.mem_append_left _ (Node.mem_others.2 ⟨hm, hi⟩)))
    rcases List.mem_cons.1 hm with rfl | hm
    · exact .inr (List.mem_append_right _ (List.mem_append_right _ List.mem_cons_self))
    · exact .inl (List.mem_append_right _ (List.mem_append_right _
        (.tail _ (Node.mem_others.2 ⟨hm, hi⟩))))

theorem nodup_arranged (hf : s.Faithful text) {limit : Nat} (h : sc.Imports limit is) :
    ((sc.arranged is).map Node.id).Nodup := by
  have hnodup := hf.distinct.children (node_mem sc)
  have hothers : (Node.others sc.before ++ sc.cls.detach :: Node.others sc.behind).map Node.id =
      (Node.others sc.node.children).map Node.id := by
    have hcls : Node.others (sc.cls :: sc.behind) = sc.cls :: Node.others sc.behind := by
      simp [Node.others, Node.isImport_of_isClass sc.isClass]
    rw [sc.split, Node.others_append, hcls]
    simp [Node.detach]
  rw [arranged, List.map_append, hothers, List.nodup_append]
  refine ⟨h.once, hnodup.sublist ((Node.others_sublist _).map _), fun i hi j hj hij => ?_⟩
  obtain ⟨x, hx, rfl⟩ := List.mem_map.1 hi
  obtain ⟨y, hy, rfl⟩ := List.mem_map.1 hj
  obtain ⟨hy, hno⟩ := Node.mem_others.1 hy
  rcases h.each x hx with ⟨hmem, himport⟩ | ⟨id, name, hle, -, -, rfl⟩
  · obtain rfl := List.inj_on_of_nodup_map hnodup hmem hy hij
    rw [himport] at hno
    cases hno
  · have := hf.fresh y (Node.mem_subnodes_of_child hy (node_mem sc))
    dsimp only at hij
    omega

theorem Imports.selected (hf : s.Faithful text) {limit : Nat} (h : sc.Imports limit is)
    (hst : sc.Stands span body last) :
    s.Selected sc.node.id body.start sc.node.children (sc.arranged is) last := by
  have hnodup := hf.distinct.children (node_mem sc)
  refine ⟨hst.siblings, hnodup, (nodup_arranged hf h).sublist (List.filter_sublist.map _),
    fun x hx a ha => ?_, fun x hx ha hid => ?_, fun before m behind hsplit =>
      predecessor?_child hf.distinct (node_mem sc) hsplit⟩
  · rcases h.cases hx with ⟨m, hm, hxm, -⟩ | ⟨id, name, -, -, -, rfl⟩
    · obtain ⟨b, hb⟩ := (hst.siblings.placed m hm).anchor
      have hma : m.origin.anchor? = some a := by
        rcases hxm with rfl | rfl
        · exact ha
        · rwa [Node.anchor?_detach] at ha
      rw [hb] at hma
      cases hma
      exact ⟨m, hm, by rcases hxm with rfl | rfl <;> rfl, hb⟩
    · cases ha
  · rcases h.cases hx with ⟨m, hm, hxm, -⟩ | ⟨id, name, hle, -, -, rfl⟩
    · obtain ⟨b, hb⟩ := (hst.siblings.placed m hm).anchor
      have hma : m.origin.anchor? = none := by
        rcases hxm with rfl | rfl
        · exact ha
        · rwa [Node.anchor?_detach] at ha
      rw [hb] at hma
      cases hma
    · obtain ⟨y, hy, hyid⟩ := List.mem_map.1 hid
      have := hf.fresh y (Node.mem_subnodes_of_child hy (node_mem sc))
      dsimp only at hyid
      omega

/-- Around the children of the scope all is printed as it was read. -/
theorem print_children (hp : Source.parse text = .ok s) {ns : List Node}
    (h : t.root = s.tree.root.modifyAt (.withChildren fun _ => ns) sc.path)
    (hst : sc.Stands span body last) :
    s.print style 0 t.root = s.tokens.between 0 body.start ++
      s.printList style (.ofDecl sc.node.decl) 0 sc.node.id body.stop ⟨body.start, none, true⟩ ns ++
        s.tokens.between body.stop s.tokens.size := by
  have hf := faithful_of_parse hp
  obtain ⟨rootBody, hroot⟩ := root_origin hp
  have hbounds := hf.placed.bounds sc.reached hroot hst.origin
  have hmod := print_modifyAt style 0 (f := .withChildren fun _ => ns) hf.distinct
    (fun _ => rfl) (fun _ => rfl) (Node.self_mem_subnodes _) hf.placed hroot sc.reached hst.origin
  rw [sc.level_eq (root_decl hp)] at hmod
  rw [h, hmod, print_container (n := sc.node.withChildren fun _ => ns)
      (congrArg Origin.anchor? hst.origin), ← Tokens.between_append hbounds.1 hst.encloses.start_le,
    ← Tokens.between_append hst.encloses.stop_le hst.encloses.le_size]
  simp only [List.append_assoc]
  rfl

def arrangedPieces (sc : s.ClassScope) (style : Style) (body : Span) (is : List Node) : List Piece :=
  .copy 0 body.start :: (s.piecesList style (.ofDecl sc.node.decl) 0 sc.node.id body.stop
    ⟨body.start, none, true⟩ (sc.arranged is) ++ [.copy body.stop s.tokens.size])

theorem Arranged.text_pieces (hp : Source.parse text = .ok s) (h : sc.Arranged is t)
    (hst : sc.Stands span body last) :
    (sc.arrangedPieces style body is).flatMap (Piece.text s.tokens) = s.print style 0 t.root := by
  rw [print_children hp h.root hst, arrangedPieces]
  simp only [List.flatMap_cons, List.flatMap_append, Piece.text, text_piecesList, List.flatMap_nil,
    List.append_nil, List.append_assoc]

/-- Token `k` belongs to an import that is left out, since others bind all that it binds. -/
def Dropped (sc : s.ClassScope) (is : List Node) (k : Nat) : Prop :=
  ∃ m ∈ sc.node.children, m.isImport = true ∧ m ∉ is ∧
    (∀ b ∈ m.importBindings, ∃ n ∈ is, b ∈ n.importBindings) ∧
    ∃ a, m.origin = .anchored a ∧ a.span.start ≤ k ∧ k < a.span.stop

/-- Token `k` is white space, a tag or text outside of code, and stands in the scope in front of one
of its children. -/
def Stray (sc : s.ClassScope) (k : Nat) : Prop :=
  s.tokens.isLoose k = true ∧ ∃ span body, sc.node.origin = .anchored ⟨span, some body⟩ ∧
    body.start ≤ k ∧ k < Node.lastStop body.start sc.node.children ∧
    ∀ m ∈ sc.node.children, ∀ a, m.origin = .anchored a → ¬(a.span.start ≤ k ∧ k < a.span.stop)

/-- The children of the arranged scope print their tokens and no others. -/
theorem Imports.covered (style : Style) (hf : s.Faithful text) {limit : Nat}
    (h : sc.Imports limit is) :
    ∀ x ∈ sc.arranged is, ∀ a, x.origin.anchor? = some a → s.Covered style x a := by
  intro x hx a ha
  rcases h.cases hx with ⟨m, hm, rfl | rfl, -⟩ | ⟨id, name, -, -, -, rfl⟩
  · exact covered_read style hf (Node.mem_subnodes_of_child hm (node_mem sc)) ha
  · rw [Node.anchor?_detach] at ha
    have hcov := covered_read style hf (Node.mem_subnodes_of_child hm (node_mem sc)) ha
    refine ⟨?_, ?_, ?_, ?_⟩ <;> simp only [pieces_detach]
    · exact hcov.outside
    · exact hcov.le_one
    · exact hcov.pos
    · exact hcov.trims
  · cases ha

theorem exact_child (style : Style) (hf : s.Faithful text) (hst : sc.Stands span body last) {m : Node}
    {a : Anchor} (hm : m ∈ sc.node.children) (his : m.isImport = true → m ∈ is) (ha : m.origin = .anchored a)
    (hk : a.span.start ≤ k ∧ k < a.span.stop) :
    ∃ x ∈ sc.arranged is, 0 < Piece.count k (s.pieces style level x) := by
  have hcount := exact_of_placed style hf.distinct (hst.siblings.placed m hm)
    (Node.mem_subnodes_of_child hm (node_mem sc)) level k a ha
  rw [if_pos hk] at hcount
  rcases mem_arranged hm his with hx | hx
  · exact ⟨_, hx, by omega⟩
  · refine ⟨_, hx, ?_⟩
    rw [pieces_detach]
    omega

/-- Token `k` is whole in the text from `i` to `j` without the white space around it. -/
def Whole (s : Source) (i j k : Nat) : Prop :=
  ∃ u v, u <:+ s.tokens.between i k ∧ v <+: s.tokens.between (k + 1) j ∧
    (s.tokens.between i j).trim = u ++ s.tokens.text k ++ v

/-- What imports keep of the source: a token is printed once at most, and once unless it belongs to
an import that is left out or is loose in front of a child of the scope. -/
structure Retains (sc : s.ClassScope) (is : List Node) (ps : List Piece) : Prop where
  le_one : ∀ k, Piece.count k ps ≤ 1
  eq_one : ∀ k < s.tokens.size, ¬sc.Dropped is k → ¬sc.Stray k → Piece.count k ps = 1
  whole : ∀ i j, .trimmed i j ∈ ps → ∀ k < s.tokens.size, i ≤ k → k < j →
    s.tokens.isLoose k = false → ¬sc.Dropped is k → Whole s i j k

theorem not_isLoose_cases (hk : k < s.tokens.size) (h : s.tokens.isLoose k = false) :
    s.tokens.isCode k = true ∨ s.tokens.isComment k = true := by
  cases hcode : s.tokens.isCode k with
  | true => exact .inl rfl
  | false =>
    cases hcomment : s.tokens.isComment k with
    | true => exact .inr rfl
    | false =>
      rw [Tokens.isLoose_of_not hk hcode hcomment] at h
      cases h

/-- What the scope prints between its first token and its last. -/
def scopePieces (sc : s.ClassScope) (style : Style) (body : Span) (is : List Node) : List Piece :=
  s.piecesList style (.ofDecl sc.node.decl) 0 sc.node.id body.stop ⟨body.start, none, true⟩ (sc.arranged is)

theorem count_arrangedPieces (sc : s.ClassScope) (style : Style) (body : Span) (is : List Node) (k : Nat) :
    Piece.count k (sc.arrangedPieces style body is) =
      (if 0 ≤ k ∧ k < body.start then 1 else 0) + (Piece.count k (sc.scopePieces style body is) +
        if body.stop ≤ k ∧ k < s.tokens.size then 1 else 0) := by
  rw [arrangedPieces, scopePieces, Piece.count_cons, Piece.count_append, Piece.count_copy,
    Piece.count_copy]

theorem mem_of_not_dropped {m : Node} {a : Anchor}
    (hbound : ∀ m ∈ sc.node.children, m.isImport = true → ∀ b ∈ m.importBindings,
      ∃ n ∈ is, b ∈ n.importBindings) (hdropped : ¬sc.Dropped is k) (hm : m ∈ sc.node.children)
    (ha : m.origin = .anchored a) (hspan : a.span.start ≤ k ∧ k < a.span.stop)
    (himport : m.isImport = true) : m ∈ is := by
  by_contra hnot
  exact hdropped ⟨m, hm, himport, hnot, hbound m hm himport, a, ha, hspan⟩

section

variable (style : Style) (hf : s.Faithful text) {limit : Nat} (h : sc.Imports limit is)
  (hst : sc.Stands span body last)
include hf h hst

theorem Imports.bounds_of_count (hk : 0 < Piece.count k (sc.scopePieces style body is)) :
    body.start ≤ k ∧ k < body.stop :=
  bounds_of_count_piecesList (h.selected hf hst) hst.encloses.last_le (h.covered style hf) hk

theorem Imports.count_le_one (k : Nat) : Piece.count k (sc.scopePieces style body is) ≤ 1 :=
  count_piecesList_le_one (h.selected hf hst) .start (h.covered style hf)

variable (hbound : ∀ m ∈ sc.node.children, m.isImport = true → ∀ b ∈ m.importBindings,
  ∃ n ∈ is, b ∈ n.importBindings)
include hbound

theorem Imports.count_pos (hk : k < s.tokens.size) (hdropped : ¬sc.Dropped is k)
    (hstray : ¬sc.Stray k) (hfront : body.start ≤ k) (hback : k < body.stop) :
    0 < Piece.count k (sc.scopePieces style body is) := by
  have hwalk := (Walk.start (i := body.start)).passAll s sc.node.id (sc.arranged is)
  have hend := hwalk.index_le (h.selected hf hst)
  refine count_piecesList_pos ?_
  by_cases htail : (s.passAll sc.node.id ⟨body.start, none, true⟩ (sc.arranged is)).index ≤ k
  · exact .inr ⟨htail, hback⟩
  refine .inl ?_
  by_cases hread : ∃ m ∈ sc.node.children, ∃ a, m.origin = .anchored a ∧
      a.span.start ≤ k ∧ k < a.span.stop
  · obtain ⟨m, hm, a, ha, hspan⟩ := hread
    exact exact_child style hf hst hm (mem_of_not_dropped hbound hdropped hm ha hspan) ha hspan
  · refine absurd ⟨?_, span, body, hst.origin, hfront, ?_, ?_⟩ hstray
    · obtain ⟨hcode, hcomment⟩ :=
        (loose_or_mem hst.siblings hfront (by omega)).resolve_right hread
      exact Tokens.isLoose_of_not hk hcode hcomment
    · rw [← hst.siblings.last_eq]
      omega
    · exact fun m hm a ha hspan => hread ⟨m, hm, a, ha, hspan⟩

/-- What is left of the white space in front of the end of the scope keeps its comments. -/
theorem Imports.whole {i j : Nat} (hp : .trimmed i j ∈ sc.scopePieces style body is)
    (hk : k < s.tokens.size) (hi : i ≤ k) (hj : k < j) (hloose : s.tokens.isLoose k = false)
    (hdropped : ¬sc.Dropped is k) : Whole s i j k := by
  have hwalk := (Walk.start (i := body.start)).passAll s sc.node.id (sc.arranged is)
  rcases trimmed_of_piecesList hp with ⟨x, hx, hp⟩ | ⟨hi', rfl, hblock, hbreak⟩
  · obtain ⟨b, hb⟩ := anchor_of_trimmed hp
    have htrims := (h.covered style hf x hx b hb).trims _ i j hp
    rcases not_isLoose_cases hk hloose with hcode | hcomment
    · rw [htrims.plain k hi hj] at hcode
      cases hcode
    · exact htrims.comment k hi hj hcomment
  · obtain ⟨-, -, -, hclose⟩ := hst.encloses.braces hblock
    refine Tokens.comment_of_trim hf.reads hclose hbreak hi hj ?_
    refine (not_isLoose_cases hk hloose).resolve_left fun hcode => ?_
    by_cases hlast : last ≤ k
    · rw [hst.encloses.plain k hlast hj] at hcode
      cases hcode
    have hfront : body.start ≤ k := by
      have := hwalk.le
      omega
    rcases loose_or_mem hst.siblings hfront (Nat.lt_of_not_le hlast) with
      ⟨hno, -⟩ | ⟨m, hm, a, ha, hspan⟩
    · rw [hno] at hcode
      cases hcode
    · have hpass : a.span.stop ≤ i := by
        rw [hi']
        rcases mem_arranged hm (mem_of_not_dropped hbound hdropped hm ha hspan) with hx | hx
        · exact hwalk.passed m hx a (by rw [ha]; rfl)
        · exact hwalk.passed _ hx a (by rw [Node.anchor?_detach, ha]; rfl)
      omega

theorem Imports.retains : sc.Retains is (sc.arrangedPieces style body is) := by
  have hle : body.start ≤ body.stop := Nat.le_trans hst.siblings.le hst.encloses.last_le
  refine ⟨fun k => ?_, fun k hk hdropped hstray => ?_, fun i j hp k hk hi hj hloose hdropped => ?_⟩
  · have := h.bounds_of_count style hf hst (k := k)
    have := h.count_le_one style hf hst k
    rw [count_arrangedPieces]
    split <;> split <;> omega
  · have := h.count_pos style hf hst hbound hk hdropped hstray
    have := h.bounds_of_count style hf hst (k := k)
    have := h.count_le_one style hf hst k
    rw [count_arrangedPieces]
    split <;> split <;> omega
  · exact h.whole style hf hst hbound (Piece.trimmed_of_framed hp) hk hi hj hloose hdropped

end

end ClassScope
end Source

/-- Importing classes keeps the source, but for white space and tags in front of the declarations of
the scope and for imports whose names others bind. -/
theorem render_addImports {text : Text} {style : Style} {e e' : Editor} {names : List Text}
    (h : Editor.parse text style = .ok e) (ha : e.addImports names = .ok e') :
    ∃ (sc : e.source.ClassScope) (is : List Node) (ps : List Piece),
      e'.working.root.at? sc.path = some (sc.node.withChildren fun _ => sc.arranged is) ∧
        ps.flatMap (Piece.text e.source.tokens) = e'.render ∧ sc.Retains is ps := by
  obtain ⟨s, hp, rfl⟩ := Editor.parse_eq h
  have hf := Source.faithful_of_parse hp
  obtain ⟨sc, qs, -, hsource, hstyle, hw⟩ := Editor.addImports_parsed hf rfl ha
  obtain ⟨span, body, last, hst⟩ := sc.stands hf
  refine ⟨sc, _, sc.arrangedPieces (style.matching text) body _, hw.at?, ?_,
    hw.imports.retains _ hf hst fun m hm himport b hb => ?_⟩
  · rw [Editor.render, hsource, hstyle]
    exact hw.text_pieces hp hst
  · have hmem : m ∈ sc.node.children.filter Node.isImport := List.mem_filter.2 ⟨hm, himport⟩
    rcases Node.bound_of_dropped [] hmem hb with hnil | ⟨n, hn, hbn⟩
    · cases hnil
    · exact ⟨n, Node.mem_mergeImports.2 (.inl hn), hbn⟩

/-- Two imports of one class in a namespace, the second one behind the class. -/
theorem render_addImports_twice : ∃ e e',
    Editor.parse "<?php namespace N \x7b use A; /* c */ class B \x7b\x7d use A; \x7d" = .ok e ∧
      e.addImports ["A", "C"] = .ok e' ∧
      ∃ (sc : e.source.ClassScope) (is : List Node) (ps : List Piece),
        e'.working.root.at? sc.path = some (sc.node.withChildren fun _ => sc.arranged is) ∧
          ps.flatMap (Piece.text e.source.tokens) = e'.render ∧ sc.Retains is ps := by
  have hrun : (Editor.parse
      "<?php namespace N \x7b use A; /* c */ class B \x7b\x7d use A; \x7d").toOption.any
      (fun e => (e.addImports ["A", "C"]).isOk) = true := by
    decide +kernel
  obtain ⟨e, h, hok⟩ := Steps.exists_of_any hrun
  obtain ⟨e', ha⟩ := Steps.exists_of_isOk hok
  exact ⟨e, e', h, ha, render_addImports h ha⟩

/-- Text outside of code that stands in front of the class is not printed. -/
theorem addImports_loses_html : ∃ (e e' : Editor) (k : Nat),
    Editor.parse "<?php use B; ?>html<?php class A \x7b\x7d" = .ok e ∧
      e.addImports ["B"] = .ok e' ∧ e.source.tokens[k]? = some (⟨.inlineHtml, "html"⟩ : Token) ∧
      e'.render = "<?php use B;\n\nclass A \x7b\x7d" ∧ e'.render.hasInfix "html" = false := by
  have hrun : (Editor.parse "<?php use B; ?>html<?php class A \x7b\x7d").toOption.any
      (fun (e : Editor) => (e.addImports ["B"]).toOption.any fun (e' : Editor) =>
        decide (e.source.tokens[7]? = some (⟨.inlineHtml, "html"⟩ : Token) ∧
          e'.render = "<?php use B;\n\nclass A \x7b\x7d" ∧ e'.render.hasInfix "html" = false)) =
      true := by
    decide +kernel
  obtain ⟨e, h, hrun⟩ := Steps.exists_of_any hrun
  obtain ⟨e', ha, hrun⟩ := Steps.exists_of_any hrun
  exact ⟨e, e', 7, h, ha, of_decide_eq_true hrun⟩

end PhpGraft
