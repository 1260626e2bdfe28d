import PhpGraft.Proofs.Rearrangement
import PhpGraft.Proofs.Steps
import PhpGraft.Proofs.Text

/-!
What a rearranged tree prints of its source. Between two children there is either a run of loose
tokens, copied, or the layout of generated code; no token is printed twice, and one that belongs to
a node is printed.
-/
namespace PhpGraft

namespace Tokens

variable {ts : Tokens} {i j k : Nat}

/-- White space, tags, and the text outside of them. -/
def isLoose (ts : Tokens) (k : Nat) : Bool :=
  (ts.kind? k).any fun kind => [.whitespace, .closeTag, .inlineHtml, .openTag].contains kind

theorem isLoose_of_not (hk : k < ts.size) (hcode : ts.isCode k = false)
    (hcomment : ts.isComment k = false) : ts.isLoose k = true := by
  simp only [isLoose, isCode, isComment, kind?, Array.getElem?_eq_getElem hk, Option.map_some,
    Option.any_some] at *
  generalize ts[k].kind = kind at *
  cases kind <;> first | rfl | contradiction

theorem spell_drop (ts : Tokens) (i : Nat) :
    Token.spell (ts.toList.drop i) = ts.between i ts.size := by
  rw [between_eq, List.take_of_length_le (by simp)]

/-- In front of a brace, trimming a text without line breaks keeps its comments. -/
theorem comment_of_trim {text : Text} (h : Lexer.Reads .html ts.toList text)
    (hclose : ts.isPunct j '}' = true) (hbreak : '\n' ∉ ts.between i j) (hi : i ≤ k) (hj : k < j)
    (hk : ts.isComment k = true) :
    ∃ u v, u <:+ ts.between i k ∧ v <+: ts.between (k + 1) j ∧
      (ts.between i j).trim = u ++ ts.text k ++ v := by
  obtain ⟨kind, hkind, hcomment⟩ := (Option.any_eq_true _ _).1 hk
  obtain ⟨tok, htok, rfl⟩ := Option.map_eq_some_iff.1 hkind
  have htext : ts.text k = tok.text := by simp [Tokens.text, htok]
  have hsplit : ts.between i j = ts.between i k ++ tok.text ++ ts.between (k + 1) j := by
    rw [← between_succ htok, between_append hi (Nat.le_succ k), between_append (by omega) hj]
  have hrest : Token.spell (ts.toList.drop (k + 1)) =
      ts.between (k + 1) j ++ '}' :: ts.between (j + 1) ts.size := by
    have hsize := lt_size_of_isCode (isCode_of_isPunct hclose)
    rw [spell_drop, ← between_append hj (Nat.le_of_lt hsize),
      ← between_append (Nat.le_succ j) hsize, between_succ (isPunct_iff.1 hclose)]
    rfl
  obtain ⟨hfirst, hlast⟩ := h.comment (by rwa [Array.getElem?_toList]) hcomment
  rw [htext, hsplit]
  obtain ⟨v, hv, htrim⟩ := Text.trim_append (u := ts.between i k) (t := ts.between (k + 1) j) hfirst <| by
    rw [hrest] at hlast
    rcases hlast with hlast | hnil | ⟨r, hr⟩ | ⟨r, hr⟩
    · exact .inl hlast
    · exact absurd hnil (by simp)
    · cases hb : ts.between (k + 1) j with
      | nil =>
        rw [hb] at hr
        cases hr
      | cons c t =>
        rw [hb] at hr
        cases hr
        exact absurd (by simp [hsplit, hb]) hbreak
    · cases hb : ts.between (k + 1) j with
      | nil =>
        rw [hb] at hr
        cases hr
      | cons c t =>
        rw [hb] at hr
        exact .inr ⟨c, t, rfl, (List.cons.inj hr).1 ▸ by decide⟩
  exact ⟨_, v, Text.isSuffix_trimStart _, hv, htrim⟩

end Tokens

/-- A piece of printed text, by where it comes from. -/
inductive Piece where
  | copy (start stop : Nat)
  /-- Source text without the white space around it. -/
  | trimmed (start stop : Nat)
  | made (text : Text)

namespace Piece

def text (ts : Tokens) : Piece → Text
  | copy i j => ts.between i j
  | trimmed i j => (ts.between i j).trim
  | made t => t

def covers (k : Nat) : Piece → Bool
  | copy i j | trimmed i j => i ≤ k && k < j
  | made _ => false

/-- How often token `k` is printed. -/
def count (k : Nat) (ps : List Piece) : Nat := ps.countP (covers k)

theorem trimmed_of_framed {a b a' b' j l : Nat} {ps : List Piece}
    (hp : .trimmed j l ∈ .copy a b :: (ps ++ [.copy a' b'])) : .trimmed j l ∈ ps := by
  simpa using hp

theorem count_cons (k : Nat) (p : Piece) (ps : List Piece) :
    count k (p :: ps) = count k [p] + count k ps := by
  rw [count, count, count, ← List.countP_append]
  rfl

theorem count_append (k : Nat) (ps qs : List Piece) :
    count k (ps ++ qs) = count k ps + count k qs := List.countP_append

theorem count_copy (k i j : Nat) : count k [copy i j] = if i ≤ k ∧ k < j then 1 else 0 := by
  simp [count, covers]

theorem count_trimmed (k i j : Nat) : count k [trimmed i j] = if i ≤ k ∧ k < j then 1 else 0 := by
  simp [count, covers]

theorem count_made (k : Nat) (t : Text) : count k [made t] = 0 := by
  simp [count, covers]

/-- A run of tokens in two parts. -/
theorem count_span {i j k l : Nat} (hij : i ≤ j) (hjl : j ≤ l) :
    ((if i ≤ k ∧ k < j then 1 else 0) + if j ≤ k ∧ k < l then 1 else 0) =
      if i ≤ k ∧ k < l then 1 else 0 := by
  split <;> split <;> split <;> omega

end Piece

namespace Source

def gapPiece (s : Source) (style : Style) (c : Container) (level : Nat) (kept : Bool) (cur : Cursor)
    (n : Node) : Piece :=
  match kept, n.origin.anchor? with
  | true, some a => .copy cur.index a.span.start
  | _, _ => .made (s.gap style c level false cur n)

def tailPieces (s : Source) (style : Style) (c : Container) (level : Nat) (cur : Cursor)
    (stop : Nat) : List Piece :=
  if !cur.kept && c = .block && !(s.tokens.between cur.index stop).contains '\n' then
    [.made (style.newline ++ style.indentation level), .trimmed cur.index stop]
  else [.copy cur.index stop]

mutual

/-- What `print` puts together. -/
def pieces (s : Source) (style : Style) (level : Nat) : Node → List Piece
  | ⟨id, origin, decl, children⟩ =>
    match origin.anchor? with
    | none => [.made (Node.print style level ⟨id, origin, decl, children⟩)]
    | some a =>
      match a.body? with
      | none => [.copy a.span.start a.span.stop]
      | some body =>
        .copy a.span.start body.start ::
          (piecesList s style (.ofDecl decl) level id body.stop ⟨body.start, none, true⟩ children ++
            [.copy body.stop a.span.stop])

def piecesList (s : Source) (style : Style) (c : Container) (level parent stop : Nat)
    (cur : Cursor) : List Node → List Piece
  | [] => s.tailPieces style c level cur stop
  | n :: ns =>
    let kept := s.keeps parent cur n
    s.gapPiece style c (c.childLevel level) kept cur n ::
      (pieces s style (c.childLevel level) n ++
        piecesList s style c level parent stop (cur.pass kept n) ns)

end

variable {s : Source} {style : Style} {c : Container} {level parent stop k : Nat} {cur : Cursor}

theorem text_gapPiece (kept : Bool) (n : Node) :
    (s.gapPiece style c level kept cur n).text s.tokens = s.gap style c level kept cur n := by
  unfold gapPiece gap
  cases kept <;> cases n.origin.anchor? <;> rfl

theorem text_tailPieces :
    (s.tailPieces style c level cur stop).flatMap (Piece.text s.tokens) =
      s.tail style c level cur stop := by
  unfold tailPieces tail
  dsimp only
  split <;> simp [Piece.text]

mutual

/-- The pieces make up the printed text. -/
theorem text_pieces (level : Nat) : ∀ n : Node,
    (s.pieces style level n).flatMap (Piece.text s.tokens) = s.print style level n
  | ⟨id, origin, decl, children⟩ => by
    rw [pieces, print]
    cases origin.anchor? with
    | none => simp [Piece.text]
    | some a =>
      obtain ⟨span, body?⟩ := a
      cases body? with
      | none => simp [Piece.text, Tokens.slice]
      | some body =>
        simp only [List.flatMap_cons, List.flatMap_append, Piece.text, List.flatMap_nil,
          text_piecesList, List.append_nil, List.append_assoc]

theorem text_piecesList (c : Container) (level parent stop : Nat) (cur : Cursor) :
    ∀ ns : List Node,
    (s.piecesList style c level parent stop cur ns).flatMap (Piece.text s.tokens) =
      s.printList style c level parent stop cur ns
  | [] => by rw [piecesList, printList, text_tailPieces]
  | n :: ns => by
    rw [piecesList, printList]
    simp only [List.flatMap_cons, List.flatMap_append, text_gapPiece, text_pieces, text_piecesList,
      List.append_assoc]

end

/-! Where printing stands among selected children. -/

/-- Child `x` was read behind `before`, which ends at `mid`. -/
structure Slot (ts : Tokens) (i : Nat) (ms : List Node) (last : Nat) (x : Node) (a : Anchor)
    (before : List Node) (mid : Nat) : Prop where
  split : ∃ m behind, ms = before ++ m :: behind ∧ m.id = x.id ∧ m.origin = .anchored a ∧
    Siblings ts a.span.stop behind last
  front : Siblings ts i before mid
  le : mid ≤ a.span.start
  loose : ts.Loose mid a.span.start
  lt : a.span.start < a.span.stop

variable {i last mid mid' : Nat} {ms cs done ns before before' : List Node} {n x y : Node}
  {a b : Anchor}

theorem Selected.slot (h : s.Selected parent i ms cs last) (hx : x ∈ cs)
    (ha : x.origin.anchor? = some a) :
    ∃ before mid, Slot s.tokens i ms last x a before mid := by
  obtain ⟨m, hm, hid, ho⟩ := h.read x hx a ha
  obtain ⟨before, behind, rfl⟩ := List.append_of_mem hm
  obtain ⟨mid, hfront, hs⟩ := h.siblings.split
  cases hs with
  | cons ho' hle hloose hpl hs =>
    obtain rfl := Origin.anchored.inj (ho'.symm.trans ho)
    exact ⟨before, mid, ⟨m, behind, rfl, hid, ho, hs⟩, hfront, hle, hloose, hpl.start_lt ho⟩

theorem Slot.stop_le (h : Slot s.tokens i ms last x a before mid) : a.span.stop ≤ last := by
  obtain ⟨m, behind, -, -, -, hs⟩ := h.split
  exact hs.le

/-- Two children of different numbers were read one behind the other. -/
theorem Slot.apart (hx : Slot s.tokens i ms last x a before mid)
    (hy : Slot s.tokens i ms last y b before' mid') (hne : x.id ≠ y.id) :
    a.span.stop ≤ mid' ∨ b.span.stop ≤ mid := by
  obtain ⟨m, behind, hm, hmid, hma, -⟩ := hx.split
  obtain ⟨l, behind', hl, hlid, hlb, -⟩ := hy.split
  have heq := hm.symm.trans hl
  rcases List.append_eq_append_iff.1 heq with ⟨zs, hzs, hrest⟩ | ⟨zs, hzs, hrest⟩
  · left
    cases zs with
    | nil =>
      cases (List.cons.inj hrest).1
      exact absurd (hmid.symm.trans hlid) hne
    | cons z zs =>
      cases (List.cons.inj hrest).1
      exact (hy.front.bounds (by simp [hzs]) hma).2
  · right
    cases zs with
    | nil =>
      cases (List.cons.inj hrest).1
      exact absurd (hmid.symm.trans hlid) hne
    | cons z zs =>
      cases (List.cons.inj hrest).1
      exact (hx.front.bounds (by simp [hzs]) hlb).2

/-- Printing got from `i` behind the children `done`. -/
structure Walk (i : Nat) (done : List Node) (cur : Cursor) : Prop where
  prev : cur.prev? = done.getLast?
  le : i ≤ cur.index
  passed : ∀ x ∈ done, ∀ a, x.origin.anchor? = some a → a.span.stop ≤ cur.index
  reached : cur.index = i ∨ ∃ x ∈ done, ∃ a, x.origin.anchor? = some a ∧ a.span.stop = cur.index

theorem Walk.start : Walk i [] ⟨i, none, true⟩ :=
  ⟨rfl, Nat.le_refl _, (fun _ hx => absurd hx List.not_mem_nil), .inl rfl⟩

theorem Walk.pass (h : Walk i done cur) (kept : Bool) (n : Node) :
    Walk i (done ++ [n]) (cur.pass kept n) := by
  have hle : cur.index ≤ (cur.pass kept n).index := by
    unfold Cursor.pass
    cases n.origin.anchor? with
    | none => exact Nat.le_refl _
    | some a => exact Nat.le_max_left _ _
  refine ⟨by simp [Cursor.pass], Nat.le_trans h.le hle, fun x hx a ha => ?_, ?_⟩
  · rcases List.mem_append.1 hx with hx | hx
    · exact Nat.le_trans (h.passed x hx a ha) hle
    · rw [List.mem_singleton.1 hx] at ha
      simp only [Cursor.pass, ha]
      exact Nat.le_max_right _ _
  · cases ha : n.origin.anchor? with
    | none =>
      simp only [Cursor.pass, ha]
      rcases h.reached with h | ⟨x, hx, hxa⟩
      · exact .inl h
      · exact .inr ⟨x, List.mem_append_left _ hx, hxa⟩
    | some a =>
      simp only [Cursor.pass, ha]
      rcases Nat.le_total cur.index a.span.stop with hle | hle
      · exact .inr ⟨n, by simp, a, ha, (Nat.max_eq_right hle).symm⟩
      · rw [Nat.max_eq_left hle]
        rcases h.reached with h | ⟨x, hx, hxa⟩
        · exact .inl h
        · exact .inr ⟨x, List.mem_append_left _ hx, hxa⟩

/-- Where printing stands behind the given children. -/
def passAll (s : Source) (parent : Nat) (cur : Cursor) : List Node → Cursor
  | [] => cur
  | n :: ns => passAll s parent (cur.pass (s.keeps parent cur n) n) ns

theorem Walk.passAll (h : Walk i done cur) (s : Source) (parent : Nat) (ns : List Node) :
    Walk i (done ++ ns) (s.passAll parent cur ns) := by
  induction ns generalizing done cur with
  | nil =>
    rw [List.append_nil]
    exact h
  | cons n ns ih =>
    have := ih (h.pass (s.keeps parent cur n) n)
    rwa [List.append_assoc] at this

theorem Selected.id_ne (h : s.Selected parent i ms (done ++ n :: ns) last)
    (hn : n.origin.anchor? = some a) (hx : x ∈ done ++ ns) (hxa : x.origin.anchor? = some b) :
    x.id ≠ n.id := by
  have hnodup := h.once
  simp only [Node.readIds, List.filter_append, List.map_append, hn, Option.isSome_some,
    List.filter_cons_of_pos, List.map_cons] at hnodup
  obtain ⟨-, hcons, hapart⟩ := List.nodup_append.1 hnodup
  have hmem : ∀ {xs : List Node}, x ∈ xs → x.id ∈ (xs.filter (·.origin.anchor?.isSome)).map Node.id :=
    fun hx => List.mem_map_of_mem (List.mem_filter.2 ⟨hx, by rw [hxa]; rfl⟩)
  rcases List.mem_append.1 hx with hx | hx
  · exact hapart _ (hmem hx) _ List.mem_cons_self
  · intro he
    exact (List.nodup_cons.1 hcons).1 (he ▸ hmem hx)

/-- A child keeps its place only where the cursor is at the end of what it was read behind. -/
theorem Walk.index_eq (h : s.Selected parent i ms (done ++ n :: ns) last) (hw : Walk i done cur)
    (ho : n.origin = .anchored a) (hk : s.keeps parent cur n = true) :
    ∃ before, Slot s.tokens i ms last n a before cur.index := by
  have ha : n.origin.anchor? = some a := by rw [ho]; rfl
  obtain ⟨before, mid, hslot⟩ := h.slot (x := n) (by simp) ha
  obtain ⟨m, behind, hm, hid, hma, -⟩ := hslot.split
  simp only [keeps, ho, Bool.and_eq_true, decide_eq_true_eq, beq_iff_eq] at hk
  obtain ⟨hle, hpred⟩ := hk
  rw [← hid, h.predecessor before m behind hm, Option.some.injEq] at hpred
  have hup : cur.index ≤ mid := by
    rcases hw.reached with hi | ⟨x, hx, b, hb, hstop⟩
    · rw [hi]
      exact hslot.front.le
    · obtain ⟨before', mid', hslot'⟩ := h.slot (x := x) (by simp [hx]) hb
      have hne := h.id_ne ha (List.mem_append_left _ hx) hb
      have := hslot'.le
      have := hslot'.lt
      have := hslot.lt
      rcases hslot'.apart hslot hne with hap | hap <;> omega
  have hdown : mid ≤ cur.index := by
    cases hp : before.getLast? with
    | none =>
      rw [List.getLast?_eq_none_iff.1 hp] at hslot
      cases hslot.front
      exact hw.le
    | some p =>
      have hpm : p ∈ ms := by simp [hm, List.mem_of_getLast? hp]
      rw [hp, Option.map_some] at hpred
      obtain ⟨q, hq, hqid⟩ := Option.map_eq_some_iff.1 hpred.symm
      have hqdone : q ∈ done := List.mem_of_getLast? (hw.prev ▸ hq)
      cases hb : q.origin.anchor? with
      | none =>
        exact absurd (hqid ▸ List.mem_map_of_mem hpm) (h.new q (by simp [hqdone]) hb)
      | some b =>
        obtain ⟨l, hl, hlid, hlb⟩ := h.read q (by simp [hqdone]) b hb
        obtain rfl : l = p := List.inj_on_of_nodup_map h.nodup hl hpm (hlid.trans hqid)
        have hmid := hslot.front.last_eq
        simp only [Node.lastStop, hp, Option.bind_some, hlb, Origin.anchor?, Option.map_some,
          Option.getD_some] at hmid
        rw [hmid]
        exact hw.passed q hqdone b hb
  obtain rfl := Nat.le_antisymm hup hdown
  exact ⟨before, hslot⟩

/-- Each child that was read is among the shuffled ones. -/
theorem Shuffled.exists_read (h : s.Shuffled parent i ms cs last) {m : Node} (hm : m ∈ ms) :
    ∃ x ∈ cs, ∃ a, x.origin.anchor? = some a ∧ m.origin = .anchored a := by
  obtain ⟨x, hx, hid⟩ := List.mem_map.1 (h.perm.symm.subset (List.mem_map_of_mem hm))
  obtain ⟨hx, hxa⟩ := List.mem_filter.1 hx
  obtain ⟨a, ha⟩ := Option.isSome_iff_exists.1 hxa
  obtain ⟨l, hl, hlid, hla⟩ := h.read x hx a ha
  obtain rfl : l = m := List.inj_on_of_nodup_map h.nodup hl hm (hlid.trans hid)
  exact ⟨x, hx, a, ha, hla⟩

theorem Walk.index_le (h : s.Selected parent i ms cs last) (hw : Walk i cs cur) :
    cur.index ≤ last := by
  rcases hw.reached with hi | ⟨x, hx, b, hb, hstop⟩
  · rw [hi]
    exact h.siblings.le
  · obtain ⟨before, mid, hslot⟩ := h.slot hx hb
    rw [← hstop]
    exact hslot.stop_le

/-- Behind all children the cursor is where the last of them was read. -/
theorem Walk.index_eq_last (h : s.Shuffled parent i ms cs last) (hw : Walk i cs cur) :
    cur.index = last := by
  refine Nat.le_antisymm (hw.index_le h.selected) ?_
  have hlast := h.siblings.last_eq
  cases hp : ms.getLast? with
  | none =>
    simp only [Node.lastStop, hp, Option.bind_none, Option.map_none, Option.getD_none] at hlast
    rw [hlast]
    exact hw.le
  | some p =>
    obtain ⟨x, hx, b, hb, hpb⟩ := h.exists_read (List.mem_of_getLast? hp)
    simp only [Node.lastStop, hp, Option.bind_some, hpb, Origin.anchor?, Option.map_some,
      Option.getD_some] at hlast
    rw [hlast]
    exact hw.passed x hx b hb

/-! How often a token is printed. -/

/-- A loose token between the children of a container, or behind them in a block: it is printed
where all around it kept its place. -/
def Idle (s : Source) (k : Nat) : Prop :=
  s.tokens.isLoose k = true ∧
    ∃ m ∈ s.tree.root.subnodes, ∃ span body, m.origin = .anchored ⟨span, some body⟩ ∧
      body.start ≤ k ∧ k < body.stop ∧
      (k < Node.lastStop body.start m.children ∨ Container.ofDecl m.decl = .block) ∧
      ∀ c ∈ m.children, ∀ a, c.origin = .anchored a → ¬(a.span.start ≤ k ∧ k < a.span.stop)

/-- No code stands in a text that is trimmed, and trimming it cuts no comment. -/
structure Trims (s : Source) (i j : Nat) : Prop where
  plain : s.tokens.Plain i j
  comment : ∀ k, i ≤ k → k < j → s.tokens.isComment k = true →
    ∃ u v, u <:+ s.tokens.between i k ∧ v <+: s.tokens.between (k + 1) j ∧
      (s.tokens.between i j).trim = u ++ s.tokens.text k ++ v

/-- The tokens of a node with anchor `a` are printed by it and only by it. -/
structure Covered (s : Source) (style : Style) (n : Node) (a : Anchor) : Prop where
  outside : ∀ level k, ¬(a.span.start ≤ k ∧ k < a.span.stop) →
    Piece.count k (s.pieces style level n) = 0
  le_one : ∀ level k, Piece.count k (s.pieces style level n) ≤ 1
  pos : ∀ level k, a.span.start ≤ k → k < a.span.stop → ¬s.Idle k →
    0 < Piece.count k (s.pieces style level n)
  trims : ∀ level i j, .trimmed i j ∈ s.pieces style level n → s.Trims i j

theorem print_new (hn : n.origin.anchor? = none) (level : Nat) :
    s.print style level n = n.print style level := by
  cases n
  dsimp only at hn
  simp only [print, hn]

theorem pieces_new (hn : n.origin.anchor? = none) (level : Nat) :
    s.pieces style level n = [.made (n.print style level)] := by
  cases n
  dsimp only at hn
  simp only [pieces, hn]

theorem count_pieces_new (hn : n.origin.anchor? = none) (level k : Nat) :
    Piece.count k (s.pieces style level n) = 0 := by
  rw [pieces_new hn, Piece.count_made]

theorem count_tailPieces : Piece.count k (s.tailPieces style c level cur stop) =
    if cur.index ≤ k ∧ k < stop then 1 else 0 := by
  unfold tailPieces
  split
  · rw [Piece.count_cons, Piece.count_made, Piece.count_trimmed, Nat.zero_add]
  · rw [Piece.count_copy]

/-- Only a gap that is kept is source text. -/
theorem count_gapPiece (style : Style) (c : Container) (level k : Nat)
    (h : s.Selected parent i ms (done ++ n :: ns) last) (hw : Walk i done cur) :
    Piece.count k [s.gapPiece style c level (s.keeps parent cur n) cur n] = 0 ∨
      ∃ a before, n.origin.anchor? = some a ∧ Slot s.tokens i ms last n a before cur.index ∧
        Piece.count k [s.gapPiece style c level (s.keeps parent cur n) cur n] =
          if cur.index ≤ k ∧ k < a.span.start then 1 else 0 := by
  cases hk : s.keeps parent cur n with
  | false =>
    exact .inl (Piece.count_made ..)
  | true =>
    cases ho : n.origin with
    | anchored a =>
      obtain ⟨before, hslot⟩ := hw.index_eq h ho hk
      refine .inr ⟨a, before, rfl, hslot, ?_⟩
      simp only [gapPiece, ho, Origin.anchor?, Piece.count_copy]
    | detached a => simp [keeps, ho] at hk
    | synthesized => simp [keeps, ho] at hk

/-- A child with its gap prints a token at most once, and only one that was read behind the sibling
in front of it. -/
theorem count_child (h : s.Selected parent i ms (done ++ n :: ns) last) (hw : Walk i done cur)
    (hc : ∀ a, n.origin.anchor? = some a → s.Covered style n a) (hk : 0 <
      Piece.count k [s.gapPiece style c level (s.keeps parent cur n) cur n] +
        Piece.count k (s.pieces style level n)) :
    Piece.count k [s.gapPiece style c level (s.keeps parent cur n) cur n] +
        Piece.count k (s.pieces style level n) = 1 ∧
      ∃ a before mid, n.origin.anchor? = some a ∧ Slot s.tokens i ms last n a before mid ∧
        mid ≤ k ∧ k < a.span.stop := by
  cases ha : n.origin.anchor? with
  | none =>
    rcases count_gapPiece style c level k h hw with
      hg | ⟨a, _, hsome, -⟩
    · rw [hg, count_pieces_new ha] at hk
      exact absurd hk (Nat.lt_irrefl 0)
    · rw [ha] at hsome
      cases hsome
  | some a =>
    have hcov := hc a ha
    by_cases hspan : a.span.start ≤ k ∧ k < a.span.stop
    · obtain ⟨before, mid, hslot⟩ := h.slot (x := n) (by simp) ha
      refine ⟨?_, a, before, mid, rfl, hslot, Nat.le_trans hslot.le hspan.1, hspan.2⟩
      have hle := hcov.le_one level k
      rcases count_gapPiece style c level k h hw with
        hg | ⟨b, before, hb, -, hg⟩
      · omega
      · obtain rfl : a = b := Option.some.inj (ha.symm.trans hb)
        rw [if_neg (by omega)] at hg
        omega
    · rw [hcov.outside level k hspan] at hk ⊢
      rcases count_gapPiece style c level k h hw with
        hg | ⟨b, before, hb, hslot, hg⟩
      · omega
      · obtain rfl : a = b := Option.some.inj (ha.symm.trans hb)
        have := hslot.lt
        split at hg
        · exact ⟨by omega, a, before, cur.index, rfl, hslot, by omega, by omega⟩
        · omega

/-- Where a token that is printed with children was read: with one of them or behind all. -/
theorem slot_of_count_piecesList (h : s.Selected parent i ms (done ++ ns) last)
    (hw : Walk i done cur)
    (hc : ∀ n ∈ ns, ∀ a, n.origin.anchor? = some a → s.Covered style n a)
    (hk : 0 < Piece.count k (s.piecesList style c level parent stop cur ns)) :
    ((s.passAll parent cur ns).index ≤ k ∧ k < stop) ∨
      ∃ n ∈ ns, ∃ a before mid, n.origin.anchor? = some a ∧
        Slot s.tokens i ms last n a before mid ∧ mid ≤ k ∧ k < a.span.stop := by
  induction ns generalizing done cur with
  | nil =>
    rw [piecesList, count_tailPieces] at hk
    split at hk
    · exact .inl ‹_›
    · exact absurd hk (Nat.lt_irrefl 0)
  | cons n ns ih =>
    rw [piecesList, Piece.count_cons, Piece.count_append, ← Nat.add_assoc] at hk
    rcases Nat.eq_zero_or_pos (Piece.count k (s.piecesList style c level parent stop
        (cur.pass (s.keeps parent cur n) n) ns)) with hrest | hrest
    · rw [hrest, Nat.add_zero] at hk
      exact .inr ⟨n, List.mem_cons_self, (count_child h hw (hc n List.mem_cons_self) hk).2⟩
    · rcases ih (by simpa using h) (hw.pass _ n) (fun n hn => hc n (List.mem_cons_of_mem _ hn))
        hrest with hlast | ⟨m, hm, hslot⟩
      · exact .inl hlast
      · exact .inr ⟨m, List.mem_cons_of_mem _ hm, hslot⟩

theorem bounds_of_count_piecesList (h : s.Selected parent i ms ns last) (hlast : last ≤ stop)
    (hc : ∀ n ∈ ns, ∀ a, n.origin.anchor? = some a → s.Covered style n a)
    (hk : 0 < Piece.count k (s.piecesList style c level parent stop ⟨i, none, true⟩ ns)) :
    i ≤ k ∧ k < stop := by
  have hsel : s.Selected parent i ms ([] ++ ns) last := h
  rcases slot_of_count_piecesList hsel .start hc hk with hk | ⟨n, -, a, before, mid, -, hslot, hk⟩
  · have := (Walk.start.passAll s parent ns : Walk i _ _).le
    omega
  · have := hslot.front.le
    have := hslot.stop_le
    omega

theorem count_piecesList_le_one (h : s.Selected parent i ms (done ++ ns) last) (hw : Walk i done cur)
    (hc : ∀ n ∈ ns, ∀ a, n.origin.anchor? = some a → s.Covered style n a) :
    Piece.count k (s.piecesList style c level parent stop cur ns) ≤ 1 := by
  induction ns generalizing done cur with
  | nil =>
    rw [piecesList, count_tailPieces]
    split
    · exact Nat.le_refl 1
    · exact Nat.zero_le 1
  | cons n ns ih =>
    have hsuffix : s.Selected parent i ms ((done ++ [n]) ++ ns) last := by simpa using h
    have hcns : ∀ m ∈ ns, ∀ a, m.origin.anchor? = some a → s.Covered style m a :=
      fun m hm => hc m (List.mem_cons_of_mem _ hm)
    have hwn := hw.pass (s.keeps parent cur n) n
    have hrest := ih hsuffix hwn hcns
    rw [piecesList, Piece.count_cons, Piece.count_append, ← Nat.add_assoc]
    rcases Nat.eq_zero_or_pos (Piece.count k [s.gapPiece style c (c.childLevel level)
        (s.keeps parent cur n) cur n] + Piece.count k (s.pieces style (c.childLevel level) n)) with
      hzero | hpos
    · omega
    · obtain ⟨hone, a, before, mid, ha, hslot, hmid, hstop⟩ :=
        count_child h hw (hc n List.mem_cons_self) hpos
      have hnone : ¬0 < Piece.count k (s.piecesList style c level parent stop
          (cur.pass (s.keeps parent cur n) n) ns) := by
        intro hrestpos
        rcases slot_of_count_piecesList hsuffix hwn hcns hrestpos with
          ⟨hlast, -⟩ | ⟨m, hm, b, before', mid', hb, hslot', hmid', hstop'⟩
        · have := (hwn.passAll s parent ns).passed n (by simp) a ha
          omega
        · have hne := h.id_ne ha (List.mem_append_right _ hm) hb
          rcases hslot'.apart hslot hne with hap | hap <;> omega
      omega

/-- What a child prints is printed, and so is what stands behind all children. -/
theorem count_piecesList_pos
    (hk : (∃ n ∈ ns, 0 < Piece.count k (s.pieces style (c.childLevel level) n)) ∨
      ((s.passAll parent cur ns).index ≤ k ∧ k < stop)) :
    0 < Piece.count k (s.piecesList style c level parent stop cur ns) := by
  induction ns generalizing cur with
  | nil =>
    rcases hk with ⟨n, hn, -⟩ | hk
    · cases hn
    · rw [passAll] at hk
      rw [piecesList, count_tailPieces, if_pos hk]
      exact Nat.zero_lt_one
  | cons n ns ih =>
    rw [piecesList, Piece.count_cons, Piece.count_append]
    have hrest : (∃ m ∈ ns, 0 < Piece.count k (s.pieces style (c.childLevel level) m)) ∨
        ((s.passAll parent (cur.pass (s.keeps parent cur n) n) ns).index ≤ k ∧ k < stop) →
        0 < Piece.count k (s.piecesList style c level parent stop
          (cur.pass (s.keeps parent cur n) n) ns) := ih
    rcases hk with ⟨m, hm, hk⟩ | hk
    · rcases List.mem_cons.1 hm with rfl | hm
      · omega
      · have := hrest (.inl ⟨m, hm, hk⟩)
        omega
    · have := hrest (.inr hk)
      omega

/-- Only what stands behind the last child is trimmed. -/
theorem trimmed_of_piecesList {j l : Nat}
    (hp : .trimmed j l ∈ s.piecesList style c level parent stop cur ns) :
    (∃ n ∈ ns, .trimmed j l ∈ s.pieces style (c.childLevel level) n) ∨
      j = (s.passAll parent cur ns).index ∧ l = stop ∧ c = .block ∧
        '\n' ∉ s.tokens.between j stop := by
  induction ns generalizing cur with
  | nil =>
    rw [piecesList, tailPieces] at hp
    split at hp
    · rename_i hcond
      obtain ⟨hblock, hbreak⟩ := Bool.and_eq_true_iff.1 hcond
      simp only [List.mem_cons, reduceCtorEq, Piece.trimmed.injEq, false_or, List.not_mem_nil,
        or_false] at hp
      obtain ⟨rfl, rfl⟩ := hp
      exact .inr ⟨rfl, rfl, of_decide_eq_true (Bool.and_eq_true_iff.1 hblock).2,
        by simpa using hbreak⟩
    · simp at hp
  | cons n ns ih =>
    rw [piecesList] at hp
    rcases List.mem_cons.1 hp with hp | hp
    · unfold gapPiece at hp
      split at hp <;> cases hp
    · rcases List.mem_append.1 hp with hp | hp
      · exact .inl ⟨n, List.mem_cons_self, hp⟩
      · rcases ih hp with ⟨m, hm, hp⟩ | hp
        · exact .inl ⟨m, List.mem_cons_of_mem _ hm, hp⟩
        · exact .inr hp

theorem anchor_of_trimmed {j l : Nat} (hp : .trimmed j l ∈ s.pieces style level n) :
    ∃ a, n.origin.anchor? = some a := by
  cases ha : n.origin.anchor? with
  | some a => exact ⟨a, rfl⟩
  | none =>
    rw [pieces_new ha] at hp
    cases hp with
    | tail _ hp => cases hp

/-- Between siblings stand loose tokens. -/
theorem loose_or_mem {ts : Tokens} (h : Siblings ts i ms last) (hi : i ≤ k) (hk : k < last) :
    (ts.isCode k = false ∧ ts.isComment k = false) ∨
      ∃ m ∈ ms, ∃ a, m.origin = .anchored a ∧ a.span.start ≤ k ∧ k < a.span.stop := by
  induction ms generalizing i with
  | nil =>
    cases h
    omega
  | cons m ms ih =>
    cases h with
    | @cons _ _ a _ _ ho hle hloose _ hs =>
      by_cases hstart : k < a.span.start
      · exact .inl (hloose k hi hstart)
      · by_cases hstop : k < a.span.stop
        · exact .inr ⟨m, List.mem_cons_self, a, ho, by omega, hstop⟩
        · rcases ih hs (by omega) with h | ⟨m', hm', hmem⟩
          · exact .inl h
          · exact .inr ⟨m', List.mem_cons_of_mem _ hm', hmem⟩

theorem pieces_leaf {span : Span} (ha : n.origin.anchor? = some ⟨span, none⟩) (level : Nat) :
    s.pieces style level n = [.copy span.start span.stop] := by
  cases n
  dsimp only at ha
  simp only [pieces, ha]

theorem pieces_container {span body : Span} (ha : n.origin.anchor? = some ⟨span, some body⟩)
    (level : Nat) : s.pieces style level n = .copy span.start body.start ::
      (s.piecesList style (.ofDecl n.decl) level n.id body.stop ⟨body.start, none, true⟩ n.children ++
        [.copy body.stop span.stop]) := by
  cases n
  dsimp only at ha
  simp only [pieces, ha]

theorem print_container {n : Node} {span body : Span}
    (ha : n.origin.anchor? = some ⟨span, some body⟩) (level : Nat) :
    s.print style level n = s.tokens.between span.start body.start ++
      s.printList style (.ofDecl n.decl) level n.id body.stop ⟨body.start, none, true⟩ n.children ++
        s.tokens.between body.stop span.stop := by
  cases n
  dsimp only at ha
  simp only [print, ha]

theorem count_pieces_leaf {span : Span} (ha : n.origin.anchor? = some ⟨span, none⟩) (level k : Nat) :
    Piece.count k (s.pieces style level n) = if span.start ≤ k ∧ k < span.stop then 1 else 0 := by
  rw [pieces_leaf ha, Piece.count_copy]

theorem count_pieces_container {span body : Span} (ha : n.origin.anchor? = some ⟨span, some body⟩)
    (level k : Nat) :
    Piece.count k (s.pieces style level n) =
      (if span.start ≤ k ∧ k < body.start then 1 else 0) +
        (Piece.count k (s.piecesList style (.ofDecl n.decl) level n.id body.stop
          ⟨body.start, none, true⟩ n.children) + if body.stop ≤ k ∧ k < span.stop then 1 else 0) := by
  rw [pieces_container ha, Piece.count_cons, Piece.count_append, Piece.count_copy, Piece.count_copy]

variable {text : Text} {t : Tree}

theorem Covered.leaf {span : Span} (ha : n.origin.anchor? = some ⟨span, none⟩) :
    s.Covered style n ⟨span, none⟩ where
  outside := fun level k hk => by rw [count_pieces_leaf ha, if_neg hk]
  le_one := fun level k => by
    rw [count_pieces_leaf ha]
    split <;> omega
  pos := fun level k hstart hstop _ => by
    rw [count_pieces_leaf ha, if_pos ⟨hstart, hstop⟩]
    exact Nat.zero_lt_one
  trims := fun level i j hp => by
    rw [pieces_leaf ha] at hp
    cases hp with
    | tail _ hp => cases hp

section

variable {m : Node} {span body : Span} (hsh : s.Shuffled n.id body.start m.children n.children last)
  (hs : Siblings s.tokens body.start m.children last) (he : Encloses s.tokens m.decl span body last)
  (hc : ∀ c ∈ n.children, ∀ b, c.origin.anchor? = some b → s.Covered style c b)

include hsh in
theorem index_passAll : (s.passAll n.id ⟨body.start, none, true⟩ n.children).index = last :=
  (Walk.start.passAll s n.id n.children).index_eq_last hsh

include hsh hs he hc in
/-- What stands in the body of a container and is not idle is printed with its children. -/
theorem count_body_pos (hm : m ∈ s.tree.root.subnodes) (ho : m.origin = .anchored ⟨span, some body⟩)
    (hidle : ¬s.Idle k) (hfront : body.start ≤ k) (hback : k < body.stop) (level : Nat) :
    0 < Piece.count k (s.piecesList style c level n.id body.stop ⟨body.start, none, true⟩
      n.children) := by
  refine count_piecesList_pos ?_
  rw [index_passAll hsh]
  by_cases htail : last ≤ k
  · exact .inr ⟨htail, hback⟩
  by_cases hread : ∃ c ∈ m.children, ∃ b, c.origin = .anchored b ∧ b.span.start ≤ k ∧ k < b.span.stop
  · obtain ⟨c, hcm, b, hb, hk⟩ := hread
    obtain ⟨x, hx, b', hxb, hcb⟩ := hsh.exists_read hcm
    obtain rfl := Origin.anchored.inj (hb.symm.trans hcb)
    exact .inl ⟨x, hx, (hc x hx b hxb).pos _ k hk.1 hk.2 hidle⟩
  · refine absurd ⟨?_, m, hm, span, body, ho, hfront, hback, ?_, ?_⟩ hidle
    · obtain ⟨hcode, hcomment⟩ := (loose_or_mem hs hfront (by omega)).resolve_right hread
      have hsize := Nat.le_trans he.stop_le he.le_size
      exact Tokens.isLoose_of_not (Nat.lt_of_lt_of_le hback hsize) hcode hcomment
    · rw [← hs.last_eq]
      exact .inl (by omega)
    · exact fun c hcm b hb hk => hread ⟨c, hcm, b, hb, hk⟩

include hsh he hc in
theorem trims_body (hf : s.Faithful text) (hdecl : n.decl = m.decl) (level : Nat) {i j : Nat}
    (hp : .trimmed i j ∈ s.piecesList style (.ofDecl n.decl) level n.id body.stop
      ⟨body.start, none, true⟩ n.children) : s.Trims i j := by
  rcases trimmed_of_piecesList hp with ⟨c, hcn, hp⟩ | ⟨hj, rfl, hblock, hbreak⟩
  · obtain ⟨b, hb⟩ := anchor_of_trimmed hp
    exact (hc c hcn b hb).trims _ i j hp
  · rw [hdecl] at hblock
    obtain ⟨-, -, -, hclose⟩ := he.braces hblock
    rw [index_passAll hsh] at hj
    subst hj
    exact ⟨he.plain, fun k hi hj hk => Tokens.comment_of_trim hf.reads hclose hbreak hi hj hk⟩

end

/-- A rearranged container prints its tokens if its children do. -/
theorem Covered.of_children (hf : s.Faithful text) (ht : s.Rearranged t) (hn : n ∈ t.root.subnodes)
    (ha : n.origin.anchor? = some a)
    (hc : ∀ c ∈ n.children, ∀ b, c.origin.anchor? = some b → s.Covered style c b) :
    s.Covered style n a := by
  obtain ⟨m, hm⟩ := (ht.stems n hn).readAs ha
  have hma : m.origin.anchor? = some a := hm.anchor.symm.trans ha
  cases hf.placed.of_mem_subnodes m hm.mem with
  | leaf =>
    cases hma
    exact .leaf ha
  | @container mid mdecl span body mchildren last hdecl hs he =>
    cases hma
    have hsh : s.Shuffled n.id body.start mchildren n.children last := ht.shuffled hf hn hm hs
    have hin : ∀ level k, 0 < Piece.count k (s.piecesList style (.ofDecl n.decl) level n.id body.stop
        ⟨body.start, none, true⟩ n.children) → body.start ≤ k ∧ k < body.stop :=
      fun level k => bounds_of_count_piecesList hsh.selected he.last_le hc
    have hone : ∀ level k, Piece.count k (s.piecesList style (.ofDecl n.decl) level n.id body.stop
        ⟨body.start, none, true⟩ n.children) ≤ 1 :=
      fun level k => count_piecesList_le_one hsh.selected .start hc
    have hstart := he.start_le
    have hle := Nat.le_trans hs.le he.last_le
    have hstop := he.stop_le
    refine ⟨fun level k hk => ?_, fun level k => ?_, fun level k hks hke hidle => ?_,
      fun level i j hp => ?_⟩
    · have := hin level k
      dsimp only at hk
      rw [count_pieces_container ha]
      split <;> split <;> omega
    · have := hin level k
      have := hone level k
      rw [count_pieces_container ha]
      split <;> split <;> omega
    · have hbody := fun hfront hback =>
        count_body_pos (c := .ofDecl n.decl) hsh hs he hc hm.mem rfl hidle hfront hback level
      dsimp only at hks hke
      rw [count_pieces_container ha]
      split <;> split <;> omega
    · rw [pieces_container ha] at hp
      exact trims_body hsh he hc hf hm.decl level (Piece.trimmed_of_framed hp)

mutual

/-- Every node of a rearranged tree prints its tokens. -/
theorem covered (style : Style) (hf : s.Faithful text) (ht : s.Rearranged t) :
    ∀ n : Node, n ∈ t.root.subnodes → ∀ a, n.origin.anchor? = some a → s.Covered style n a
  | ⟨_, _, _, children⟩, hn, _, ha =>
    .of_children hf ht hn ha (coveredList style hf ht children fun _ hc =>
      Node.mem_subnodes_of_child hc hn)

theorem coveredList (style : Style) (hf : s.Faithful text) (ht : s.Rearranged t) : ∀ ns : List Node,
    (∀ n ∈ ns, n ∈ t.root.subnodes) →
    ∀ n ∈ ns, ∀ a, n.origin.anchor? = some a → s.Covered style n a
  | [], _ => fun _ hn => nomatch hn
  | m :: ms, hsub => List.forall_mem_cons.2 ⟨covered style hf ht m (hsub m List.mem_cons_self),
      coveredList style hf ht ms fun k hk => hsub k (List.mem_cons_of_mem _ hk)⟩

end

/-! How the children of a container are laid out. -/

/-- `text` is the children one behind the other, each behind line breaks and indentation as in
generated code or behind a run of loose tokens of the source, and `tail` behind the last one. -/
inductive Laid (s : Source) (style : Style) (c : Container) (level : Nat) (tail : Text) :
    Option Decl → List Node → Text → Prop
  | nil {prev?} : Laid s style c level tail prev? [] tail
  | made {prev? n ns rest} : Laid s style c level tail (some n.decl) ns rest →
      Laid s style c level tail prev? (n :: ns)
        (style.newlines (c.gap prev? n.decl) ++ style.indentation (c.childLevel level) ++
          s.print style (c.childLevel level) n ++ rest)
  | kept {prev? n ns rest i j} : (∀ k, i ≤ k → k < j → s.tokens.isLoose k = true) →
      Laid s style c level tail (some n.decl) ns rest →
      Laid s style c level tail prev? (n :: ns)
        (s.tokens.between i j ++ s.print style (c.childLevel level) n ++ rest)

/-- What may stand behind the last child, which was read up to `last`. -/
def Tail (s : Source) (style : Style) (level last stop : Nat) (tail : Text) : Prop :=
  tail = s.tokens.between last stop ∨
    tail = style.newline ++ style.indentation level ++ (s.tokens.between last stop).trim

theorem laid_printList (style : Style) (c : Container) (level stop : Nat)
    (h : s.Selected parent i ms (done ++ ns) last) (hw : Walk i done cur)
    (hlast : last ≤ s.tokens.size) :
    ∃ tail, s.Tail style level (s.passAll parent cur ns).index stop tail ∧
      s.Laid style c level tail (cur.prev?.map Node.decl) ns
        (s.printList style c level parent stop cur ns) := by
  induction ns generalizing done cur with
  | nil =>
    refine ⟨_, ?_, by rw [printList]; exact .nil⟩
    rw [tail, passAll]
    split
    · exact .inr rfl
    · exact .inl rfl
  | cons n ns ih =>
    have hsuffix : s.Selected parent i ms ((done ++ [n]) ++ ns) last := by simpa using h
    obtain ⟨tail, htail, hrest⟩ := ih hsuffix (hw.pass (s.keeps parent cur n) n)
    refine ⟨tail, htail, ?_⟩
    rw [printList]
    cases hk : s.keeps parent cur n with
    | false =>
      rw [hk] at hrest
      exact .made hrest
    | true =>
      rw [hk] at hrest
      cases ho : n.origin with
      | anchored a =>
        obtain ⟨before, hslot⟩ := hw.index_eq h ho hk
        have hle := hslot.stop_le
        have hlt := hslot.lt
        have hloose : ∀ k, cur.index ≤ k → k < a.span.start → s.tokens.isLoose k = true := by
          intro k hi hj
          obtain ⟨hcode, hcomment⟩ := hslot.loose k hi hj
          exact Tokens.isLoose_of_not (by omega) hcode hcomment
        simp only [gap, ho, Origin.anchor?]
        exact .kept hloose hrest
      | detached a => simp [keeps, ho] at hk
      | synthesized => simp [keeps, ho] at hk

/-- What printing a rearranged tree gives of the source it was read from. -/
structure Preserves (s : Source) (style : Style) (t : Tree) : Prop where
  /-- The body of a container is its children in their order, each behind a gap. -/
  bodies : ∀ n ∈ t.root.subnodes, ∀ span body, n.origin.anchor? = some ⟨span, some body⟩ →
    ∀ level, ∃ m tail inner, s.ReadAs n m ∧
      s.Tail style level (Node.lastStop body.start m.children) body.stop tail ∧
      s.Laid style (.ofDecl n.decl) level tail none n.children inner ∧
      s.print style level n = s.tokens.between span.start body.start ++ inner ++
        s.tokens.between body.stop span.stop
  text : (s.pieces style 0 t.root).flatMap (Piece.text s.tokens) = s.print style 0 t.root
  /-- No token is printed twice. -/
  le_one : ∀ k, Piece.count k (s.pieces style 0 t.root) ≤ 1
  /-- Each token but loose ones around the children of a container is printed. -/
  eq_one : ∀ k < s.tokens.size, ¬s.Idle k → Piece.count k (s.pieces style 0 t.root) = 1
  trims : ∀ i j, .trimmed i j ∈ s.pieces style 0 t.root → s.Trims i j

end Source

/-- However a tree that was read is rearranged, printing it neither loses nor repeats what belongs
to its nodes. -/
theorem print_rearranged {text : Text} {s : Source} {t : Tree} (style : Style)
    (h : Source.parse text = .ok s) (ht : Relation.ReflTransGen Tree.Step s.tree t) :
    s.Preserves style t := by
  have hf := Source.faithful_of_parse h
  have hr := hf.rearranged ht
  obtain ⟨body, hroot⟩ := Source.root_origin h
  have hface : t.root.origin.anchor? = some ⟨⟨0, s.tokens.size⟩, some body⟩ := by
    rw [(Prod.mk.inj hr.face).2, hroot]
    rfl
  have hcov := Source.covered style hf hr t.root (Node.self_mem_subnodes _) _ hface
  refine ⟨fun n hn span body ha level => ?_, Source.text_pieces 0 t.root, hcov.le_one 0,
    fun k hk hidle => Nat.le_antisymm (hcov.le_one 0 k) (hcov.pos 0 k (Nat.zero_le k) hk hidle),
    hcov.trims 0⟩
  obtain ⟨m, hm⟩ := (hr.stems n hn).readAs ha
  have hma := hm.anchor.symm.trans ha
  cases hf.placed.of_mem_subnodes m hm.mem with
  | leaf => cases hma
  | @container _ _ _ _ children last _ hs he =>
    cases hma
    have hsh : s.Shuffled n.id body.start children ([] ++ n.children) last :=
      hr.shuffled hf hn hm hs
    have hsize := Nat.le_trans he.last_le (Nat.le_trans he.stop_le he.le_size)
    obtain ⟨tail, htail, hlaid⟩ := Source.laid_printList style (.ofDecl n.decl) level body.stop
      hsh.selected .start hsize
    refine ⟨_, tail, _, hm, ?_, hlaid, ?_⟩
    · rw [← hs.last_eq, ← (Source.Walk.start.passAll s n.id n.children).index_eq_last hsh]
      exact htail
    · cases n
      rw [Source.print]
      simp only [ha]

/-- A namespace whose imports change places around inline text. -/
theorem print_rearranged_imports : ∃ s n,
    Source.parse "<?php namespace N; use A; ?>html<?php use B;" = .ok s ∧
      s.tree.root.at? [0] = some n ∧
      s.Preserves {} ⟨s.tree.root.modifyAt (.withChildren fun _ => n.children.reverse) [0],
        s.tree.next⟩ := by
  have hrun : (Source.parse "<?php namespace N; use A; ?>html<?php use B;").toOption.any
      (fun s => (s.tree.root.at? [0]).isSome) = true := by
    decide +kernel
  obtain ⟨s, h, hrun⟩ := Steps.exists_of_any hrun
  obtain ⟨n, hn⟩ := Option.isSome_iff_exists.1 hrun
  exact ⟨s, n, h, hn, print_rearranged {} h
    (.single (.permute hn (List.reverse_perm n.children)))⟩

/-- The loose tokens between two children are not printed where the children change places, though
they belong to the node around them. -/
theorem rearranged_loses_loose : ∃ s n a k,
    Source.parse "<?php namespace N; use A; ?>html<?php use B;" = .ok s ∧
      s.tree.root.at? [0] = some n ∧ n.origin = .anchored a ∧ a.span.start ≤ k ∧ k < a.span.stop ∧
      s.tokens.text k = "html" ∧
      ∃ t, Relation.ReflTransGen Tree.Step s.tree t ∧ Piece.count k (s.pieces {} 0 t.root) = 0 ∧
        s.print {} 0 t.root = "<?php namespace N;\n\nuse B;\nuse A;" := by
  have hrun : (Source.parse "<?php namespace N; use A; ?>html<?php use B;").toOption.any
      (fun s => (s.tree.root.at? [0]).any fun n =>
        let root := s.tree.root.modifyAt (.withChildren fun _ => n.children.reverse) [0]
        decide (n.origin = .anchored ⟨⟨1, 18⟩, some ⟨5, 18⟩⟩ ∧ s.tokens.text 12 = "html" ∧
          Piece.count 12 (s.pieces {} 0 root) = 0 ∧
          s.print {} 0 root = "<?php namespace N;\n\nuse B;\nuse A;")) = true := by
    decide +kernel
  obtain ⟨s, h, hrun⟩ := Steps.exists_of_any hrun
  obtain ⟨n, hn, hrun⟩ := (Option.any_eq_true _ _).1 hrun
  obtain ⟨horigin, htext, hcount, hprint⟩ := of_decide_eq_true hrun
  exact ⟨s, n, _, 12, h, hn, horigin, by decide, by decide, htext, _,
    .single (.permute hn (List.reverse_perm n.children)), hcount, hprint⟩

end PhpGraft
