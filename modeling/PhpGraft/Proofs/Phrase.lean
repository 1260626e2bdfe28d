import PhpGraft.Proofs.Relocation

/-!
Entries that are read alike wherever they stand. An entry is set off from the one in front of it by
white space and may have a line comment behind it; a list of such entries is read one by one.
-/
namespace PhpGraft

namespace Node

/-- Where the node was read. -/
def span? (n : Node) : Option Span := n.origin.anchor?.map Anchor.span

mutual

/-- A node without its number and without its place in the source. -/
def bare : Node → Node
  | ⟨_, _, decl, children⟩ => ⟨0, .synthesized, decl, bareList children⟩

def bareList : List Node → List Node
  | [] => []
  | n :: ns => bare n :: bareList ns

end

theorem bareList_eq (ns : List Node) : bareList ns = ns.map bare := by
  induction ns with
  | nil => rfl
  | cons n ns ih => rw [bareList, ih, List.map_cons]

@[simp] theorem bare_decl (n : Node) : n.bare.decl = n.decl := by
  cases n
  rfl

theorem decl_of_bare {m n : Node} (h : m.bare = n.bare) : m.decl = n.decl := by
  rw [← bare_decl m, h, bare_decl]

@[simp] theorem bare_children (n : Node) : n.bare.children = n.children.map bare := by
  cases n
  exact bareList_eq _

mutual

@[simp] theorem bare_move (f : Nat → Nat) : ∀ n : Node, (n.move f).bare = n.bare
  | ⟨_, _, _, children⟩ => by rw [move, bare, bare, bareList_move f children]

theorem bareList_move (f : Nat → Nat) : ∀ ns : List Node, bareList (moveList f ns) = bareList ns
  | [] => rfl
  | n :: ns => by rw [moveList, bareList, bareList, bare_move f n, bareList_move f ns]

end

mutual

@[simp] theorem bare_number : ∀ (k : Nat) (n : Node), (n.number k).1.bare = n.bare
  | k, ⟨_, _, _, children⟩ => by rw [number, bare, bare, bareList_number k children]

theorem bareList_number : ∀ (k : Nat) (ns : List Node), bareList (numberList k ns).1 = bareList ns
  | _, [] => rfl
  | k, n :: ns => by rw [numberList, bareList, bareList, bare_number k n, bareList_number _ ns]

end

theorem map_bare_move (f : Nat → Nat) (ns : List Node) :
    (moveList f ns).map bare = ns.map bare := by
  rw [← bareList_eq, ← bareList_eq, bareList_move]

end Node

namespace Tokens

/-! What may follow an entry. -/

/-- The first code does not carry a block statement on. -/
def Calm (xs : List Token) : Prop :=
  ∀ t, xs.find? (·.kind.isCode) = some t → t.kind = .name → t.text.lower ∉ continuations

/-- A line comment behind an entry, on the same line. -/
inductive Note : List Token → Prop
  | near (c : Text) : Note [⟨.lineComment, c⟩]
  | apart {w : Text} (c : Text) : w.contains '\n' = false → Note [⟨.whitespace, w⟩, ⟨.lineComment, c⟩]

/-- No line comment starts on the line that these tokens go on with. -/
def Clear (xs : List Token) : Prop := ∀ n, Note n → ¬n <+: xs

section

variable {A B g n : List Token} {ts : Tokens} {i j k stop : Nat}

theorem getElem?_append (A B : List Token) (k : Nat) :
    (A ++ B).toArray[A.length + k]? = B[k]? := by
  rw [List.getElem?_toArray, List.getElem?_append_right (Nat.le_add_right _ _), Nat.add_sub_cancel_left]

theorem significant_of_skip (hij : i ≤ j) (hj : j ≤ stop)
    (h : ∀ k, i ≤ k → k < j → ts.isCode k = false) :
    ts.significant i stop = ts.significant j stop := by
  induction hij with
  | refl => rfl
  | @step j hij ih =>
    rw [ih (by omega) fun k hk hkj => h k hk (by omega),
      significant_succ (h j hij (Nat.lt_succ_self j)) (by omega)]

theorem leading_of_skip (hij : i ≤ j) (hj : j ≤ stop)
    (h : ∀ k, i ≤ k → k < j → ts.isComment k = false) : ts.leading i stop = ts.leading j stop := by
  induction hij with
  | refl => rfl
  | @step j hij ih =>
    rw [ih (by omega) fun k hk hkj => h k hk (by omega), leading, firstFrom, if_pos (by omega),
      h j hij (Nat.lt_succ_self j)]
    rfl

/-- The token at `k` of the part in the middle. -/
theorem getElem?_between (hk : A.length ≤ k) (hg : k < A.length + g.length) :
    ∃ t ∈ g, (A ++ g ++ B).toArray[k]? = some t := by
  obtain ⟨k, rfl⟩ := Nat.exists_eq_add_of_le hk
  have hlt : k < g.length := by omega
  refine ⟨g[k], List.getElem_mem _, ?_⟩
  rw [List.append_assoc, getElem?_append, List.getElem?_append_left hlt, List.getElem?_eq_getElem hlt]

theorem plain_between (hg : ∀ t ∈ g, t.kind.isCode = false) :
    Plain (A ++ g ++ B).toArray A.length (A.length + g.length) := by
  intro k hk hkg
  obtain ⟨t, ht, he⟩ := getElem?_between (B := B) hk hkg
  rw [isCode, kind?, he, Option.map_some, Option.any_some, hg t ht]

theorem significant_append (hg : ∀ t ∈ g, t.kind.isCode = false)
    (hs : A.length + g.length ≤ stop) :
    Tokens.significant (A ++ g ++ B).toArray A.length stop =
      Tokens.significant (A ++ g ++ B).toArray (A.length + g.length) stop :=
  significant_of_skip (Nat.le_add_right _ _) hs (plain_between hg)

theorem leading_append (hg : ∀ t ∈ g, t.kind.isComment = false)
    (hs : A.length + g.length ≤ stop) :
    Tokens.leading (A ++ g ++ B).toArray A.length stop =
      Tokens.leading (A ++ g ++ B).toArray (A.length + g.length) stop := by
  refine leading_of_skip (Nat.le_add_right _ _) hs fun k hk hkg => ?_
  obtain ⟨t, ht, he⟩ := getElem?_between (B := B) hk hkg
  rw [isComment, kind?, he, Option.map_some, Option.any_some, hg t ht]

theorem find?_of_significant (h : Tokens.significant (A ++ B).toArray A.length stop < stop) :
    ∃ t, B.find? (·.kind.isCode) = some t ∧
      (A ++ B).toArray[Tokens.significant (A ++ B).toArray A.length stop]? = some t := by
  have hle : A.length ≤ Tokens.significant (A ++ B).toArray A.length stop := le_firstFrom_of_lt h
  have hcode : Tokens.isCode _ (Tokens.significant (A ++ B).toArray A.length stop) = true :=
    firstFrom_pos h
  have hrest := Tokens.plain_significant (A ++ B).toArray A.length stop
  generalize hk : Tokens.significant (A ++ B).toArray A.length stop = k at h hle hcode hrest
  obtain ⟨j, rfl⟩ := Nat.exists_eq_add_of_le hle
  obtain ⟨kind, ht, hcode⟩ := (Option.any_eq_true _ _).1 hcode
  obtain ⟨t, ht', rfl⟩ := Option.map_eq_some_iff.1 ht
  have hget := ht'
  rw [getElem?_append] at hget
  obtain ⟨hlt, hget⟩ := List.getElem?_eq_some_iff.1 hget
  refine ⟨t, List.find?_eq_some_iff_getElem.2 ⟨hcode, j, hlt, hget, fun l hl => ?_⟩, ht'⟩
  have hno := hrest (A.length + l) (Nat.le_add_right _ _) (by omega)
  rw [isCode, kind?, getElem?_append, List.getElem?_eq_getElem (by omega)] at hno
  rw [Bool.not_eq_true']
  exact hno

theorem continues_of_calm (h : Calm B) (stop : Nat) :
    Tokens.continues (A ++ B).toArray A.length stop = false := by
  refine Bool.eq_false_iff.2 fun hc => ?_
  obtain ⟨hlt, hword⟩ := Bool.and_eq_true_iff.1 hc
  obtain ⟨t, hfind, hget⟩ := find?_of_significant (of_decide_eq_true hlt)
  obtain ⟨w, hw, hkey⟩ := List.any_eq_true.1 hword
  obtain ⟨hname, htext⟩ := Bool.and_eq_true_iff.1 hkey
  rw [isName, kind?, hget, Option.map_some, beq_iff_eq, Option.some.injEq] at hname
  rw [text, hget, Option.map_some, Option.getD_some, beq_iff_eq] at htext
  exact h t hfind hname (htext ▸ hw)

theorem trailing_near {c : Text} (h : ts[i]? = some ⟨.lineComment, c⟩) (hi : i < stop) :
    ts.trailing i stop = i + 1 := by
  simp [trailing, kind?, h, hi]

theorem trailing_apart {w c : Text} (h : ts[i]? = some ⟨.whitespace, w⟩)
    (hw : w.contains '\n' = false) (h' : ts[i + 1]? = some ⟨.lineComment, c⟩) (hi : i + 1 < stop) :
    ts.trailing i stop = i + 2 := by
  have hw' : '\n' ∉ w := by simpa using hw
  simp [trailing, kind?, text, h, h', hi, hw']

theorem trailing_none (h : ts.kind? i ≠ some .lineComment)
    (h' : ts.kind? i = some .whitespace → (ts.text i).contains '\n' = false →
      ts.kind? (i + 1) ≠ some .lineComment) : ts.trailing i stop = i := by
  unfold trailing
  dsimp only
  split
  · rename_i hc
    obtain ⟨hk, hw⟩ := Bool.and_eq_true_iff.1 hc
    rw [Bool.not_eq_true'] at hw
    rw [if_neg fun hc => h' (beq_iff_eq.1 hk) hw hc.2]
  · rw [if_neg fun hc => h hc.2]

theorem trailing_of_clear (h : Clear B) (stop : Nat) :
    Tokens.trailing (A ++ B).toArray A.length stop = A.length := by
  have hzero := getElem?_append A B 0
  have hone := getElem?_append A B 1
  rw [Nat.add_zero] at hzero
  cases B with
  | nil =>
    have hkind : kind? (A ++ []).toArray A.length = none := by
      rw [kind?, hzero]
      rfl
    refine trailing_none ?_ ?_ <;> rw [hkind] <;> intro hk <;> cases hk
  | cons b B =>
    obtain ⟨kind, w⟩ := b
    refine trailing_none (fun hk => ?_) fun hk hw hk' => ?_
    · rw [kind?, hzero] at hk
      cases hk
      exact h _ (.near w) (List.prefix_append [_] B)
    · rw [kind?, hzero] at hk
      rw [text, hzero] at hw
      cases hk
      rw [kind?, hone] at hk'
      cases B with
      | nil => cases hk'
      | cons b B =>
        obtain ⟨kind, c⟩ := b
        cases hk'
        exact h _ (.apart c hw) (List.prefix_append [_, _] B)

theorem trailing_of_note (h : Note n) (hs : A.length + n.length ≤ stop) :
    Tokens.trailing (A ++ n ++ B).toArray A.length stop = A.length + n.length := by
  rw [List.append_assoc]
  have hzero := getElem?_append A (n ++ B) 0
  have hone := getElem?_append A (n ++ B) 1
  rw [Nat.add_zero] at hzero
  cases h with
  | near c => exact trailing_near hzero hs
  | apart c hw => exact trailing_apart hzero hw hone hs

/-! Entries. -/

/-- Tokens that are read as the node `n`, whatever stands around them. -/
def Phrase (p : Place) (code : List Token) (n : Node) : Prop :=
  ∀ A B stop, Calm B → A.length + code.length ≤ stop →
    stop ≤ A.length + (code.length + B.length) →
    ∃ first r, Tokens.significant (A ++ (code ++ B)).toArray A.length stop = first ∧
      first < A.length + code.length ∧
      Tokens.leading (A ++ (code ++ B)).toArray A.length first = A.length ∧
      Tokens.entry (A ++ (code ++ B)).toArray p A.length first stop = .ok r ∧
      r.2 = A.length + code.length ∧ r.1.bare = n.bare

/-- An entry, the comment that ends its last line, and the white space behind it. -/
structure Chunk where
  code : List Token
  note : List Token
  gap : List Token
  node : Node

namespace Chunk

def tokens (c : Chunk) : List Token := c.code ++ (c.note ++ c.gap)

def all (cs : List Chunk) : List Token := cs.flatMap tokens

/-- The entry is read as its node in front of the given tokens. -/
structure Fits (p : Place) (c : Chunk) (rest : List Token) : Prop where
  phrase : Phrase p c.code c.node
  note : (c.note = [] ∧ (c.node.decl.isScope = false → Clear (c.gap ++ rest))) ∨
    (Note c.note ∧ c.node.decl.isScope = false)
  gap : ∀ t ∈ c.gap, t.kind = .whitespace
  calm : Calm rest

def Fit (p : Place) (rest : List Token) : List Chunk → Prop
  | [] => True
  | c :: cs => c.Fits p (all cs ++ rest) ∧ Fit p rest cs

end Chunk

theorem Note.isCode {n : List Token} (h : Note n) : ∀ t ∈ n, t.kind.isCode = false := by
  cases h <;> simp [TokenKind.isCode, TokenKind.isTrivia, TokenKind.isComment]

theorem Calm.skip {g : List Token} (h : Calm B) (hg : ∀ t ∈ g, t.kind.isCode = false) :
    Calm (g ++ B) := by
  intro t ht
  rw [List.find?_append, List.find?_eq_none.2 fun t ht => by simp [hg t ht], Option.none_or] at ht
  exact h t ht

theorem bare_finish (ts : Tokens) (stop : Nat) (r : Node × Nat) :
    (ts.finish stop r).1.bare = r.1.bare := by
  obtain ⟨⟨id, origin, decl, children⟩, next⟩ := r
  unfold finish withTrailing
  split
  · rfl
  · cases origin <;> rfl

/-- Where an entry ends with the comment behind it. -/
theorem finish_snd {p : Place} {c : Chunk} {rest : List Token} {r : Node × Nat} (A : List Token)
    (h : c.Fits p rest) (hr : r.2 = A.length) (hbare : r.1.bare = c.node.bare)
    (hs : A.length + c.note.length ≤ stop) :
    (Tokens.finish (A ++ (c.note ++ (c.gap ++ rest))).toArray stop r).2 =
      A.length + c.note.length := by
  have hdecl : r.1.decl = c.node.decl := Node.decl_of_bare hbare
  unfold finish
  rw [hdecl]
  rcases h.note with ⟨hnil, hclear⟩ | ⟨hnote, hscope⟩
  · rw [hnil]
    split
    · exact hr
    · rename_i hscope
      rw [withTrailing_snd, hr]
      exact trailing_of_clear (hclear (Bool.eq_false_iff.2 hscope)) stop
  · rw [hscope, if_neg Bool.false_ne_true, withTrailing_snd, hr, ← List.append_assoc]
    exact trailing_of_note hnote hs

theorem Chunk.Fits.isCode_note {p : Place} {c : Chunk} {rest : List Token} (h : c.Fits p rest) :
    ∀ t ∈ c.note ++ c.gap, t.kind.isCode = false := by
  intro t ht
  rcases List.mem_append.1 ht with ht | ht
  · rcases h.note with ⟨hnil, -⟩ | ⟨hn, -⟩
    · rw [hnil] at ht
      cases ht
    · exact hn.isCode t ht
  · rw [h.gap t ht]
    rfl

theorem Chunk.length_tokens (c : Chunk) :
    c.tokens.length = c.code.length + (c.note.length + c.gap.length) := by
  simp [Chunk.tokens]

/-- Where entries stand from index `i` on, each with the comment behind it. -/
def Chunk.spans (i : Nat) : List Chunk → List Span
  | [] => []
  | c :: cs => ⟨i, i + c.code.length + c.note.length⟩ :: Chunk.spans (i + c.tokens.length) cs

/-- An entry behind white space is read in front of what is read behind it. -/
theorem Items.cons_chunk {p : Place} {c : Chunk} {rest : List Token} {ns : List Node} {last : Nat}
    (h : c.Fits p rest) (A : List Token) (hg : ∀ t ∈ g, t.kind = .whitespace)
    (hs : A.length + g.length + c.tokens.length ≤ stop)
    (hs' : stop ≤ A.length + g.length + (c.tokens.length + rest.length))
    (hns : Items (A ++ (g ++ (c.tokens ++ rest))).toArray p stop
      (A.length + g.length + c.code.length + c.note.length) ns last) :
    ∃ n, n.bare = c.node.bare ∧
      (isPunct (A ++ (g ++ (c.tokens ++ rest))).toArray stop ';' = false → n.span? =
        some ⟨A.length + g.length, A.length + g.length + c.code.length + c.note.length⟩) ∧
      Items (A ++ (g ++ (c.tokens ++ rest))).toArray p stop A.length (n :: ns) last := by
  rw [c.length_tokens] at hs hs'
  have hfront : A ++ (g ++ (c.tokens ++ rest)) =
      (A ++ g) ++ (c.code ++ ((c.note ++ c.gap) ++ rest)) := by
    simp only [Chunk.tokens, List.append_assoc]
  have hback : A ++ (g ++ (c.tokens ++ rest)) =
      (A ++ g ++ c.code) ++ (c.note ++ (c.gap ++ rest)) := by
    simp only [Chunk.tokens, List.append_assoc]
  obtain ⟨first, r, hfirst, hlt, hlead, he, hr, hbare⟩ := h.phrase (A ++ g)
    ((c.note ++ c.gap) ++ rest) stop (h.calm.skip h.isCode_note)
    (by simp only [List.length_append]; omega) (by simp only [List.length_append]; omega)
  have hge : (A ++ g).length ≤ first := by
    rw [← hlead]
    exact leading_le ..
  have hend := finish_snd (A ++ g ++ c.code) h (by simp only [List.length_append] at hr ⊢; omega)
    hbare (show _ ≤ stop by simp only [List.length_append]; omega)
  rw [← hback] at hend
  rw [← hfront] at hfirst hlead he
  simp only [List.length_append] at hfirst hlt hlead he hr hge hend
  have hsig := significant_append (A := A) (g := g) (B := c.tokens ++ rest)
    (fun t ht => by rw [hg t ht]; rfl) (show A.length + g.length ≤ stop by omega)
  have hled := leading_append (A := A) (g := g) (B := c.tokens ++ rest)
    (fun t ht => by rw [hg t ht]; rfl) hge
  rw [List.append_assoc, hfirst] at hsig
  rw [List.append_assoc, hlead] at hled
  refine ⟨_, (bare_finish _ stop r).trans hbare, fun hpunct => ?_, .cons (r := r) ?_ ?_ ?_⟩
  · have hsize : stop ≤ (A ++ (g ++ (c.tokens ++ rest))).toArray.size := by
      simp only [List.size_toArray, List.length_append, c.length_tokens]
      omega
    obtain ⟨body?, ho⟩ := (stands_finish (stands_entry he (Nat.le_trans (Nat.le_of_eq hlead.symm)
      (leading_le ..)) (by omega) hsize hpunct) hsize).origin
    rw [Node.span?, ho, hend]
    rfl
  · rw [hsig]
    omega
  · rw [hsig, hled]
    exact he
  · rw [hend]
    exact hns

/-- Entries one behind the other are read one by one, up to the white space behind the last. -/
theorem items_of_chunks {p : Place} {cs : List Chunk} {rest : List Token} (h : Chunk.Fit p rest cs)
    (A : List Token) (hg : ∀ t ∈ g, t.kind = .whitespace)
    (hs : A.length + g.length + (Chunk.all cs).length ≤ stop)
    (hs' : stop ≤ A.length + g.length + ((Chunk.all cs).length + rest.length)) :
    ∃ ns last, Items (A ++ (g ++ (Chunk.all cs ++ rest))).toArray p stop A.length ns last ∧
      ns.map Node.bare = cs.map (·.node.bare) ∧
      last ≤ A.length + g.length + (Chunk.all cs).length ∧
      (∀ k, last ≤ k → k < A.length + g.length + (Chunk.all cs).length →
        Tokens.kind? (A ++ (g ++ (Chunk.all cs ++ rest))).toArray k = some .whitespace) ∧
      (isPunct (A ++ (g ++ (Chunk.all cs ++ rest))).toArray stop ';' = false →
        ns.map Node.span? = (Chunk.spans (A.length + g.length) cs).map some) := by
  induction cs generalizing A g with
  | nil =>
    refine ⟨[], A.length, .nil, rfl, Nat.le_trans (Nat.le_add_right _ _) (Nat.le_add_right _ _),
      fun k hk hkg => ?_, fun _ => rfl⟩
    obtain ⟨t, ht, he⟩ := getElem?_between (B := Chunk.all [] ++ rest) hk hkg
    rw [List.append_assoc] at he
    rw [kind?, he, Option.map_some, hg t ht]
  | cons c cs ih =>
    obtain ⟨hc, hcs⟩ := h
    have hall : Chunk.all (c :: cs) ++ rest = c.tokens ++ (Chunk.all cs ++ rest) := by
      simp only [Chunk.all, List.flatMap_cons, List.append_assoc]
    have hlen : (Chunk.all (c :: cs)).length =
        c.code.length + (c.note.length + c.gap.length) + (Chunk.all cs).length := by
      simp only [Chunk.all, List.flatMap_cons, List.length_append, Chunk.tokens]
    have hsplit : A ++ (g ++ (c.tokens ++ (Chunk.all cs ++ rest))) =
        (A ++ g ++ c.code ++ c.note) ++ (c.gap ++ (Chunk.all cs ++ rest)) := by
      simp only [Chunk.tokens, List.append_assoc]
    rw [hlen] at hs hs'
    obtain ⟨ns, last, hns, hmap, hlast, hwhite, hspans⟩ := ih hcs (A ++ g ++ c.code ++ c.note) hc.gap
      (by simp only [List.length_append]; omega) (by simp only [List.length_append]; omega)
    rw [← hsplit] at hns hwhite hspans
    simp only [List.length_append] at hns hlast hwhite hspans
    obtain ⟨n, hbare, hspan, hn⟩ := hns.cons_chunk hc A hg (by rw [c.length_tokens]; omega)
      (by rw [c.length_tokens, List.length_append]; omega)
    rw [hall, hlen]
    refine ⟨n :: ns, last, hn, by rw [List.map_cons, List.map_cons, hmap, hbare], by omega,
      fun k hk hkl => hwhite k hk (by omega), fun hpunct => ?_⟩
    rw [List.map_cons, hspan hpunct, hspans hpunct, Chunk.spans, List.map_cons, c.length_tokens]
    simp only [Nat.add_assoc]

/-! What was read as an entry is read so elsewhere. -/

section

variable {p : Place} {start first : Nat} {r : Node × Nat}

theorem ended_verbatim {block : Bool} (h : ts.verbatim start first stop block = .ok r) :
    ts.Ended r.2 := by
  unfold verbatim at h
  split at h
  · cases h
  · rename_i he
    cases h
    exact ended_statementEnd he

theorem ended_classDecl {c : ClassStart} (h : ts.classDecl start c stop = .ok r) : ts.Ended r.2 := by
  unfold classDecl at h
  dsimp only at h
  split at h
  · cases h
  rename_i hp
  split at h
  · cases h
  rename_i hm
  split at h
  · cases h
  cases h
  exact ended_of_brace (matching_closes (b := .curly) (classParents_opens hp) hm).2

theorem ended_declaration (h : ts.declaration start first stop = .ok r) : ts.Ended r.2 := by
  unfold declaration at h
  split at h
  · unfold importDecl at h
    split at h
    · cases h
    · rename_i he
      split at h
      · cases h
        exact ended_statementEnd he
      · exact ended_verbatim h
  split at h
  · exact ended_classDecl h
  split at h
  · cases h
  · exact ended_verbatim h

theorem ended_member (h : ts.member start first stop = .ok r) : ts.Ended r.2 := by
  unfold member at h
  split at h
  · cases h
  dsimp only at h
  split at h
  · unfold method at h
    dsimp only at h
    split at h
    · cases h
    split at h
    · cases h
    split at h
    · cases h
    split at h
    · cases h
    rename_i hbody
    cases h
    unfold methodBody at hbody
    split at hbody
    · rename_i hopen
      split at hbody
      · cases hbody
      rename_i hm
      split at hbody
      · cases hbody
      · cases hbody
        exact ended_of_brace (matching_closes (b := .curly) hopen hm).2
    · split at hbody
      · rename_i hsemi
        cases hbody
        exact .inr ⟨';', rfl, hsemi⟩
      · cases hbody
  · exact ended_verbatim h

theorem ended_namespaceDecl {keyword : Nat} (h : ts.namespaceDecl start keyword stop = .ok r)
    (hopen : ∀ name?, r.1.decl ≠ .scope name? false) : ts.Ended r.2 := by
  unfold namespaceDecl at h
  extract_lets i name? j at h
  split at h
  · split at h
    · cases h
    · cases h
      exact absurd rfl (hopen _)
  split at h
  · cases h
  rename_i hbrace
  rw [Bool.not_eq_true', Bool.not_eq_false] at hbrace
  split at h
  · cases h
  rename_i hm
  split at h
  · cases h
  · cases h
    exact ended_of_brace (matching_closes (b := .curly) hbrace hm).2

theorem ended_entry (h : ts.entry p start first stop = .ok r)
    (hopen : ∀ name?, r.1.decl ≠ .scope name? false) : ts.Ended r.2 := by
  unfold entry at h
  split at h
  · split at h
    · exact ended_namespaceDecl h hopen
    · exact ended_declaration h
  · split at h
    · cases h
    · exact ended_declaration h
  · exact ended_member h

theorem length_extract {start stop : Nat} (h : stop ≤ ts.size) :
    (ts.extract start stop).toList.length = stop - start := by
  rw [Array.length_toList, Array.size_extract, Nat.min_eq_left h]

theorem getElem?_extract {start stop k : Nat} (hs : start ≤ k) (hk : k < stop) :
    (ts.extract start stop).toList[k - start]? = ts[k]? := by
  rw [Array.getElem?_toList, Array.getElem?_extract]
  by_cases hsize : k < ts.size
  · rw [if_pos (by omega)]
    congr 1
    omega
  · rw [if_neg (by omega), Array.getElem?_eq_none (Nat.le_of_not_lt hsize)]

end

end

end Tokens
end PhpGraft
