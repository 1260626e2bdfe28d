import PhpGraft.Proofs.Coverage
import PhpGraft.Proofs.Exchange
import PhpGraft.Proofs.RoundTrip
import PhpGraft.Proofs.Tiling

/-!
Which tokens belong to which node. The children of a container divide the code of its body among
them, each token of code to one child, and nothing but white space, tags and the text outside of
them is left between them.
-/
namespace PhpGraft

namespace Node

mutual

/-- The nodes of a tree are its root and the children of its nodes. -/
theorem subnodes_perm : ∀ n : Node, n.subnodes.Perm (n :: n.subnodes.flatMap children)
  | ⟨id, origin, decl, cs⟩ => by
    rw [subnodes, List.flatMap_cons]
    exact (subnodesList_perm cs).cons _

theorem subnodesList_perm : ∀ ns : List Node,
    (subnodesList ns).Perm (ns ++ (subnodesList ns).flatMap children)
  | [] => by
    rw [subnodesList]
    exact .nil
  | n :: ns => by
    rw [subnodesList, List.flatMap_append]
    refine ((subnodes_perm n).append (subnodesList_perm ns)).trans ?_
    rw [List.cons_append, List.cons_append]
    refine .cons _ ?_
    rw [← List.append_assoc, ← List.append_assoc]
    exact List.perm_append_comm.append_right _

end

mutual

theorem child_lt_number : ∀ (n : Nat) (m : Node), ∀ p ∈ (number n m).1.subnodes,
    ∀ c ∈ p.children, c.id < p.id
  | n, ⟨id, origin, decl, cs⟩, p, hp, c, hc => by
    rw [number, subnodes] at hp
    rcases List.mem_cons.1 hp with rfl | hp
    · exact ((numberList_bounds n cs).2 c ((sublist_subnodesList _).subset hc)).2
    · exact child_lt_numberList n cs p hp c hc

theorem child_lt_numberList : ∀ (n : Nat) (ms : List Node), ∀ p ∈ subnodesList (numberList n ms).1,
    ∀ c ∈ p.children, c.id < p.id
  | n, [], p, hp, c, hc => by
    rw [numberList, subnodesList] at hp
    cases hp
  | n, m :: ms, p, hp, c, hc => by
    rw [numberList, subnodesList] at hp
    rcases List.mem_append.1 hp with hp | hp
    · exact child_lt_number n m p hp c hc
    · exact child_lt_numberList _ ms p hp c hc

end

/-- `n` is a child of `p`, once, and of no other node of the tree. -/
structure OnlyChild (root p n : Node) : Prop where
  mem : p ∈ root.subnodes
  once : p.children.count n = 1
  only : ∀ q ∈ root.subnodes, n.id ∈ q.children.map Node.id → q = p

theorem Distinct.exists_onlyChild {root n : Node} (h : root.Distinct) (hn : n ∈ root.subnodes)
    (hne : n ≠ root) : ∃ p, OnlyChild root p n := by
  have hperm := subnodes_perm root
  have hnodup : ((root :: root.subnodes.flatMap Node.children).map Node.id).Nodup :=
    (hperm.map Node.id).nodup_iff.1 h
  obtain ⟨p, hp, hc⟩ : ∃ p ∈ root.subnodes, n ∈ p.children := by
    rcases List.mem_cons.1 (hperm.subset hn) with hroot | hn
    · exact absurd hroot hne
    · exact List.mem_flatMap.1 hn
  refine ⟨p, hp, ?_, fun q hq hqn => ?_⟩
  · exact List.count_eq_one_of_mem (List.Nodup.of_map _ (h.children hp)) hc
  · have hflat : (root.subnodes.flatMap fun m => m.children.map Node.id).Nodup := by
      rw [← List.map_flatMap]
      exact (List.nodup_cons.1 hnodup).2
    by_contra hpq
    have hsymm : Std.Symm (Function.onFun List.Disjoint fun m : Node => m.children.map Node.id) :=
      ⟨fun _ _ h _ ha hb => h hb ha⟩
    exact (List.nodup_flatMap.1 hflat).2.forall hq hp hpq hqn (List.mem_map_of_mem hc)

end Node

/-! The children of a container. -/

/-- The token `k` belongs to the node `n`. -/
def Node.Holds (n : Node) (k : Nat) : Prop :=
  ∃ a, n.origin = .anchored a ∧ a.span.start ≤ k ∧ k < a.span.stop

/-- How a container and its children lie over the tokens. -/
structure Node.Divides (ts : Tokens) (n : Node) (span body : Span) : Prop where
  origin : n.origin = .anchored ⟨span, some body⟩
  start_le : span.start ≤ body.start
  body_le : body.start ≤ body.stop
  stop_le : body.stop ≤ span.stop
  le_size : span.stop ≤ ts.size
  child : ∀ c ∈ n.children, ∃ a, c.origin = .anchored a ∧ a.span.start < a.span.stop ∧
    body.start ≤ a.span.start ∧ a.span.stop ≤ body.stop
  ordered : n.children.Pairwise fun c d => ∀ a b, c.origin = .anchored a → d.origin = .anchored b →
    a.span.stop ≤ b.span.start
  /-- What stands in front of a child, behind the child before it. -/
  gap : ∀ before c behind a, n.children = before ++ c :: behind → c.origin = .anchored a →
    ∀ k, Node.lastStop body.start before ≤ k → k < a.span.start → ts.isLoose k = true
  tail : ∀ k, Node.lastStop body.start n.children ≤ k → k < body.stop →
    ts.isCode k = false ∧ (n.decl.isClass = true → ts.isComment k = false)
  owned : ∀ k, body.start ≤ k → k < body.stop → ts.isCode k = true →
    ∃! c, c ∈ n.children ∧ c.Holds k

namespace Siblings

variable {ts : Tokens} {i last k : Nat} {ns : List Node}

theorem ordered (h : Siblings ts i ns last) : ns.Pairwise fun c d => ∀ a b,
    c.origin = .anchored a → d.origin = .anchored b → a.span.stop ≤ b.span.start := by
  induction ns generalizing i with
  | nil => exact .nil
  | cons n ns ih =>
    cases h with
    | cons ho hi hl hp hs =>
      refine .cons (fun d hd a b ha hb => ?_) (ih hs)
      obtain rfl := Origin.anchored.inj (ho.symm.trans ha)
      exact (hs.bounds hd hb).1

/-- Code between siblings belongs to one of them. -/
theorem exists_holds (h : Siblings ts i ns last) (hi : i ≤ k) (hk : k < last)
    (hcode : ts.isCode k = true) : ∃ c ∈ ns, c.Holds k := by
  induction ns generalizing i with
  | nil =>
    cases h
    omega
  | @cons n ns ih =>
    cases h with
    | @cons _ _ a _ _ ho hle hl hp hs =>
      rcases Nat.lt_or_ge k a.span.start with hlt | hge
      · rw [(hl k hi hlt).1] at hcode
        cases hcode
      rcases Nat.lt_or_ge k a.span.stop with hlt | hstop
      · exact ⟨n, List.mem_cons_self, a, ho, hge, hlt⟩
      · obtain ⟨c, hc, hh⟩ := ih hs hstop
        exact ⟨c, List.mem_cons_of_mem n hc, hh⟩

/-- No token belongs to two of them. -/
theorem holds_unique (h : Siblings ts i ns last) {c d : Node} (hc : c ∈ ns) (hd : d ∈ ns)
    (hck : c.Holds k) (hdk : d.Holds k) : c = d := by
  by_contra hne
  have hpair : ns.Pairwise fun c d => ¬(c.Holds k ∧ d.Holds k) := by
    refine h.ordered.imp ?_
    rintro c d hcd ⟨⟨a, ha, -, hka⟩, b, hb, hbk, -⟩
    have := hcd a b ha hb
    omega
  have hsymm : Std.Symm fun c d : Node => ¬(c.Holds k ∧ d.Holds k) := ⟨fun _ _ h hboth => h hboth.symm⟩
  exact hpair.forall hc hd hne ⟨hck, hdk⟩

theorem gap (h : Siblings ts i ns last) {before behind : List Node} {c : Node} {a : Anchor}
    (hns : ns = before ++ c :: behind) (ha : c.origin = .anchored a) :
    ts.Loose (Node.lastStop i before) a.span.start := by
  subst hns
  obtain ⟨mid, hbefore, hrest⟩ := h.split
  rw [← hbefore.last_eq]
  cases hrest with
  | cons ho _ hl _ _ =>
    obtain rfl := Origin.anchored.inj (ho.symm.trans ha)
    exact hl

end Siblings

theorem Placed.divides {ts : Tokens} {n : Node} (h : Placed ts n) (hd : n.decl.isContainer = true) :
    ∃ span body, n.Divides ts span body := by
  cases h with
  | leaf hleaf =>
    rw [show _ = _ from hleaf] at hd
    cases hd
  | @container id decl span body children last _ hs he =>
    refine ⟨span, body, rfl, he.start_le, Nat.le_trans hs.le he.last_le, he.stop_le, he.le_size,
      fun c hc => ?_, hs.ordered, ?_, ?_, ?_⟩
    · obtain ⟨a, ha⟩ := (hs.placed c hc).anchor
      have hbounds := hs.bounds hc ha
      exact ⟨a, ha, (hs.placed c hc).start_lt ha, hbounds.1, Nat.le_trans hbounds.2 he.last_le⟩
    · intro before c behind a hns ha k hk hks
      have hns : children = before ++ c :: behind := hns
      have hc : c ∈ children := hns ▸ List.mem_append_right _ List.mem_cons_self
      have hsize : k < ts.size := by
        have := (hs.bounds hc ha).2
        have := (hs.placed c hc).start_lt ha
        have := he.last_le
        have := he.stop_le
        have := he.le_size
        omega
      obtain ⟨hcode, hcomment⟩ := hs.gap hns ha k hk hks
      exact Tokens.isLoose_of_not hsize hcode hcomment
    · rw [← hs.last_eq]
      exact fun k hk hks => ⟨he.plain k hk hks, fun hclass => (he.loose hclass k hk hks).2⟩
    · intro k hk hks hcode
      have hlt : k < last := by
        refine Nat.lt_of_not_le fun hle => ?_
        rw [he.plain k hle hks] at hcode
        cases hcode
      obtain ⟨c, hc, hh⟩ := hs.exists_holds hk hlt hcode
      exact ⟨c, ⟨hc, hh⟩, fun d hd => hs.holds_unique hd.1 hc hd.2 hh⟩

/-! Code outside of the body of the file. -/

namespace Lexer

theorem after_of_ne (m : Mode) {k : TokenKind} (hopen : k ≠ .openTag) (hclose : k ≠ .closeTag) :
    m.after k = m := by
  cases k <;> first | rfl | contradiction

/-- Where code is read, an open tag stands in front, with no close tag behind it. -/
theorem afterAll_html {xs : List Token} (h : Mode.afterAll .html xs = .code) :
    ∃ front x behind, xs = front ++ x :: behind ∧ x.kind = .openTag ∧
      ∀ y ∈ behind, y.kind ≠ .closeTag := by
  induction xs using List.reverseRecOn with
  | nil => cases h
  | append_singleton xs x ih =>
    have hafter : Mode.afterAll .html (xs ++ [x]) = (Mode.afterAll .html xs).after x.kind :=
      List.foldl_append ..
    rw [hafter] at h
    by_cases hopen : x.kind = .openTag
    · exact ⟨xs, x, [], rfl, hopen, nofun⟩
    by_cases hclose : x.kind = .closeTag
    · rw [hclose] at h
      cases h
    rw [after_of_ne _ hopen hclose] at h
    obtain ⟨front, y, behind, rfl, hy, hbehind⟩ := ih h
    refine ⟨front, y, behind ++ [x], by rw [List.append_assoc, List.cons_append], hy, ?_⟩
    intro z hz
    rcases List.mem_append.1 hz with hz | hz
    · exact hbehind z hz
    · rwa [List.mem_singleton.1 hz]

theorem Reads.mode_of_isCode {m : Mode} {ts : List Token} {t : Text} {k : Nat} {x : Token}
    (h : Reads m ts t) (hk : ts[k]? = some x) (hcode : x.kind.isCode = true) :
    m.afterAll (ts.take k) = .code := by
  obtain ⟨hlt, rfl⟩ := List.getElem?_eq_some_iff.1 hk
  rw [← List.take_append_drop k ts, List.drop_eq_getElem_cons hlt] at h
  have hr := h.of_append
  cases hm : m.afterAll (ts.take k) with
  | code => rfl
  | html =>
    rw [hm] at hr
    rcases hr.head_html with h | h <;> rw [h] at hcode <;> cases hcode

end Lexer

namespace Tokens

variable {ts : Tokens} {k : Nat}

theorem exists_openTag {text : Text} (h : Lexer.Reads .html ts.toList text)
    (hk : ts.isCode k = true) : ∃ j, j < k ∧ ts.kind? j = some .openTag ∧
      ∀ i, j < i → i < k → ts.kind? i ≠ some .closeTag := by
  obtain ⟨kind, hkind, hcode⟩ := (Option.any_eq_true _ _).1 hk
  obtain ⟨x, hx, rfl⟩ := Option.map_eq_some_iff.1 hkind
  rw [← Array.getElem?_toList] at hx
  obtain ⟨front, y, behind, hsplit, hy, hbehind⟩ := Lexer.afterAll_html (h.mode_of_isCode hx hcode)
  have hlen := congrArg List.length hsplit
  rw [List.length_take, List.length_append, List.length_cons] at hlen
  have hkind : ∀ i, i < k → ts.kind? i = (front ++ y :: behind)[i]?.map Token.kind := by
    intro i hi
    rw [kind?, ← Array.getElem?_toList, ← hsplit, List.getElem?_take_of_lt hi]
  have hlt : k < ts.toList.length := (List.getElem?_eq_some_iff.1 hx).1
  refine ⟨front.length, by omega, ?_, fun i hi hik => ?_⟩
  · rw [hkind _ (by omega), List.getElem?_append_right (Nat.le_refl _), Nat.sub_self]
    exact congrArg some hy
  · obtain ⟨j, rfl⟩ := Nat.exists_eq_add_of_lt hi
    rw [hkind _ hik, List.getElem?_append_right (by omega),
      show front.length + j + 1 - front.length = j + 1 by omega, List.getElem?_cons_succ]
    intro hclose
    obtain ⟨z, hz, hzk⟩ := Option.map_eq_some_iff.1 hclose
    exact hbehind z (List.mem_of_getElem? hz) hzk

/-- All code of a file stands in its body. -/
theorem codeSpan?_isCode {text : Text} {body : Span} (h : Lexer.Reads .html ts.toList text)
    (hb : ts.codeSpan? = some body) (hk : ts.isCode k = true) : body.start ≤ k ∧ k < body.stop := by
  obtain ⟨first, last, hs, hstart⟩ := spanned_of_codeSpan? hb
  obtain ⟨j, hjk, hopen, hclose⟩ := exists_openTag h hk
  have hfirst : first ≤ j := Nat.le_of_not_lt fun hlt => hs.before j hlt hopen
  have hlast : j ≤ last := Nat.le_of_not_lt fun hlt => hs.behind j hlt hopen
  refine ⟨by omega, Nat.lt_of_not_le fun hle => ?_⟩
  have hsize := lt_size_of_isCode hk
  have hstop := hs.stop (by omega)
  have hlt := hs.lt
  rcases Nat.lt_or_eq_of_le hle with hlt' | rfl
  · exact hclose body.stop (by omega) hlt' hstop
  · rw [isCode, hstop] at hk
    cases hk

end Tokens

/-! The result. -/

/-- The tree covers the code of the file exactly. -/
structure Source.Covers (s : Source) : Prop where
  parent : ∀ n ∈ s.tree.root.subnodes, n ≠ s.tree.root →
    ∃ p, Node.OnlyChild s.tree.root p n ∧ p.decl.isContainer = true ∧ n.id < p.id
  divides : ∀ n ∈ s.tree.root.subnodes, n.decl.isContainer = true →
    ∃ span body, n.Divides s.tokens span body
  /-- All code stands in the body of the file, and each token of it belongs to one child. -/
  code : ∃ span body, s.tree.root.Divides s.tokens span body ∧
    ∀ k, s.tokens.isCode k = true → (body.start ≤ k ∧ k < body.stop) ∧
      ∃! c, c ∈ s.tree.root.children ∧ c.Holds k

theorem Source.root_isContainer {s : Source} {text : Text} (h : Source.parse text = .ok s) :
    s.tree.root.decl.isContainer = true := by
  rw [root_decl h]
  rfl

theorem Source.child_lt {s : Source} {text : Text} (h : Source.parse text = .ok s) :
    ∀ p ∈ s.tree.root.subnodes, ∀ c ∈ p.children, c.id < p.id := by
  unfold Source.parse at h
  split at h
  · cases h
  split at h
  · cases h
  cases h
  exact Node.child_lt_number 0 _

/-- The tree that is read from a file covers its code exactly. -/
theorem covers_of_parse {text : Text} {s : Source} (h : Source.parse text = .ok s) : s.Covers := by
  have hf := Source.faithful_of_parse h
  have hplaced := hf.placed.of_mem_subnodes
  refine ⟨fun n hn hne => ?_, fun n hn hd => (hplaced n hn).divides hd, ?_⟩
  · obtain ⟨p, hp⟩ := hf.distinct.exists_onlyChild hn hne
    have hmem : n ∈ p.children := List.count_pos_iff.1 (hp.once ▸ Nat.one_pos)
    obtain ⟨span, body, last, -, -, -⟩ := (hplaced p hp.mem).body hmem
    refine ⟨p, hp, ?_, Source.child_lt h p hp.mem n hmem⟩
    cases hplaced p hp.mem with
    | leaf => cases hmem
    | container hd => exact hd
  · obtain ⟨body, hb, ho⟩ := Source.root_body h
    obtain ⟨span, body', hdiv⟩ := hf.placed.divides (Source.root_isContainer h)
    obtain ⟨rfl, rfl⟩ : span = ⟨0, s.tokens.size⟩ ∧ body' = body := by
      have := hdiv.origin.symm.trans ho
      simpa using this
    refine ⟨_, _, hdiv, fun k hk => ?_⟩
    have hbody := Tokens.codeSpan?_isCode hf.reads hb hk
    exact ⟨hbody, hdiv.owned k hbody.1 hbody.2 hk⟩

/-- A class with a comment behind its last member, in a namespace block. -/
theorem covers_of_parse_block : ∃ s, Source.parse
      "<?php namespace A \x7b class B \x7b use T; // t\n function f() \x7b\x7d /* z */ \x7d \x7d ?>x" = .ok s ∧
    s.tree.next = 6 ∧ s.Covers := by
  let text : Text :=
    "<?php namespace A \x7b class B \x7b use T; // t\n function f() \x7b\x7d /* z */ \x7d \x7d ?>x"
  have hparse : (Source.parse text).toOption.any (·.tree.next == 6) = true := by decide +kernel
  obtain ⟨s, h, hnext⟩ := Steps.exists_of_any hparse
  exact ⟨s, h, beq_iff_eq.1 hnext, covers_of_parse h⟩

end PhpGraft
