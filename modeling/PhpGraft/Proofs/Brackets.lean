import PhpGraft.Proofs.MethodText
import PhpGraft.Proofs.Nesting
import PhpGraft.Proofs.Numbering
import PhpGraft.Proofs.Steps

/-!
Accepted code is balanced: the brackets of a file, of a fragment, and of each statement and each
class of a tree are properly nested and all closed.
-/
namespace PhpGraft

theorem Node.subnodesList_append (ns ms : List Node) :
    subnodesList (ns ++ ms) = subnodesList ns ++ subnodesList ms := by
  induction ns with
  | nil => rfl
  | cons n ns ih => rw [List.cons_append, subnodesList, ih, subnodesList, List.append_assoc]

namespace Tokens

variable {ts : Tokens} {start first i stop last : Nat} {r : Node × Nat} {p : Place} {ns : List Node}

/-- A statement kept as it stands, or a class-like declaration, has all its brackets closed. -/
def Closes (ts : Tokens) (n : Node) : Prop :=
  n.decl.isClass = true ∨ (∃ text, n.decl = .verbatim text) →
    ∃ a, n.origin = .anchored a ∧ ts.Nests a.span.start a.span.stop

/-- What is read from `start` on, as far as its brackets go. -/
structure Kept (ts : Tokens) (start : Nat) (r : Node × Nat) : Prop where
  origin : ∃ body?, r.1.origin = .anchored ⟨⟨start, r.2⟩, body?⟩
  own : r.1.decl.isClass = true ∨ (∃ text, r.1.decl = .verbatim text) → ts.Nests start r.2
  below : ∀ n ∈ Node.subnodesList r.1.children, ts.Closes n

theorem Kept.closes (h : ts.Kept start r) : ∀ n ∈ r.1.subnodes, ts.Closes n := by
  rw [Node.subnodes_eq]
  refine List.forall_mem_cons.2 ⟨fun hd => ?_, h.below⟩
  obtain ⟨body?, ho⟩ := h.origin
  exact ⟨_, ho, h.own hd⟩

theorem Kept.finish (h : ts.Kept start r) (hle : start ≤ r.2) (stop : Nat) :
    ts.Kept start (ts.finish stop r) := by
  obtain ⟨⟨id, origin, decl, children⟩, next⟩ := r
  obtain ⟨⟨body?, ho⟩, hown, hbelow⟩ := h
  dsimp only at ho hown hbelow hle
  subst ho
  unfold Tokens.finish
  split
  · exact ⟨⟨body?, rfl⟩, hown, hbelow⟩
  · have htrail := ts.le_trailing next stop
    simp only [withTrailing, Nat.max_eq_right htrail]
    exact ⟨⟨body?, rfl⟩, fun hd => (hown hd).trans
      (nests_of_plain htrail (ts.plain_trailing next stop)) hle htrail, hbelow⟩

theorem Items.closes (h : ts.Items p stop i ns last)
    (hentry : ∀ {start first r}, start ≤ first → first < stop → ts.Plain start first →
      ts.entry p start first stop = .ok r → ts.Kept start r) :
    ∀ n ∈ Node.subnodesList ns, ts.Closes n := by
  induction h with
  | nil => exact fun _ hn => nomatch hn
  | @cons i r ns last hs he _ ih =>
    have hi : i ≤ ts.significant i stop := le_firstFrom_of_lt hs
    have hlead := ts.leading_le i (ts.significant i stop)
    have hkept := hentry hlead hs (fun k hk => ts.plain_significant i stop k
      (Nat.le_trans (le_leading hi) hk)) he
    have hlt := lt_of_entry he hs
    rw [Node.subnodesList]
    intro n hn
    rcases List.mem_append.1 hn with hn | hn
    · exact (hkept.finish (by omega) stop).closes n hn
    · exact ih n hn

theorem kept_verbatim {block : Bool} (h : ts.verbatim start first stop block = .ok r)
    (hs : start ≤ first) (hp : ts.Plain start first) : ts.Kept start r := by
  have hn := (nests_of_plain hs hp).trans (nests_verbatim h) hs (Nat.le_of_lt (lt_of_verbatim h))
  unfold verbatim at h
  split at h
  · cases h
  · cases h
    exact ⟨⟨_, rfl⟩, fun _ => hn, List.forall_mem_nil _⟩

theorem kept_importDecl (h : ts.importDecl start first stop = .ok r) (hs : start ≤ first)
    (hp : ts.Plain start first) : ts.Kept start r := by
  unfold importDecl at h
  split at h
  · cases h
  · split at h
    · cases h
      refine ⟨⟨_, rfl⟩, ?_, List.forall_mem_nil _⟩
      rintro (hd | ⟨_, hd⟩) <;> cases hd
    · exact kept_verbatim h hs hp

theorem kept_method {function : Nat} {words : List Text}
    (h : ts.method start first function words stop = .ok r) : ts.Kept start r := by
  unfold method at h
  dsimp only at h
  split at h
  · cases h
  split at h
  · cases h
  split at h
  · cases h
  split at h
  · cases h
  cases h
  refine ⟨⟨_, rfl⟩, ?_, List.forall_mem_nil _⟩
  rintro (hd | ⟨_, hd⟩) <;> cases hd

theorem kept_member (h : ts.member start first stop = .ok r) (hs : start ≤ first)
    (hp : ts.Plain start first) : ts.Kept start r := by
  unfold member at h
  split at h
  · cases h
  dsimp only at h
  split at h
  · exact kept_method h
  · exact kept_verbatim h hs hp

theorem closes_closingComments (hp : ts.Plain i stop) :
    ∀ n ∈ Node.subnodesList (ts.closingComments i stop), ts.Closes n := by
  have hmin : min i stop ≤ ts.leading i stop := min_le_firstFrom ..
  have hsize := ts.dropWhile_extract_le (!·.kind.isComment) (ts.leading i stop) stop
  unfold closingComments
  dsimp only
  generalize ((ts.extract (ts.leading i stop) stop).toList.reverse.dropWhile
    (!·.kind.isComment)).length = size at hsize
  split
  · exact fun _ hn => nomatch hn
  · intro n hn
    obtain rfl := List.mem_singleton.1 hn
    have hplain : ts.Plain (ts.leading i stop) (ts.leading i stop + size) :=
      fun k hk hks => hp k (by omega) (by omega)
    exact fun _ => ⟨_, rfl, nests_of_plain (Nat.le_add_right _ _) hplain⟩

theorem closes_members (h : ts.members i stop = .ok ns) :
    ∀ n ∈ Node.subnodesList ns, ts.Closes n := by
  obtain ⟨ms, last, rfl, hitems, hhalts⟩ := items_of_members h
  have hend : ts.significant last stop = stop :=
    Nat.le_antisymm (significant_le ..) (Nat.le_of_not_lt fun hlt => absurd (hhalts hlt).1 (by decide))
  have hplain := ts.plain_significant last stop
  rw [hend] at hplain
  rw [Node.subnodesList_append]
  intro n hn
  rcases List.mem_append.1 hn with hn | hn
  · exact hitems.closes (fun hs _ hp he => kept_member he hs hp) n hn
  · exact closes_closingComments hplain n hn

theorem kept_classDecl {c : ClassStart} (h : ts.classDecl start c stop = .ok r)
    (hn : ts.Nests start r.2) : ts.Kept start r := by
  unfold classDecl at h
  dsimp only at h
  split at h
  · cases h
  split at h
  · cases h
  split at h
  · cases h
  cases h
  exact ⟨⟨_, rfl⟩, fun _ => hn, closes_members ‹_›⟩

theorem kept_declaration (h : ts.declaration start first stop = .ok r) (hs : start ≤ first)
    (hlt : first < stop) (hp : ts.Plain start first) : ts.Kept start r := by
  have hn := (nests_of_plain hs hp).trans (nests_declaration h hlt) hs
    (Nat.le_of_lt (lt_of_declaration h hlt))
  unfold declaration at h
  split at h
  · exact kept_importDecl h hs hp
  split at h
  · exact kept_classDecl h hn
  split at h
  · cases h
  · exact kept_verbatim h hs hp

theorem closes_declarations {braced : Bool} (h : ts.declarations braced i stop = .ok (ns, last)) :
    ∀ n ∈ Node.subnodesList ns, ts.Closes n := by
  refine (items_of_declarations h).1.closes fun hs hlt hp he => ?_
  unfold entry at he
  dsimp only at he
  split at he
  · cases he
  · exact kept_declaration he hs hlt hp

theorem kept_namespaceDecl {keyword : Nat} (h : ts.namespaceDecl start keyword stop = .ok r) :
    ts.Kept start r := by
  have hno : ∀ {name? braced}, ¬((Decl.scope name? braced).isClass = true ∨
      ∃ text, Decl.scope name? braced = .verbatim text) := by
    rintro _ _ (hd | ⟨_, hd⟩) <;> cases hd
  obtain ⟨n, next⟩ := r
  rcases namespaceDecl_cases h with
    ⟨-, -, children, hd, hn⟩ | ⟨-, closing, children, last, -, hd, hr⟩
  · dsimp only at hn hd
    subst hn
    exact ⟨⟨_, rfl⟩, fun h => absurd h hno, closes_declarations hd⟩
  · cases hr
    exact ⟨⟨_, rfl⟩, fun h => absurd h hno, closes_declarations hd⟩

theorem kept_entry_file (h : ts.entry .file start first stop = .ok r) (hs : start ≤ first)
    (hlt : first < stop) (hp : ts.Plain start first) : ts.Kept start r := by
  unfold entry at h
  dsimp only at h
  split at h
  · exact kept_namespaceDecl h
  · exact kept_declaration h hs hlt hp

/-- The brackets of a file, of its statements and of its classes. -/
theorem nests_file {root : Node} (h : ts.file = .ok root) :
    ∃ first body, ts.findIdx? (·.kind == .openTag) = some first ∧
      root.origin = .anchored ⟨⟨0, ts.size⟩, some body⟩ ∧ ts.Nests first body.stop ∧
        ∀ n ∈ root.subnodes, ts.Closes n := by
  unfold file at h
  split at h
  · cases h
  rename_i body hb
  split at h
  · cases h
  rename_i children hc
  cases h
  obtain ⟨hbody, hsize, hend⟩ := (codeSpan?_bounds hb).2
  obtain ⟨last, hitems, hhalts⟩ := items_of_fileItems hc
  have hlast := hitems.le_stop hbody hsize hend
  have hrest : ts.Nests last (ts.significant last body.stop) := nests_significant hlast
  rw [Nat.le_antisymm (significant_le ..)
    (Nat.le_of_not_lt fun hlt => absurd (hhalts hlt).1 (by decide))] at hrest
  have hitemsNest := hitems.nests fun hs he => nests_entry (by decide) he hs
  have hbodyNests := hitemsNest.trans hrest hitems.le hlast
  obtain ⟨first, hf, rfl⟩ := Option.map_eq_some_iff.1 hb
  obtain ⟨hlt, hopen, -⟩ := Array.findIdx?_eq_some_iff_getElem.1 hf
  have hfirst : ts.isCode first = false := by
    rw [isCode, kind?, Array.getElem?_eq_getElem hlt, Option.map_some, beq_iff_eq.1 hopen]
    rfl
  refine ⟨first, _, hf, rfl, (nests_succ (not_bracket_of_not_isCode hfirst)).trans hbodyNests
    (Nat.le_succ first) hbody, ?_⟩
  rw [Node.subnodes_eq]
  refine List.forall_mem_cons.2 ⟨?_, hitems.closes fun hs hlt hp he => kept_entry_file he hs hlt hp⟩
  rintro (hd | ⟨_, hd⟩) <;> cases hd

end Tokens

/-! The results. -/

mutual

theorem Node.mem_subnodes_number {m : Node} : ∀ (k : Nat) (n : Node), m ∈ (n.number k).1.subnodes →
    ∃ m' ∈ n.subnodes, m.decl = m'.decl ∧ m.origin = m'.origin
  | k, ⟨id, origin, decl, children⟩, h => by
    rw [number, subnodes] at h
    rw [subnodes]
    rcases List.mem_cons.1 h with rfl | h
    · exact ⟨_, List.mem_cons_self, rfl, rfl⟩
    · obtain ⟨m', hm', he⟩ := mem_subnodesList_number k children h
      exact ⟨m', List.mem_cons_of_mem _ hm', he⟩

theorem Node.mem_subnodesList_number {m : Node} : ∀ (k : Nat) (ns : List Node),
    m ∈ subnodesList (numberList k ns).1 →
      ∃ m' ∈ subnodesList ns, m.decl = m'.decl ∧ m.origin = m'.origin
  | _, [], h => nomatch h
  | k, n :: ns, h => by
    rw [numberList, subnodesList] at h
    rw [subnodesList]
    rcases List.mem_append.1 h with h | h
    · obtain ⟨m', hm', he⟩ := mem_subnodes_number k n h
      exact ⟨m', List.mem_append_left _ hm', he⟩
    · obtain ⟨m', hm', he⟩ := mem_subnodesList_number (n.number k).2 ns h
      exact ⟨m', List.mem_append_right _ hm', he⟩

end

/-- Accepted code has its brackets properly nested and all closed: a file from its first open tag up
to the end of its body and each of its statements and classes, and a fragment. -/
theorem nests_of_parse (code : Text) :
    (∀ s, Source.parse code = .ok s →
      ∃ first body, s.tokens.findIdx? (·.kind == .openTag) = some first ∧
        s.tree.root.origin = .anchored ⟨⟨0, s.tokens.size⟩, some body⟩ ∧
        s.tokens.Nests first body.stop ∧ ∀ n ∈ s.tree.root.subnodes, s.tokens.Closes n) ∧
    ∀ sts, parseFragment code = .ok sts →
      ∃ ts, lexCode (fragmentCode code) = .ok ts ∧ Nested (ts.filterMap Token.bracket?) := by
  constructor
  · intro s hs
    unfold Source.parse at hs
    split at hs
    · cases hs
    rename_i tokens _
    split at hs
    · cases hs
    rename_i root hroot
    cases hs
    obtain ⟨first, body, hfirst, horigin, hnests, hcloses⟩ := Tokens.nests_file hroot
    refine ⟨first, body, hfirst, ?_, hnests, fun n hn => ?_⟩
    · rw [← horigin]
      cases root
      rfl
    · obtain ⟨m, hm, hdecl, horigin⟩ := Node.mem_subnodes_number 0 root hn
      intro hd
      rw [hdecl] at hd
      rw [horigin]
      exact hcloses m hm hd
  · intro sts hsts
    obtain ⟨ts, hlex, hstatements⟩ := Tokens.parseFragment_eq hsts
    have hnests := Tokens.nests_statements hstatements (Nat.zero_le _)
    refine ⟨ts, hlex, ?_⟩
    rwa [Tokens.Nests, Tokens.brackets_eq, List.drop_zero, Nat.sub_zero, List.take_length] at hnests

/-- Brackets in an attribute, a string, a comment and a member. -/
theorem nests_of_parse_mixed :
    ∃ code, code = ("<?php #[A([1])] class B \x7bconst C = [2]; // (\n\x7d f('\x7d'); ?>)" : Text) ∧
      (∃ s, Source.parse code = .ok s ∧
        ∃ first body, s.tokens.findIdx? (·.kind == .openTag) = some first ∧
          s.tree.root.origin = .anchored ⟨⟨0, s.tokens.size⟩, some body⟩ ∧
          s.tokens.Nests first body.stop ∧ ∀ n ∈ s.tree.root.subnodes, s.tokens.Closes n) ∧
      ∃ sts, parseFragment code = .ok sts ∧
        ∃ ts, lexCode (fragmentCode code) = .ok ts ∧
          ts.filterMap Token.bracket? = "[([])]\x7b[]\x7d()" ∧ Nested "[([])]\x7b[]\x7d()" := by
  refine ⟨_, rfl, ?_⟩
  generalize hcode :
    ("<?php #[A([1])] class B \x7bconst C = [2]; // (\n\x7d f('\x7d'); ?>)" : Text) = code
  obtain ⟨hfile, hfragment⟩ := nests_of_parse code
  have hread : (Source.parse code).toOption.any (fun _ => (parseFragment code).toOption.any fun _ =>
      (lexCode (fragmentCode code)).toOption.any fun ts =>
        ts.filterMap Token.bracket? == ("[([])]\x7b[]\x7d()" : Text)) = true := by
    rw [← hcode]
    decide +kernel
  obtain ⟨s, hs, hread⟩ := Steps.exists_of_any hread
  obtain ⟨sts, hsts, hread⟩ := Steps.exists_of_any hread
  obtain ⟨ts, hts, hbrackets⟩ := Steps.exists_of_any hread
  obtain ⟨ts', hts', hnested⟩ := hfragment sts hsts
  obtain rfl : ts = ts' := Except.ok.inj (hts.symm.trans hts')
  rw [beq_iff_eq.1 hbrackets] at hnested
  exact ⟨⟨s, hs, hfile s hs⟩, sts, hsts, ts, hts, beq_iff_eq.1 hbrackets, hnested⟩

end PhpGraft
