import PhpGraft.Proofs.Indentation
import PhpGraft.Proofs.Joining

/-!
Code that is cut behind a semicolon, a brace or a comment is read as it was, with nothing behind it.
A comment that goes to the end of its line loses the white space at its end.
-/
namespace PhpGraft

open Lexer

theorem Token.Like.trans {t u v : Token} (h : t.Like u) (h' : u.Like v) : t.Like v where
  kind := h'.kind.trans h.kind
  text hc hh := (h'.text (by rwa [h.kind]) (by rwa [h.kind])).trans (h.text hc hh)
  line hw := (h'.line (h.kind.trans hw)).trans (h.line hw)
  solid := h'.solid.trans h.solid
  ends hk := ⟨(h'.ends (h.kind.trans hk)).1.trans (h.ends hk).1,
    (h'.ends (h.kind.trans hk)).2.trans (h.ends hk).2⟩

theorem Token.Like.comment {k : TokenKind} {s t : Text} (hk : k.isComment = true)
    (h : t.solid = s.solid) : Token.Like ⟨k, s⟩ ⟨k, t⟩ := by
  refine ⟨rfl, fun hc => ?_, fun hw => ?_, h, fun hd => ?_⟩
  · rw [TokenKind.isCode, TokenKind.isTrivia, show (Token.mk k s).kind = k from rfl, hk] at hc
    simp at hc
  · obtain rfl : k = .whitespace := hw
    cases hk
  · obtain rfl : k = .heredoc := hd
    cases hk

namespace Lexer

variable {c d : Char} {k : TokenKind} {m : Mode} {u s t t' : Text} {L zs zs' : List Token}

/-- In front of a comment a text is read alike, however the comment goes on. -/
theorem Reads.replace (h : Reads m (L ++ zs) s) (hd : d = '/' ∨ d = '#')
    (hz : Token.spell zs = d :: t) (h' : Reads .code zs' (d :: t')) (hm : m.afterAll L = .code) :
    Reads m (L ++ zs') (Token.spell L ++ d :: t') := by
  have hedge : isEdge d = true := by rcases hd with rfl | rfl <;> rfl
  induction L generalizing m s with
  | nil =>
    obtain rfl : m = .code := hm
    exact h'
  | cons x L ih =>
    cases h with
    | @cons _ c u r k _ hs hr =>
      obtain rfl : r = Token.spell L ++ d :: t := by
        rw [← hr.spell, ← hz]
        exact List.flatMap_append
      have hcons := Reads.cons (scan_edge hedge hs t') (ih hr hm)
      simpa only [Token.spell, List.flatMap_cons, List.cons_append, List.append_assoc] using hcons

/-! A comment by itself. -/

/-- A comment between `/*` and `*/` does not see what follows it. -/
theorem Rule.comment_append (h : Rule c (u ++ t) k u.length)
    (hk : k = .blockComment ∨ k = .docComment) (t' : Text) : Rule c (u ++ t') k u.length := by
  have hno : ∀ {k'}, k' ≠ TokenKind.blockComment → k' ≠ .docComment → k ≠ k' := by
    rintro k' hb hd rfl
    rcases hk with rfl | rfl
    · exact hb rfl
    · exact hd rfl
  generalize hn : u.length = n at h
  cases h with
  | @comment n hc hsize =>
    obtain ⟨rfl, hstar⟩ := hc
    cases u with
    | nil =>
      rw [List.length_nil] at hn
      omega
    | cons d v =>
      obtain ⟨_, hv⟩ := List.isPrefixOf_iff_prefix.1 hstar
      obtain rfl : '*' = d := (List.cons.inj hv).1
      obtain rfl : v.length = n := by
        rw [List.length_cons] at hn
        omega
      have hv : commentSize? (v ++ t) = some v.length := hsize
      have hdoc : isDoc ('*' :: (v ++ t')) = isDoc ('*' :: (v ++ t)) := by
        rw [isDoc_append (two_le_commentSize? hv), isDoc_append (two_le_commentSize? hv)]
      have hrule := Rule.comment (c := '/') (t := '*' :: (v ++ t')) ⟨rfl, rfl⟩
        (commentSize?_append hv t')
      rw [← isDoc, hdoc] at hrule
      exact hrule
  | _ => exact absurd rfl (hno (by decide) (by decide))

theorem lineCommentSize_prefix (h : u.length ≤ lineCommentSize (u ++ t)) :
    lineCommentSize u = u.length := by
  induction u with
  | nil => rfl
  | cons c u ih =>
    rw [List.cons_append, List.length_cons] at h
    obtain ⟨n, hn⟩ := Nat.exists_eq_succ_of_ne_zero (show lineCommentSize (c :: (u ++ t)) ≠ 0 by omega)
    obtain ⟨hc, hq, hsize⟩ := of_lineCommentSize_succ hn
    rw [lineCommentSize_cons hc, ih (by omega), List.length_cons]
    rintro s rfl rfl
    exact hq (s ++ t) rfl rfl

/-- A comment up to the end of its line, without the white space there. -/
theorem Rule.line_trimEnd (h : Rule c (u ++ t) .lineComment u.length) :
    ∃ v, Text.trimEnd (c :: u) = c :: v ∧ Rule c v .lineComment v.length := by
  obtain ⟨hstart, hsize⟩ := h.line
  have hc : isWhite c = false := by rcases hstart with ⟨rfl, -⟩ | ⟨rfl, -⟩ <;> rfl
  obtain ⟨w, hw, -⟩ := Text.trimEnd_append_white u
  have hv : lineCommentSize (Text.trimEnd u) = (Text.trimEnd u).length := by
    refine lineCommentSize_prefix (t := w ++ t) ?_
    rw [← List.append_assoc, ← hw, hsize]
    exact (Text.isPrefix_trimEnd u).length_le
  refine ⟨Text.trimEnd u, Text.trimEnd_append_cons (s := []) hc, ?_⟩
  rw [← hv]
  refine .lineComment (hstart.imp (fun h => ⟨h.1, ?_⟩) fun h => ⟨h.1, ?_⟩)
  · cases u with
    | nil =>
      obtain ⟨r, rfl⟩ := List.isPrefixOf_iff_prefix.1 h.2
      cases hsize
    | cons e u =>
      obtain ⟨r, hr⟩ := List.isPrefixOf_iff_prefix.1 h.2
      obtain rfl : '/' = e := (List.cons.inj hr).1
      have htrim : Text.trimEnd ('/' :: u) = '/' :: Text.trimEnd u :=
        Text.trimEnd_append_cons (s := []) rfl
      rw [htrim]
      rfl
  · rw [startsWith_singleton, Bool.not_eq_true']
    have hu : (u ++ t).head?.any ('[' == ·) = false := by
      simpa [startsWith_singleton] using h.2
    rw [hw, List.append_assoc] at hu
    cases hv : Text.trimEnd u with
    | nil => rfl
    | cons e v =>
      rw [hv] at hu
      exact hu

theorem Rule.comment_alone (h : Rule c (u ++ t) k u.length) (hk : k.isComment = true) :
    ∃ v, Text.trimEnd (c :: u) = c :: v ∧ (k ≠ .lineComment → v = u) ∧ Rule c v k v.length := by
  by_cases hline : k = .lineComment
  · subst hline
    obtain ⟨v, hv, hrule⟩ := h.line_trimEnd
    exact ⟨v, hv, fun h => absurd rfl h, hrule⟩
  · have hblock : k = .blockComment ∨ k = .docComment := by
      cases k <;> first | exact absurd rfl hline | exact .inl rfl | exact .inr rfl | cases hk
    have halone := h.comment_append hblock []
    rw [List.append_nil] at halone
    refine ⟨u, ?_, fun _ => rfl, halone⟩
    -- Behind the comment stands a letter here, so it does not end with its line.
    have hlast := ((h.comment_append hblock ['x']).comment_bounds hk).2
    rw [List.take_left, List.drop_left] at hlast
    rcases hlast with hlast | h | ⟨r, h⟩ | ⟨r, h⟩
    · obtain ⟨v, rfl⟩ := List.getLast?_eq_some_iff.1 hlast
      exact Text.trimEnd_append_cons (s := c :: v) (t := []) (c := '/') rfl
    · cases h
    · cases h
    · cases h

theorem after_code (h : k ≠ .closeTag) : Mode.after .code k = .code := by
  cases k <;> first | rfl | exact absurd rfl h

theorem afterAll_code (h : ∀ x ∈ L, x.kind ≠ .closeTag) : Mode.afterAll .code L = .code := by
  induction L with
  | nil => rfl
  | cons x L ih =>
    obtain ⟨hx, hL⟩ := List.forall_mem_cons.1 h
    rw [Mode.afterAll, List.foldl_cons, after_code hx]
    exact ih hL

/-- Code that ends with a semicolon, a brace or a comment, cut behind it. -/
theorem Reads.cut {x : Token} (h : Reads .code (L ++ x :: zs) s)
    (hx : (∃ z, isBarrier z = true ∧ x = ⟨.punct, [z]⟩) ∨ x.kind.isComment = true)
    (hclose : ∀ y ∈ L, y.kind ≠ .closeTag) :
    ∃ y, x.Like y ∧ y.text = Text.trimEnd x.text ∧ (x.kind ≠ .lineComment → y = x) ∧
      Reads .code (L ++ [y]) (Token.spell L ++ y.text) := by
  rcases hx with ⟨z, hz, rfl⟩ | hx
  · refine ⟨_, .refl _, ?_, fun _ => rfl, ?_⟩
    · have hw : isWhite z = false := by rcases isBarrier_cases hz with rfl | rfl | rfl <;> rfl
      exact (Text.trimEnd_append_cons (s := []) (t := []) hw).symm
    · exact h.barrier hz .nil
  · have hrest := h.of_append
    rw [afterAll_code hclose] at hrest
    generalize hs : Token.spell (x :: zs) = r at hrest
    cases hrest with
    | @cons _ c u t k _ hscan hr =>
      have hrule := rule_of_scanCode hscan
      obtain ⟨v, hv, hsame, halone⟩ := hrule.comment_alone hx
      have hsolid : Text.solid (c :: v) = Text.solid (c :: u) := by rw [← hv, Text.solid_trimEnd]
      refine ⟨⟨k, c :: v⟩, .comment hx hsolid, hv.symm, fun hk => by rw [hsame hk], ?_⟩
      have hone : Reads .code [⟨k, c :: v⟩] (c :: v) := by
        have hcons : Reads .code [⟨k, c :: v⟩] (c :: (v ++ [])) :=
          .cons (by rw [List.append_nil]; exact halone.scanCode_eq) .nil
        rwa [List.append_nil] at hcons
      exact h.replace (hrule.comment_bounds hx).1 hs hone (afterAll_code hclose)

end Lexer
end PhpGraft
