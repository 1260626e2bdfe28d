import PhpGraft.Proofs.Elision
import PhpGraft.Proofs.Junction
import PhpGraft.Proofs.Rereading
import PhpGraft.Proofs.Steps

/-!
A close tag ends a statement as a semicolon does, if the close tag stands within the code of the file:
in front of it the semicolon may be left out. The close tag behind all code ends no statement.
-/
namespace PhpGraft

open Lexer

theorem Lexer.Reads.closeTag_of_html {m : Mode} {x y : Token} {zs : List Token} {t : Text}
    (h : Reads m (x :: y :: zs) t) (hy : y.kind = .inlineHtml) : x.kind = .closeTag := by
  cases h with
  | @cons _ c u t k _ hs hr =>
    have hafter : m.after k = .html := by
      cases hm : m.after k with
      | html => rfl
      | code =>
        rw [hm] at hr
        exact absurd hy hr.head_code.2
    cases m with
    | code =>
      by_contra hne
      rw [after_code hne] at hafter
      cases hafter
    | html =>
      have hchain := (Reads.cons hs hr).precedes
      obtain ⟨-, hhtml, -⟩ := (List.isChain_cons_cons.1 hchain).1
      rcases (Reads.cons hs hr).head_html with hk | hk
      · cases (show k = .openTag from hk)
        cases hafter
      · cases hy.symm.trans (hhtml hk)

theorem TokenKind.Precedes.eq_openTag {a b : TokenKind} (h : a.Precedes b) (ha : a.isOutside = true)
    (hb : b.isOutside = false) : a = .openTag := by
  obtain ⟨hclose, hhtml, -⟩ := h
  cases a with
  | openTag => rfl
  | closeTag => rcases hclose rfl with rfl | rfl <;> cases hb
  | inlineHtml =>
    cases hhtml rfl
    cases hb
  | _ => cases ha

namespace Tokens

variable {ts : Tokens} {text : Text} {first stop i f y k : Nat} {block : Bool}

theorem not_statementEndFrom {stack : List (Bracket × Nat)} (hstack : stack ≠ []) (hik : i ≤ k)
    (hno : ∀ j, i ≤ j → j < k → ts.delimiter? j = none) (hk : ts.delimiter? k = some .semicolon) :
    ts.statementEndFrom first stop block stack i ≠ .ok (k + 1) := by
  intro h
  have hstop : k < stop := (statementEndFrom_bounds h).2
  rw [statementEndFrom_skip hik (Nat.le_of_lt hstop) hno, statementEndFrom.eq_def, if_pos hstop, hk] at h
  simp only [List.isEmpty_iff, if_neg hstack] at h
  exact Nat.lt_irrefl _ (statementEndFrom_bounds h).1

/-- What ends a statement ends it there, unless it stands in brackets that are closed behind it. -/
theorem exists_delimiter {q : Nat} {stack : List (Bracket × Nat)}
    (h : ts.statementEndFrom first stop block stack i = .ok (k + 1)) (hi : i ≤ q) (hqk : q < k)
    (hq : ts.delimiter? q = some .semicolon) (hk : ts.delimiter? k = some .semicolon) :
    ∃ j, q < j ∧ j < k ∧ ts.delimiter? j ≠ none := by
  by_contra! hno
  have hnext : ∀ {i}, i ≤ q → ts.delimiter? i ≠ some .semicolon → i + 1 ≤ q := by
    intro i hi hd
    refine Nat.lt_of_le_of_ne hi ?_
    rintro rfl
    exact hd hq
  fun_induction statementEndFrom ts first stop block stack i with
  | case1 _ i _ hd ih => exact ih h (hnext hi (by rw [hd]; rintro ⟨⟩))
  | case2 _ i _ _ hd ih => exact ih h (hnext hi (by rw [hd]; rintro ⟨⟩))
  | case3 => cases h
  | case4 =>
    have := Except.ok.inj h
    omega
  | case5 _ i _ _ hd _ _ _ ih => exact ih h (hnext hi (by rw [hd]; rintro ⟨⟩))
  | case6 =>
    have := Except.ok.inj h
    omega
  | case7 stack i _ _ hstack ih =>
    rcases Nat.lt_or_eq_of_le hi with hlt | rfl
    · exact ih h hlt
    · exact not_statementEndFrom (by simpa using hstack) hqk hno hk h
  | case8 => cases h
  | case9 => cases h

theorem exists_kind? {j : Nat} {b : TokenKind} (h : ts.kind? (j + 1) = some b) :
    ∃ a, ts.kind? j = some a :=
  ⟨_, kind?_eq_getElem (Nat.lt_of_succ_lt (lt_size_of_kind? h))⟩

theorem precedes {m : Mode} {j : Nat} {a b : TokenKind} (h : Reads m ts.toList text)
    (ha : ts.kind? j = some a) (hb : ts.kind? (j + 1) = some b) :
    a.Precedes b ∧ (b = .inlineHtml → a = .closeTag) := by
  obtain ⟨x, hx, rfl⟩ := Option.map_eq_some_iff.1 ha
  obtain ⟨y, hy, rfl⟩ := Option.map_eq_some_iff.1 hb
  rw [← Array.getElem?_toList] at hx hy
  obtain ⟨hlt, rfl⟩ := List.getElem?_eq_some_iff.1 hx
  obtain ⟨hlt', rfl⟩ := List.getElem?_eq_some_iff.1 hy
  rw [← List.take_append_drop j ts.toList, List.drop_eq_getElem_cons hlt,
    List.drop_eq_getElem_cons hlt'] at h
  have hr := h.of_append
  exact ⟨(List.isChain_cons_cons.1 hr.precedes).1, hr.closeTag_of_html⟩

/-- A close tag in front of the semicolon would have ended the statement, if nothing but white space
and what is outside of code stands between the two. -/
theorem kind?_ne_closeTag {q : Nat} {stack : List (Bracket × Nat)}
    (h : ts.statementEndFrom first stop block stack i = .ok (k + 1)) (hi : i ≤ q) (hqk : q < k)
    (hk : ts.isPunct k ';' = true)
    (hno : ∀ j, q < j → j < k → ∃ a, ts.kind? j = some a ∧ a.isCode = false ∧ a ≠ .closeTag) :
    ts.kind? q ≠ some .closeTag := by
  intro htag
  obtain ⟨j, hj, hjk, hd⟩ := exists_delimiter h hi hqk (delimiter?_of_closeTag htag)
    (delimiter?_of_semicolon hk)
  obtain ⟨a, ha, hcode, hclose⟩ := hno j hj hjk
  exact hd (delimiter?_of_kind ha hcode hclose)

theorem not_isOutside {stack : List (Bracket × Nat)} {kind : TokenKind} (h : Reads .html ts.toList text)
    (hend : ts.statementEndFrom first stop block stack i = .ok (k + 1)) (hi : i ≤ f)
    (hf : ts.isCode f = true) (hfy : f ≤ y) (hyk : y < k)
    (hwhite : ∀ j, y < j → j < k → ts.kind? j = some .whitespace) (hk : ts.isPunct k ';' = true)
    (hy : ts.kind? y = some kind) : kind.isOutside = false := by
  have hbehind : ∀ {j a}, f ≤ j → ts.kind? j = some a → a.isOutside = true → f < j := by
    intro j a hj ha hout
    refine Nat.lt_of_le_of_ne hj ?_
    rintro rfl
    rw [isCode, ha, Option.any_some, TokenKind.isCode, hout, Bool.not_true, Bool.and_false] at hf
    cases hf
  by_contra hout
  rw [Bool.not_eq_false] at hout
  have hlt := hbehind hfy hy hout
  obtain rfl : kind = .openTag := by
    rcases Nat.lt_or_eq_of_le (Nat.succ_le_of_lt hyk) with hlt | rfl
    · exact (precedes h hy (hwhite _ (Nat.lt_succ_self _) hlt)).1.eq_openTag hout rfl
    · have hpunct : ts.kind? (y + 1) = some .punct := by
        rw [kind?, isPunct_iff.1 hk]
        rfl
      exact (precedes h hy hpunct).1.eq_openTag hout rfl
  obtain ⟨y, rfl⟩ : ∃ z, y = z + 1 := ⟨y - 1, by omega⟩
  obtain ⟨a, ha⟩ := exists_kind? hy
  rcases (precedes h ha hy).1.2.2 rfl with rfl | rfl
  · have hlt' := hbehind (Nat.le_of_lt_succ hlt) ha rfl
    obtain ⟨y, rfl⟩ : ∃ z, y = z + 1 := ⟨y - 1, by omega⟩
    obtain ⟨a, hb⟩ := exists_kind? ha
    obtain rfl := (precedes h hb ha).2 rfl
    refine kind?_ne_closeTag hend (by omega) (by omega) hk (fun j hj hjk => ?_) hb
    rcases Nat.lt_trichotomy j (y + 1 + 1) with hjy | rfl | hjy
    · obtain rfl : j = y + 1 := by omega
      exact ⟨_, ha, rfl, by decide⟩
    · exact ⟨_, hy, rfl, by decide⟩
    · exact ⟨_, hwhite j hjy hjk, rfl, by decide⟩
  · refine kind?_ne_closeTag hend (by omega) (by omega) hk (fun j hj hjk => ?_) ha
    rcases Nat.lt_or_eq_of_le (Nat.succ_le_of_lt hj) with hjy | rfl
    · exact ⟨_, hwhite j hjy hjk, rfl, by decide⟩
    · exact ⟨_, hy, rfl, by decide⟩

theorem exists_front (hf : ts.isCode f = true) (hfk : f < k) (hk : k ≤ ts.size) :
    ∃ p, f ≤ p ∧ p < k ∧ ts.kind? p ≠ some .whitespace ∧
      ∀ j, p < j → j < k → ts.kind? j = some .whitespace := by
  induction hfk with
  | refl =>
    refine ⟨f, Nat.le_refl f, Nat.lt_succ_self f, fun hw => ?_, fun j hj hjk => by omega⟩
    rw [isCode, hw] at hf
    cases hf
  | @step k hfk ih =>
    by_cases hw : ts.kind? k = some .whitespace
    · obtain ⟨p, hfp, hpk, hp, hwhite⟩ := ih (Nat.le_of_succ_le hk)
      refine ⟨p, hfp, Nat.lt_succ_of_lt hpk, hp, fun j hj hjk => ?_⟩
      rcases Nat.lt_or_eq_of_le (Nat.le_of_lt_succ hjk) with hlt | rfl
      · exact hwhite j hj hlt
      · exact hw
    · exact ⟨k, Nat.le_of_succ_le hfk, Nat.lt_succ_self k, hw, fun j hj hjk => by omega⟩

theorem drop_eq_cons {j : Nat} {t : Token} (h : ts[j]? = some t) :
    ts.toList.drop j = t :: ts.toList.drop (j + 1) := by
  rw [← Array.getElem?_toList] at h
  obtain ⟨hlt, rfl⟩ := List.getElem?_eq_some_iff.1 h
  exact List.drop_eq_getElem_cons hlt

theorem toList_cut {a e : Nat} {t x : Token} (hak : a ≤ k) (hke : k < e) (ht : ts[k]? = some t)
    (hx : ts[e]? = some x) :
    ts.toList = ts.toList.take a ++ ((ts.extract a k).toList ++
      t :: ((ts.extract (k + 1) e).toList ++ x :: ts.toList.drop (e + 1))) ∧
    ts.toList.eraseIdx k = ts.toList.take a ++ ((ts.extract a k).toList ++
      ((ts.extract (k + 1) e).toList ++ x :: ts.toList.drop (e + 1))) := by
  constructor
  · rw [← drop_eq_cons hx, ← ts.drop_split hke, ← drop_eq_cons ht, ← ts.drop_split hak,
      List.take_append_drop]
  · rw [List.eraseIdx_eq_take_drop_succ, ← drop_eq_cons hx, ← ts.drop_split hke, ← List.append_assoc,
      Array.toList_extract, List.extract_eq_take_drop, ← List.take_add, Nat.add_sub_cancel' hak]

/-- A semicolon in front of the close tag at `e`, with white space between the two at most; the parser
does not look beyond the code at `f`. -/
structure SemicolonAt (ts : Tokens) (f k e : Nat) : Prop where
  firm : ts.Firm f
  brace : ts.isPunct f '\x7d' = false
  lt : f < k
  semicolon : ts.isPunct k ';' = true
  lt_tag : k < e
  white : ∀ j, k < j → j < e → ts.kind? j = some .whitespace
  tag : ts.kind? e = some .closeTag

namespace SemicolonAt

variable {e p : Nat} {M : List Token} (hs : ts.SemicolonAt f k e) (h : Reads .html ts.toList text)
include hs h

theorem elides (hpk : p < k) (hwhite : ∀ j, p < j → j < k → ts.kind? j = some .whitespace)
    (hM : ∀ t ∈ M, t.kind = .whitespace) : ts.Elides (ts.toList.take (p + 1)) M f k e := by
  have hsize := lt_size_of_kind? hs.tag
  have htag := hs.lt_tag
  have hlength : (ts.toList.take (p + 1)).length = p + 1 :=
    List.length_take_of_le (by rw [Array.length_toList]; omega)
  have hbehind : ∀ b, ts.kind? (e + 1) = some b → b = .inlineHtml ∨ b = .openTag := fun b hb =>
    (precedes h hs.tag hb).1.1 rfl
  refine ⟨hs.firm, hs.brace, hs.lt, hs.semicolon, ?_, htag, fun j hj => ?_, fun j hj hje hjk => ?_,
    hs.tag, ⟨fun hw => ?_, fun hw => ?_⟩, hM⟩
  · rwa [hlength]
  · rw [hlength] at hj
    rw [List.getElem?_take_of_lt hj, Array.getElem?_toList]
  · rw [hlength] at hj
    rcases Nat.lt_or_gt_of_ne hjk with hlt | hgt
    · exact hwhite j hj hlt
    · exact hs.white j hgt hje
  · rcases hbehind _ hw with hb | hb <;> cases hb
  · rcases hbehind _ hw with hb | hb <;> cases hb

theorem exists_elides {stack : List (Bracket × Nat)}
    (hend : ts.statementEndFrom first stop block stack i = .ok (k + 1)) (hi : i ≤ f) :
    ∃ P M, ts.Elides P M f k e ∧
      Reads .html (ts.exchange P M e).toList (Token.spell (ts.toList.eraseIdx k)) := by
  have hsize := lt_size_of_kind? hs.tag
  have htag := hs.lt_tag
  obtain ⟨x, hx, hkind⟩ := Option.map_eq_some_iff.1 hs.tag
  obtain ⟨p, hfp, hpk, hp, hwhite⟩ := exists_front hs.firm.code hs.lt (by omega)
  obtain ⟨hsplit, herase⟩ := toList_cut (show p + 1 ≤ k from hpk) htag (isPunct_iff.1 hs.semicolon) hx
  have hpsize : p < ts.size := by omega
  have hne : ts.toList.take (p + 1) ≠ [] := by
    rw [Ne, List.take_eq_nil_iff, not_or, ← List.length_eq_zero_iff, Array.length_toList]
    omega
  have hlast : ∀ y, (ts.toList.take (p + 1)).getLast? = some y →
      y.kind.isOutside = false ∧ y.kind ≠ .whitespace := by
    intro y hy
    have hget : ts.toList[p]? = some ts[p] := by rw [Array.getElem?_toList, Array.getElem?_eq_getElem]
    rw [List.getLast?_take, if_neg (Nat.succ_ne_zero p), Nat.add_sub_cancel, hget] at hy
    cases hy
    have hkind := kind?_eq_getElem hpsize
    exact ⟨not_isOutside h hend hi hs.firm.code hfp hpk hwhite hs.semicolon hkind,
      fun hw => hp (hkind.trans (congrArg some hw))⟩
  have hblank : ∀ t ∈ (ts.extract (p + 1) k).toList ++ (ts.extract (k + 1) e).toList,
      t.kind = .whitespace := by
    refine List.forall_mem_append.2 ⟨forall_extract fun j hj hjk t ht => ?_,
      forall_extract fun j hj hje t ht => ?_⟩
    · exact Option.some.inj ((congrArg (Option.map Token.kind) ht).symm.trans (hwhite j hj hjk))
    · exact Option.some.inj ((congrArg (Option.map Token.kind) ht).symm.trans (hs.white j hj hje))
  have hreads := (hsplit ▸ h).closeTag_junction hkind hblank hne hlast
  refine ⟨_, blank (Token.spell (ts.extract (p + 1) k).toList ++ Token.spell (ts.extract (k + 1) e).toList),
    hs.elides h hpk hwhite (kind_blank _), ?_⟩
  rw [exchange, List.toList_toArray, drop_eq_cons hx, herase, spell_append, spell_append, spell_append,
    ← List.append_assoc (Token.spell (ts.extract (p + 1) k).toList)]
  exact hreads

end SemicolonAt

end Tokens

/-- A semicolon in front of a close tag may be left out. -/
theorem Source.parse_eraseIdx {text : Text} {s : Source} {l : Tokens.Series} {stop i head f k e : Nat}
    (h : Source.parse text = .ok s) (ha : s.tokens.Arrives l stop i)
    (hs : s.tokens.StatementAt l stop i head (k + 1)) (hk : s.tokens.SemicolonAt f k e)
    (hf : head ≤ f) (he : e < stop) :
    ∃ s', Source.parse (Token.spell (s.tokens.toList.eraseIdx k)) = .ok s' ∧
      s'.tree.root.sketch = s.tree.root.sketch ∧
      s'.tree.root.declaredClasses = s.tree.root.declaredClasses := by
  obtain ⟨root, hfile, htree, hreads⟩ := Source.parse_eq h
  have hhead := Tokens.le_of_skipAttributes hs.attributes
  obtain ⟨P, M, hel, hreads'⟩ := hk.exists_elides hreads hs.ends (by omega)
  obtain ⟨root', hfile', hsketch⟩ := hel.file hfile ha hs hf he
  have hnumber : ∀ n : Node, (Tree.ofRoot n).root.sketch = n.sketch := fun n =>
    Node.sketch_of_bare (Node.bare_number 0 n)
  have hsame : (Tree.ofRoot root').root.sketch = s.tree.root.sketch := by
    rw [htree, hnumber, hnumber, hsketch]
  refine ⟨_, Source.parse_of_reads hreads' hfile', hsame, ?_⟩
  rw [← Node.declaredClasses_sketch, hsame, Node.declaredClasses_sketch]

/-- White space on either side of the semicolon, and another statement behind the tag. -/
theorem Source.parse_eraseIdx_inline : ∃ s s',
    Source.parse "<?php foo() ; ?>x<?php bar();" = .ok s ∧ s.tree.root.children.length = 2 ∧
      Source.parse "<?php foo()  ?>x<?php bar();" = .ok s' ∧ s'.tree.root.sketch = s.tree.root.sketch := by
  obtain ⟨ts, hts⟩ : ∃ ts : Tokens, ts =
      #[⟨.openTag, "<?php "⟩, ⟨.name, "foo"⟩, ⟨.punct, "("⟩, ⟨.punct, ")"⟩, ⟨.whitespace, " "⟩, ⟨.punct, ";"⟩,
        ⟨.whitespace, " "⟩, ⟨.closeTag, "?>"⟩, ⟨.inlineHtml, "x"⟩, ⟨.openTag, "<?php "⟩, ⟨.name, "bar"⟩,
        ⟨.punct, "("⟩, ⟨.punct, ")"⟩, ⟨.punct, ";"⟩] := ⟨_, rfl⟩
  have hrun : (Source.parse "<?php foo() ; ?>x<?php bar();").toOption.any (fun s =>
      s.tree.root.children.length = 2 ∧ s.tokens = ts) = true := by
    subst hts
    decide +kernel
  have hspan : ts.codeSpan? = some ⟨1, 14⟩ := by
    subst hts
    decide +kernel
  have hstatement : ts.StatementAt (.entries .file) 14 1 1 6 := by
    subst hts
    refine ⟨by decide +kernel, by decide +kernel, fun p hp => ?_⟩
    cases hp
    exact ⟨by rintro ⟨⟩, by decide +kernel, by decide +kernel⟩
  have hsemicolon : ts.SemicolonAt 1 5 7 := by
    subst hts
    refine ⟨⟨rfl, rfl, rfl⟩, rfl, by decide, rfl, by decide, fun j hj hj' => ?_, rfl⟩
    obtain rfl : j = 6 := by omega
    rfl
  have herase : Token.spell (ts.toList.eraseIdx 5) = "<?php foo()  ?>x<?php bar();".toList := by
    subst hts
    rfl
  obtain ⟨s, hs, hrun⟩ := Steps.exists_of_any hrun
  obtain ⟨hlen, rfl⟩ := of_decide_eq_true hrun
  obtain ⟨s', hs', hsketch, -⟩ := Source.parse_eraseIdx hs (.file hspan) hstatement hsemicolon
    (Nat.le_refl 1) (by decide)
  rw [herase] at hs'
  exact ⟨s, s', hs, hlen, hs', hsketch⟩

/-- The close tag behind all code does not take the place of the last semicolon. -/
theorem Source.not_parse_eraseIdx : ∃ s, Source.parse "<?php foo(); ?>" = .ok s ∧
    s.tokens.Arrives (.entries .file) 6 1 ∧ s.tokens.StatementAt (.entries .file) 6 1 1 5 ∧
    s.tokens.SemicolonAt 1 4 6 ∧ Token.spell (s.tokens.toList.eraseIdx 4) = "<?php foo() ?>".toList ∧
    ∀ s', Source.parse "<?php foo() ?>" ≠ .ok s' := by
  obtain ⟨ts, hts⟩ : ∃ ts : Tokens, ts =
      #[⟨.openTag, "<?php "⟩, ⟨.name, "foo"⟩, ⟨.punct, "("⟩, ⟨.punct, ")"⟩, ⟨.punct, ";"⟩, ⟨.whitespace, " "⟩,
        ⟨.closeTag, "?>"⟩] := ⟨_, rfl⟩
  have hrun : (Source.parse "<?php foo(); ?>").toOption.any (fun s => s.tokens = ts) = true := by
    subst hts
    decide +kernel
  have hspan : ts.codeSpan? = some ⟨1, 6⟩ := by
    subst hts
    decide +kernel
  have hstatement : ts.StatementAt (.entries .file) 6 1 1 5 := by
    subst hts
    refine ⟨by decide +kernel, by decide +kernel, fun p hp => ?_⟩
    cases hp
    exact ⟨by rintro ⟨⟩, by decide +kernel, by decide +kernel⟩
  have hsemicolon : ts.SemicolonAt 1 4 6 := by
    subst hts
    refine ⟨⟨rfl, rfl, rfl⟩, rfl, by decide, rfl, by decide, fun j hj hj' => ?_, rfl⟩
    obtain rfl : j = 5 := by omega
    rfl
  have hfails : (Source.parse "<?php foo() ?>").toOption = none := by decide +kernel
  obtain ⟨s, hs, hrun⟩ := Steps.exists_of_any hrun
  obtain rfl := of_decide_eq_true hrun
  refine ⟨s, hs, .file hspan, hstatement, hsemicolon, ?_, fun s' hs' => ?_⟩
  · rw [hts]
    rfl
  · rw [hs'] at hfails
    cases hfails

end PhpGraft
