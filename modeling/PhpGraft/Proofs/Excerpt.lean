import PhpGraft.Proofs.Cutting
import PhpGraft.Proofs.Tiling

/-!
Lexing is local. Tokens that stand next to each other are read again from their text alone, if
reading starts in code and the last of them does not depend on what it was cut from: text outside
of code ends in front of an open tag, and a `#` by itself is one because a `[` follows.
-/
namespace PhpGraft

/-- What begins code and what ends it. -/
def TokenKind.isTag (k : TokenKind) : Bool := k == openTag || k == closeTag

namespace Lexer

variable {c : Char} {u w r t : Text} {k : TokenKind} {m : Mode} {p : Char → Bool}

/-! Each rule counts the same with less behind its token. -/

theorem any_head_cut (h : (w ++ r).head?.any p = false) : w.head?.any p = false := by
  cases w with
  | nil => rfl
  | cons => exact h

theorem startsWith_cut {s : Text} (h : w.startsWith s = true) : (w ++ r).startsWith s = true :=
  List.isPrefixOf_iff_prefix.2 ((List.isPrefixOf_iff_prefix.1 h).trans (List.prefix_append w r))

theorem startsName_cut (h : startsName w = true) : startsName (w ++ r) = true := by
  cases w with
  | nil => cases h
  | cons => exact h

theorem takeWhile_cut (h : ((u ++ (w ++ r)).takeWhile p).length = u.length) :
    ((u ++ w).takeWhile p).length = u.length := by
  induction u with
  | nil =>
    cases w with
    | nil => rfl
    | cons =>
      rw [List.nil_append, List.cons_append, List.takeWhile_cons] at h
      rw [List.nil_append, List.takeWhile_cons]
      split at h
      · cases h
      · rw [if_neg ‹_›]
  | cons d u ih =>
    rw [List.cons_append, List.takeWhile_cons] at h ⊢
    split at h
    · rw [if_pos ‹_›, List.length_cons, ih (Nat.succ.inj h), List.length_cons]
    · cases h

theorem lineBreakSize_cut (h : lineBreakSize (u ++ (w ++ r)) = u.length) :
    lineBreakSize (u ++ w) = u.length := by
  match u, w with
  | [], [] => rfl
  | [], [d] => simp only [List.nil_append, List.cons_append, lineBreakSize] at h ⊢; grind
  | [], d :: e :: w => simp only [List.nil_append, List.cons_append, lineBreakSize] at h ⊢; grind
  | [d], w => simp only [List.nil_append, List.cons_append, lineBreakSize] at h ⊢; grind
  | d :: e :: u, w => simp only [List.cons_append, lineBreakSize] at h ⊢; grind

/-- Numbers and names alike: characters with property `p`, and `q` in front of one with property
`f`. -/
theorem wordSize_cut {size : Text → Nat} {q : Char} {f : Char → Bool} (hnil : size [] = 0)
    (hcons : ∀ c t, size (c :: t) =
      if p c || (c == q && t.head?.any f) then size t + 1 else 0)
    (hf : ∀ c, f c = true → p c = true) (h : size (u ++ (w ++ r)) = u.length) :
    size (u ++ w) = u.length := by
  induction u with
  | nil =>
    cases w with
    | nil => exact hnil
    | cons d w =>
      rw [List.nil_append, List.cons_append, hcons] at h
      rw [List.nil_append, hcons, if_neg]
      · rfl
      · split at h
        · cases h
        · rename_i hstop
          cases w <;> grind
  | cons d u ih =>
    rw [List.cons_append, hcons] at h ⊢
    split at h
    · have hsize := Nat.succ.inj h
      rw [ih hsize, if_pos, List.length_cons]
      cases u with
      | cons => assumption
      | nil =>
        -- Behind `q` the next character belongs to the word as well, so it is not cut off here.
        rename_i hd
        cases hw : w ++ r with
        | nil => grind
        | cons e v =>
          rw [List.nil_append, hw, hcons] at hsize
          grind
    · cases h

theorem numberSize_cut (h : numberSize (u ++ (w ++ r)) = u.length) :
    numberSize (u ++ w) = u.length :=
  wordSize_cut rfl (fun _ _ => rfl)
    (fun _ hc => Bool.or_eq_true_iff.2 (.inl (Bool.or_eq_true_iff.2 (.inr hc)))) h

theorem nameSize_cut (h : nameSize (u ++ (w ++ r)) = u.length) : nameSize (u ++ w) = u.length :=
  wordSize_cut rfl (fun _ _ => rfl) (fun _ hc => Bool.or_eq_true_iff.2 (.inl hc)) h

theorem heredocSize_cut (h : heredocSize (u ++ (w ++ r)) = .ok u.length) :
    heredocSize (u ++ w) = .ok u.length := by
  have hname := (heredocSize_last h).2
  exact heredocSize_append h ((any_head_cut hname).trans hname.symm)

/-- A name that starts behind a `$` or a backslash belongs to the same token. -/
theorem startsName_of_size (size : Text → Nat)
    (hcons : ∀ c t, isNameChar c = true → size (c :: t) ≠ 0)
    (hname : startsName (u ++ (w ++ r)) = true) (h : u.length = size (u ++ (w ++ r))) :
    startsName (u ++ w) = true := by
  cases u with
  | cons => exact hname
  | nil =>
    rw [List.nil_append] at hname h
    cases hw : w ++ r with
    | nil =>
      rw [hw] at hname
      cases hname
    | cons d t =>
      rw [hw] at hname h
      exact absurd h.symm (hcons d t (Bool.or_eq_true_iff.2 (.inl hname)))

/-- A rule of code counts the same when the text is cut behind its token, unless a comment then
goes on or a `#` has lost its bracket. -/
theorem Rule.excerpt (h : Rule c (u ++ (w ++ r)) k u.length) (hl : k = .lineComment → EndsLine w)
    (hp : k = .punct → c = '#' → w ≠ []) : Rule c (u ++ w) k u.length := by
  have hcomment := fun hk => h.comment_append hk w
  generalize hn : u.length = n at h
  cases h with
  | closeTag hc =>
    cases u with
    | nil =>
      rw [List.length_nil] at hn
      omega
    | cons d u =>
      have hsize : lineBreakSize (u ++ w) = u.length := by
        refine lineBreakSize_cut (r := r) ?_
        rw [List.cons_append, List.drop_succ_cons, List.drop_zero, List.length_cons] at hn
        omega
      have hrule := Rule.closeTag (t := d :: u ++ w) hc
      rw [List.cons_append, List.drop_succ_cons, List.drop_zero, hsize, Nat.add_comm] at hrule
      rw [← hn]
      exact hrule
  | whitespace hc =>
    rw [← hn, ← takeWhile_cut hn.symm]
    exact .whitespace hc
  | comment hc hm =>
    rw [← hn]
    refine hcomment ?_
    split
    · exact .inr rfl
    · exact .inl rfl
  | lineComment hc =>
    have hsize := lineCommentSize_append hn.symm (hl rfl)
    rw [← hn, ← hsize]
    refine .lineComment (hc.imp (fun hc => ⟨hc.1, ?_⟩) fun hc => ⟨hc.1, ?_⟩)
    · cases u with
      | cons => exact hc.2
      | nil =>
        obtain ⟨v, hv⟩ := List.isPrefixOf_iff_prefix.1 hc.2
        rw [← hv] at hn
        cases hn
    · rw [Bool.not_eq_true', ← Bool.not_eq_true] at hc ⊢
      refine fun hs => hc.2 ?_
      rw [← List.append_assoc]
      exact startsWith_cut hs
  | var hc =>
    have hname := startsName_of_size (fun t => (t.takeWhile isNameChar).length)
      (fun d t hd => by rw [List.takeWhile_cons_of_pos hd]; exact Nat.succ_ne_zero _) hc.2 hn
    rw [← hn, ← takeWhile_cut hn.symm]
    exact .var ⟨hc.1, hname⟩
  | heredoc hc hm =>
    rename_i m
    match u with
    | [] =>
      rw [List.length_nil] at hn
      omega
    | [_] =>
      rw [List.length_singleton] at hn
      omega
    | d :: e :: u =>
      obtain rfl : u.length = m := by
        simp only [List.length_cons] at hn
        omega
      exact .heredoc (t := d :: e :: u ++ w) hc (heredocSize_cut hm)
  | string hc hm =>
    subst hn
    exact .string hc (quotedSize?_append hm w)
  | number hc =>
    rw [← hn, ← numberSize_cut hn.symm]
    exact .number hc
  | name hc =>
    rw [← hn, ← nameSize_cut hn.symm]
    refine .name (hc.imp_right fun hc =>
      ⟨hc.1, startsName_of_size nameSize (fun d t hd => ?_) hc.2 hn⟩)
    rw [nameSize, if_pos (Bool.or_eq_true_iff.2 (.inl hd))]
    exact Nat.succ_ne_zero _
  | punct h₁ h₂ h₃ h₄ h₅ h₆ h₇ h₈ h₉ =>
    obtain rfl := List.length_eq_zero_iff.1 hn
    rw [List.nil_append] at *
    refine .punct (fun h => h₁ (h.imp_right startsWith_cut)) h₂
      (fun h => h₃ (h.imp_right startsWith_cut)) (fun h => h₄ ?_)
      (fun h => h₅ (h.imp_right startsName_cut)) (fun h => h₆ (h.imp_right startsWith_cut)) h₇
      h₈ fun h => h₉ (h.imp_right fun h => h.imp_right startsName_cut)
    refine h.imp (fun h => h.imp_right startsWith_cut) fun h => ⟨h.1, ?_⟩
    cases w with
    | nil => exact absurd rfl (hp rfl h.1)
    | cons d w => exact h.2

/-! Outside of code. -/

/-- The two forms of an open tag, by what stands behind its `<`. -/
theorem openTag?_cases {n : Nat} (h : openTag? c t = some n) : c = '<' ∧
    ((n = 2 ∧ ∃ v, t = '?' :: '=' :: v) ∨
      ∃ a v, t = a ++ v ∧ Text.lower a = "?php" ∧
        ((n = 4 ∧ v = []) ∨ (n = 6 ∧ ∃ s, v = '\r' :: '\n' :: s) ∨
          (n = 5 ∧ ∃ d s, v = d :: s ∧ isSpace d = true ∧ ∀ s', d = '\r' → s ≠ '\n' :: s'))) := by
  by_cases hc : c = '<'
  · subst hc
    refine ⟨rfl, ?_⟩
    by_cases he : ∃ v, t = '?' :: '=' :: v
    · obtain ⟨v, rfl⟩ := he
      exact .inl ⟨(Option.some.inj h).symm, v, rfl⟩
    · rw [openTag?_of_ne fun s hs => he ⟨s, hs⟩] at h
      split at h
      · refine .inr ⟨t.take 4, t.drop 4, (List.take_append_drop 4 t).symm, ‹_›, ?_⟩
        grind
      · cases h
  · rw [openTag?] at h <;> first | cases h | (intros; contradiction)

theorem length_of_lower {a b : Text} (h : Text.lower a = b) : a.length = b.length := by
  rw [← h, Text.lower, List.length_map]

theorem openTag?_php {a : Text} (ha : Text.lower a = "?php") (v : Text) :
    openTag? '<' (a ++ v) =
      match v with
      | [] => some 4
      | '\r' :: '\n' :: _ => some 6
      | c :: _ => if isSpace c then some 5 else none := by
  have hlen : a.length = 4 := length_of_lower ha
  have hne : ∀ s, a ++ v ≠ '?' :: '=' :: s := by
    rintro s hs
    match a, hlen with
    | [_, b, _, _], _ =>
      obtain ⟨-, rfl, -⟩ : _ ∧ b = '=' ∧ _ := by simpa using hs
      simp [Text.lower] at ha
  rw [openTag?_of_ne hne, List.take_left' hlen, List.drop_left' hlen, if_pos ha]
  rfl

theorem openTag?_space {a : Text} {d : Char} (ha : Text.lower a = "?php") (hd : isSpace d = true)
    (s : Text) : (openTag? '<' (a ++ d :: s)).isSome = true := by
  rw [openTag?_php ha]
  split
  · contradiction
  · rfl
  · rename_i heq
    rw [← (List.cons.inj heq).1, if_pos hd]
    rfl

/-- With more behind it an open tag is still one, unless its `<?php` was the end of the text. -/
theorem openTag?_cut (hw : '<' ∈ w) (h : (openTag? c w).isSome = true) :
    (openTag? c (w ++ r)).isSome = true := by
  obtain ⟨n, hn⟩ := Option.isSome_iff_exists.1 h
  obtain ⟨rfl, ⟨-, v, rfl⟩ | ⟨a, v, rfl, ha, hv⟩⟩ := openTag?_cases hn
  · rfl
  · rw [List.append_assoc]
    rcases hv with ⟨-, rfl⟩ | ⟨-, s, rfl⟩ | ⟨-, d, s, rfl, hd, -⟩
    · have hmem : ('<').toLower ∈ ("?php" : String).toList := by
        rw [← ha]
        exact List.mem_map_of_mem (List.append_nil a ▸ hw)
      exact absurd hmem (by decide)
    · exact openTag?_space ha rfl _
    · exact openTag?_space ha hd _

/-- Of what follows an open tag, only the first character matters. -/
theorem openTag?_congr (h : openTag? c (u ++ r) = some u.length)
    (hr : t.head? = r.head? ∨ t = []) : openTag? c (u ++ t) = some u.length := by
  obtain ⟨rfl, ⟨hu, v, hv⟩ | ⟨a, v, ht, ha, hv⟩⟩ := openTag?_cases h
  · match u, hu with
    | [d, e], _ =>
      obtain ⟨rfl, rfl, -⟩ : d = '?' ∧ e = '=' ∧ _ := by simpa using hv
      rfl
  · have hlen : a.length = 4 := length_of_lower ha
    obtain ⟨b, rfl⟩ : a <+: u := by
      refine List.prefix_of_prefix_length_le ⟨v, ht.symm⟩ (List.prefix_append _ _) ?_
      omega
    obtain rfl : b ++ r = v := by
      rw [List.append_assoc] at ht
      exact List.append_cancel_left ht
    rw [List.length_append, hlen] at hv ⊢
    rw [List.append_assoc, openTag?_php ha]
    rcases hv with ⟨-, hv⟩ | ⟨hb, s, hv⟩ | ⟨hb, d, s, hv, hd, hs⟩
    · obtain ⟨rfl, rfl⟩ := List.append_eq_nil_iff.1 hv
      rw [List.head?_eq_none_iff.1 (hr.elim id (congrArg List.head?))]
      rfl
    · obtain ⟨d, e, rfl⟩ := List.length_eq_two.1 (show b.length = 2 by omega)
      obtain ⟨rfl, rfl, -⟩ : d = '\r' ∧ e = '\n' ∧ _ := by simpa using hv
      rfl
    · obtain ⟨e, rfl⟩ := List.length_eq_one_iff.1 (show b.length = 1 by omega)
      obtain ⟨rfl, rfl⟩ := List.cons.inj hv
      have hbreak : ∀ s, e = '\r' → t ≠ '\n' :: s := by
        rintro s he rfl
        rcases hr with hr | hr
        · obtain ⟨v, rfl⟩ := List.head?_eq_some_iff.1 hr.symm
          exact hs v he rfl
        · cases hr
      rw [List.cons_append, List.nil_append]
      split
      · contradiction
      · rename_i heq
        obtain ⟨he, ht⟩ := List.cons.inj heq
        exact absurd ht (hbreak _ he)
      · rename_i heq
        rw [← (List.cons.inj heq).1, if_pos hd]
        rfl

theorem htmlSize_excerpt (hw : '<' ∈ w) (hopen : htmlSize w = 0)
    (h : htmlSize (u ++ (w ++ r)) = u.length) : htmlSize (u ++ w) = u.length := by
  induction u with
  | nil => exact hopen
  | cons d u ih =>
    rw [List.cons_append, htmlSize] at h ⊢
    split at h
    · cases h
    · rename_i hnone
      rw [ih (Nat.succ.inj h), if_neg, List.length_cons]
      refine fun hsome => hnone ?_
      rw [← List.append_assoc]
      exact openTag?_cut (List.mem_append_right u hw) hsome

/-- A rule outside of code, where text is cut in front of an open tag or behind it only. -/
theorem scanHtml_excerpt (h : scanHtml c (u ++ (w ++ r)) = (k, u.length))
    (hk : k = .inlineHtml → '<' ∈ w ∧ htmlSize w = 0) : scanHtml c (u ++ w) = (k, u.length) := by
  rcases kind_scanHtml c (u ++ (w ++ r)) with ⟨n, hopen, he⟩ | ⟨hnone, he⟩
  · obtain ⟨rfl, rfl⟩ := Prod.mk.inj (h.symm.trans he)
    rw [scanHtml, openTag?_congr hopen (by cases w <;> simp)]
  · obtain ⟨rfl, hsize⟩ := Prod.mk.inj (h.symm.trans he)
    obtain ⟨hw, hzero⟩ := hk rfl
    have hnone' : openTag? c (u ++ w) = none := by
      refine Option.eq_none_iff_forall_ne_some.2 fun n hn => ?_
      have hsome := openTag?_cut (r := r) (List.mem_append_right u hw) (by rw [hn]; rfl)
      rw [List.append_assoc, hnone] at hsome
      cases hsome
    rw [scanHtml, hnone', htmlSize_excerpt hw hzero hsize.symm]

/-! The run. -/

variable {xs zs : List Token} {x : Token}

theorem spell_ne_nil (h : Reads m (x :: xs) t) : Token.spell (x :: xs) ≠ [] := by
  rw [h.spell]
  cases h
  exact List.cons_ne_nil _ _

theorem Rule.punct_size {n : Nat} (h : Rule c t .punct n) : n = 0 := by
  generalize hk : TokenKind.punct = k at h
  cases h with
  | punct => rfl
  | comment => split at hk <;> cases hk
  | _ => cases hk

/-- A close tag that ends a comment is not cut. -/
theorem Reads.endsLine (h : Reads .code (xs ++ zs) t) (hend : EndsLine t) :
    EndsLine (Token.spell xs) := by
  cases xs with
  | nil => exact .inl rfl
  | cons x xs =>
    cases h with
    | @cons _ c u t k _ hs hr =>
      rcases hend with h | ⟨s, h⟩ | ⟨s, h⟩
      · cases h
      · obtain ⟨rfl, -⟩ := List.cons.inj h
        exact .inr (.inl ⟨_, rfl⟩)
      · obtain ⟨rfl, ht⟩ := List.cons.inj h
        cases u with
        | cons d u =>
          obtain ⟨rfl, -⟩ := List.cons.inj ht
          exact .inr (.inr ⟨_, rfl⟩)
        | nil =>
          rw [List.nil_append] at ht hs
          subst ht
          have hzero : 1 + lineBreakSize s = 0 := congrArg Prod.snd (Except.ok.inj hs)
          omega

/-- Text from an open tag on. -/
theorem Reads.opens (h : Reads .html (x :: xs) t) (hx : x.kind = .openTag) :
    '<' ∈ t ∧ htmlSize t = 0 := by
  cases h with
  | @cons _ c u t k _ hs hr =>
    obtain rfl : k = .openTag := hx
    rcases kind_scanHtml c (u ++ t) with ⟨n, hopen, -⟩ | ⟨-, he⟩
    · obtain ⟨rfl, -⟩ := openTag?_cases hopen
      refine ⟨List.mem_cons_self, ?_⟩
      rw [htmlSize, hopen]
      rfl
    · cases (Except.ok.inj hs).symm.trans he

/-- Tokens are read from their text alone, whatever stood behind them. -/
theorem Reads.excerpt (h : Reads m (xs ++ zs) t)
    (hlast : ∀ x, xs.getLast? = some x → x.kind ≠ .inlineHtml ∧ x ≠ ⟨.punct, "#"⟩) :
    Reads m xs (Token.spell xs) := by
  induction xs generalizing m t with
  | nil => exact .nil
  | cons x xs ih =>
    have hchain := h.precedes
    cases h with
    | @cons _ c u t k _ hs hr =>
      have ht : t = Token.spell xs ++ Token.spell zs := hr.spell.symm.trans (spell_append xs zs)
      have hrest := ih hr fun y hy => by
        refine hlast y ?_
        rw [List.getLast?_cons, hy]
        rfl
      rw [ht] at hs
      refine .cons ?_ hrest
      cases m with
      | html =>
        refine congrArg Except.ok (scanHtml_excerpt (Except.ok.inj hs) fun hk => ?_)
        subst hk
        cases xs with
        | nil => exact absurd rfl (hlast _ rfl).1
        | cons y ys => exact hrest.opens ((List.isChain_cons_cons.1 hchain).1.2.1 rfl)
      | code =>
        refine ((rule_of_scanCode hs).excerpt (fun hk => ?_) fun hk hc => ?_).scanCode_eq
        · subst hk
          exact hr.endsLine (ht ▸ (rule_of_scanCode hs).endsLine rfl)
        · cases xs with
          | cons y ys => exact spell_ne_nil hrest
          | nil =>
            subst hk hc
            obtain rfl := List.length_eq_zero_iff.1 (rule_of_scanCode hs).punct_size
            exact absurd rfl (hlast _ rfl).2

/-- Whether code goes on is settled by the last tag. -/
theorem afterAll_tags (ts : List Token) : Mode.code.afterAll ts = .code ↔
    ∀ x, (ts.filter (·.kind.isTag)).getLast? = some x → x.kind = .openTag := by
  induction ts using List.reverseRecOn with
  | nil => exact iff_of_true rfl nofun
  | append_singleton ts x ih =>
    have hafter : Mode.code.afterAll (ts ++ [x]) = (Mode.code.afterAll ts).after x.kind :=
      List.foldl_append
    rw [hafter, List.filter_append]
    by_cases hx : x.kind.isTag = true
    · have hkind : x.kind = .openTag ∨ x.kind = .closeTag := by simpa [TokenKind.isTag] using hx
      have htag : (Mode.code.afterAll ts).after x.kind = .code ↔ x.kind = .openTag := by
        rcases hkind with hk | hk <;> simp [hk, Mode.after]
      rw [List.filter_cons_of_pos (p := fun x : Token => x.kind.isTag) hx, List.filter_nil,
        List.getLast?_concat, htag]
      exact ⟨fun h y hy => Option.some.inj hy ▸ h, fun h => h x rfl⟩
    · rw [List.filter_cons_of_neg (p := fun x : Token => x.kind.isTag) hx, List.filter_nil,
        List.append_nil, ← ih]
      cases hk : x.kind <;> rw [hk] at hx <;> first | rfl | exact absurd rfl hx

end Lexer

/-! Marks. -/

open Lexer

def Mark.shift (n : Nat) (k : Mark) : Mark := ⟨k.kind, n + k.start, n + k.stop⟩

namespace Token

theorem marks_append (pos : Nat) (xs ys : List Token) :
    marks pos (xs ++ ys) = marks pos xs ++ marks (pos + (spell xs).byteSize) ys := by
  induction xs generalizing pos with
  | nil => rfl
  | cons x xs ih =>
    have hspell : spell (x :: xs) = x.text ++ spell xs := rfl
    rw [List.cons_append, marks_cons, ih, marks_cons, List.cons_append, hspell,
      Text.byteSize_append, Nat.add_assoc]

theorem marks_add (n pos : Nat) (ts : List Token) :
    marks (n + pos) ts = (marks pos ts).map (Mark.shift n) := by
  induction ts generalizing pos with
  | nil => rfl
  | cons x ts ih =>
    rw [marks_cons, marks_cons, List.map_cons, ← ih, Mark.shift, Nat.add_assoc]

theorem length_marks (pos : Nat) (ts : List Token) : (marks pos ts).length = ts.length := by
  rw [← List.length_map (f := Mark.kind), map_kind_marks, List.length_map]

end Token

variable {s r : Text} {ts as bs cs : List Token} {i j : Nat}

theorem Mark.text?_spell (k : TokenKind) (h : s = Token.spell as ++ (Token.spell bs ++ r)) :
    Mark.text? s ⟨k, (Token.spell as).byteSize,
      (Token.spell as).byteSize + (Token.spell bs).byteSize⟩ = some (Token.spell bs) := by
  rw [Mark.text?, h, Text.dropBytes?_append, Option.bind_some, Nat.add_sub_cancel_left,
    Text.takeBytes?_append]

/-- From the first of these marks to the last stands the text of their tokens. -/
theorem Token.ends_marks (hs : s = spell as ++ (spell bs ++ r)) (hne : bs ≠ []) :
    ∃ first last, (marks (spell as).byteSize bs).head? = some first ∧
      (marks (spell as).byteSize bs).getLast? = some last ∧ first.start = (spell as).byteSize ∧
      Mark.text? s ⟨first.kind, first.start, last.stop⟩ = some (spell bs) := by
  obtain ⟨b, bs', rfl⟩ := List.exists_cons_of_ne_nil hne
  have hstop := getLast?_marks (spell as).byteSize (b :: bs')
  cases hlast : (marks (spell as).byteSize (b :: bs')).getLast? with
  | none => cases List.getLast?_eq_none_iff.1 hlast
  | some last =>
    rw [hlast] at hstop
    refine ⟨_, last, rfl, rfl, rfl, ?_⟩
    rw [show last.stop = _ from hstop]
    exact Mark.text?_spell b.kind hs

/-- Lexing is local: where code goes on, the text of the tokens from `i` up to `j` lexes to just
these, counted from the first of them. -/
theorem lexCode_excerpt (h : lexCode s = .ok ts) (hij : i < j) (hj : j ≤ ts.length)
    (hcode : ∀ x, ((ts.take i).filter (·.kind.isTag)).getLast? = some x → x.kind = .openTag)
    (hlast : ∀ x, ts[j - 1]? = some x → x.kind ≠ .inlineHtml ∧ x ≠ ⟨.punct, "#"⟩) :
    ∃ ks first last t us, Cursor.lexCode s = some (.ok ks) ∧ ks[i]? = some first ∧
      ks[j - 1]? = some last ∧ Mark.text? s ⟨first.kind, first.start, last.stop⟩ = some t ∧
      lexCode t = .ok (ts.extract i j) ∧ Cursor.lexCode t = some (.ok us) ∧
      ks.extract i j = us.map (Mark.shift first.start) := by
  have hcursor := (lossless .code s).agrees
  rw [show Lexer.run .code .start s = .ok ts from h] at hcursor
  have hsplit : ts.take i ++ (ts.extract i j ++ ts.drop j) = ts := by
    have hdrop : ts.drop j = (ts.drop i).drop (j - i) := by
      rw [List.drop_drop, Nat.add_sub_cancel' (Nat.le_of_lt hij)]
    rw [List.extract_eq_take_drop, hdrop, List.take_append_drop, List.take_append_drop]
  have hlen : ∀ {α : Type} (l : List α), l.length = ts.length → (l.extract i j).length = j - i := by
    intro α l hl
    rw [List.extract_eq_take_drop, List.length_take, List.length_drop]
    omega
  have hget : ∀ {α : Type} (l : List α), l.length = ts.length →
      (l.extract i j).head? = l[i]? ∧ (l.extract i j).getLast? = l[j - 1]? := by
    intro α l hl
    rw [List.head?_eq_getElem?, List.getLast?_eq_getElem?, hlen l hl, List.extract_eq_take_drop,
      List.getElem?_take_of_lt (by omega), List.getElem?_take_of_lt (by omega), List.getElem?_drop,
      List.getElem?_drop]
    exact ⟨rfl, congrArg (l[·]?) (by omega)⟩
  have hreads := reads_of_run h
  rw [← hsplit] at hreads
  have hexcerpt : Reads .code (ts.extract i j) (Token.spell (ts.extract i j)) := by
    have hpart := hreads.of_append
    rw [(afterAll_tags _).2 hcode] at hpart
    exact hpart.excerpt fun x hx => hlast x ((hget ts rfl).2.symm.trans hx)
  have hmarks : (Token.marks 0 ts).extract i j =
      Token.marks (Token.spell (ts.take i)).byteSize (ts.extract i j) := by
    have hmarks := Token.marks_append 0 (ts.take i) (ts.extract i j ++ ts.drop j)
    rw [hsplit, Token.marks_append, Nat.zero_add] at hmarks
    rw [hmarks, List.extract_eq_take_drop, List.drop_left', List.take_left']
    · rw [Token.length_marks, hlen ts rfl]
    · rw [Token.length_marks, List.length_take]
      omega
  have hspell : s = Token.spell (ts.take i) ++
      (Token.spell (ts.extract i j) ++ Token.spell (ts.drop j)) := by
    rw [← spell_append, ← spell_append]
    exact hreads.spell.symm
  obtain ⟨first, last, hfirst, hend, hstart, htext⟩ :=
    Token.ends_marks hspell (List.length_pos_iff.1 (by rw [hlen ts rfl]; omega))
  obtain ⟨hhead, hgetLast⟩ := hget _ (Token.length_marks 0 ts)
  rw [hmarks] at hhead hgetLast
  refine ⟨_, first, last, _, Token.marks 0 (ts.extract i j), hcursor, hhead.symm.trans hfirst,
    hgetLast.symm.trans hend, htext, hexcerpt.run .start, ?_, ?_⟩
  · have hagrees := (lossless .code (Token.spell (ts.extract i j))).agrees
    rw [hexcerpt.run] at hagrees
    exact hagrees
  · rw [hmarks, hstart, ← Token.marks_add, Nat.add_zero]

/-- Two characters of two bytes, a heredoc, and a comment that a close tag ends. -/
theorem lexCode_excerpt_comment : ∃ ks first last t us,
    Cursor.lexCode "f();?>\nä<?php $x = <<<E\n E; // é?>b" = some (.ok ks) ∧ ks[7]? = some first ∧
      ks[15 - 1]? = some last ∧
      Mark.text? "f();?>\nä<?php $x = <<<E\n E; // é?>b" ⟨first.kind, first.start, last.stop⟩ =
        some t ∧
      lexCode t = .ok [⟨.var, "$x"⟩, ⟨.whitespace, " "⟩, ⟨.punct, "="⟩, ⟨.whitespace, " "⟩,
        ⟨.heredoc, "<<<E\n E"⟩, ⟨.punct, ";"⟩, ⟨.whitespace, " "⟩, ⟨.lineComment, "// é"⟩] ∧
      Cursor.lexCode t = some (.ok us) ∧ ks.extract 7 15 = us.map (Mark.shift first.start) := by
  have hlex : (lexCode "f();?>\nä<?php $x = <<<E\n E; // é?>b").toOption = some [⟨.name, "f"⟩,
      ⟨.punct, "("⟩, ⟨.punct, ")"⟩, ⟨.punct, ";"⟩, ⟨.closeTag, "?>\n"⟩, ⟨.inlineHtml, "ä"⟩,
      ⟨.openTag, "<?php "⟩, ⟨.var, "$x"⟩, ⟨.whitespace, " "⟩, ⟨.punct, "="⟩, ⟨.whitespace, " "⟩,
      ⟨.heredoc, "<<<E\n E"⟩, ⟨.punct, ";"⟩, ⟨.whitespace, " "⟩, ⟨.lineComment, "// é"⟩,
      ⟨.closeTag, "?>"⟩, ⟨.inlineHtml, "b"⟩] := by
    decide +kernel
  cases h : lexCode "f();?>\nä<?php $x = <<<E\n E; // é?>b" with
  | error => rw [h] at hlex; cases hlex
  | ok ts =>
    rw [h] at hlex
    obtain rfl := Option.some.inj hlex
    exact lexCode_excerpt h (by decide) (by decide) (fun _ hx => by cases hx; rfl)
      (fun _ hx => by cases hx; decide)

end PhpGraft
