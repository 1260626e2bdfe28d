import Mathlib.Data.List.Chain
import PhpGraft.Proofs.Cursor
import PhpGraft.Proofs.Steps

/-!
Lexing is lossless on the bytes of a text. The cursor always comes to an end without standing
inside a character, it finds the tokens that are found character by character, and these cover the
text without gap or overlap.
-/
namespace PhpGraft

open Text Lexer

variable {s t w r : Text} {c : Char} {m : Mode} {ts : List Token} {pos : Nat}

/-- Tokens with their bytes, when the first of them begins at byte `start`. -/
def Token.marks (start : Nat) (ts : List Token) : List Mark :=
  List.zipWith (fun t b => ⟨t.kind, b.1, b.2⟩) ts (Token.byteSpans start ts)

def Mark.text? (s : Text) (k : Mark) : Option Text :=
  (s.dropBytes? k.start).bind (Text.takeBytes? (k.stop - k.start))

namespace Cursor

/-! The run. -/

theorem ofByte_add (h : s.dropBytes? pos = some (w ++ t)) :
    Position.ofByte s (pos + byteSize w) = w.foldl Position.next (.ofByte s pos) := by
  have hnext := dropBytes?_add h
  obtain ⟨u, rfl, rfl⟩ := dropBytes?_eq_some.1 h
  have htake : ∀ a b : Text, (a ++ b).take ((a ++ b).length - b.length) = a := by
    intro a b
    rw [List.length_append, Nat.add_sub_cancel, List.take_left]
  rw [Position.ofByte, Position.ofByte, h, hnext]
  dsimp only
  rw [htake, ← List.append_assoc, htake, Position.after, Position.after, List.foldl_append]

theorem scan_eq (m : Mode) (h : s.dropBytes? pos = some (c :: t)) :
    scan s m pos =
      some ((Lexer.scan m c t).map fun p => (p.1, pos + byteSize (c :: t.take p.2))) := by
  cases m with
  | html => exact congrArg (Option.map Except.ok) (html_eq h)
  | code => exact code_eq h

/-- The cursor finds the tokens that are found character by character. -/
theorem run_eq (m : Mode) (h : s.dropBytes? pos = some t) :
    run s m pos = some ((Lexer.run m (.ofByte s pos) t).map (Token.marks pos)) := by
  induction hn : t.length using Nat.strongRecOn generalizing m pos t with
  | _ n ih =>
  have hsize := byteSize_of_dropBytes? h
  rw [run]
  cases t with
  | nil =>
    rw [if_neg (by rw [← hsize]; exact Nat.lt_irrefl _), Lexer.run]
    rfl
  | cons c t =>
    have hpos : pos < s.byteSize := by
      have := byteSize_pos (List.cons_ne_nil c t)
      omega
    rw [if_pos hpos, scan_eq m h, Lexer.run]
    cases hs : Lexer.scan m c t with
    | error fault => rfl
    | ok p =>
      obtain ⟨k, n⟩ := p
      have hsplit : c :: t = (c :: t.take n) ++ t.drop n := by
        rw [List.cons_append, List.take_append_drop]
      have hnext := dropBytes?_add (hsplit ▸ h)
      have hless : (t.drop n).length < (c :: t).length :=
        Nat.lt_succ_of_le (List.drop_sublist n t).length_le
      dsimp only [Option.bind_eq_bind, Option.bind_some, Except.map, pure]
      rw [ih (t.drop n).length (hn ▸ hless) (m.after k) hnext rfl, ofByte_add (hsplit ▸ h)]
      dsimp only [Option.bind_some]
      cases Lexer.run (m.after k) ((c :: t.take n).foldl Position.next (.ofByte s pos)) (t.drop n) <;>
        rfl

end Cursor

/-! The tokens of a text as marks in it. -/

namespace Token

theorem marks_cons (x : Token) (ts : List Token) : marks pos (x :: ts) =
    ⟨x.kind, pos, pos + x.text.byteSize⟩ :: marks (pos + x.text.byteSize) ts := rfl

theorem map_kind_marks (pos : Nat) (ts : List Token) :
    (marks pos ts).map Mark.kind = ts.map Token.kind := by
  induction ts generalizing pos with
  | nil => rfl
  | cons x ts ih => rw [marks_cons, List.map_cons, ih, List.map_cons]

theorem lt_of_mem_marks (h : ∀ x ∈ ts, x.text ≠ []) : ∀ k ∈ marks pos ts, k.start < k.stop := by
  induction ts generalizing pos with
  | nil => nofun
  | cons x ts ih =>
    obtain ⟨hx, hts⟩ := List.forall_mem_cons.1 h
    exact List.forall_mem_cons.2 ⟨Nat.lt_add_of_pos_right (byteSize_pos hx), ih hts⟩

theorem contiguous_marks (pos : Nat) (ts : List Token) :
    (marks pos ts).IsChain fun a b => a.stop = b.start := by
  induction ts generalizing pos with
  | nil => exact .nil
  | cons x ts ih =>
    cases ts with
    | nil => exact .singleton _
    | cons y ts => exact .cons_cons rfl (ih _)

theorem getLast?_marks (pos : Nat) (ts : List Token) :
    (((marks pos ts).getLast?).map Mark.stop).getD pos = pos + (spell ts).byteSize := by
  induction ts generalizing pos with
  | nil => rfl
  | cons x ts ih =>
    have hspell : spell (x :: ts) = x.text ++ spell ts := rfl
    rw [marks_cons, List.getLast?_cons, hspell, byteSize_append, ← Nat.add_assoc, ← ih]
    cases (marks (pos + x.text.byteSize) ts).getLast? <;> rfl

theorem text?_marks (h : s.dropBytes? pos = some (spell ts ++ r)) :
    (∀ k ∈ marks pos ts, (s.dropBytes? k.start).isSome ∧ (s.dropBytes? k.stop).isSome) ∧
      (marks pos ts).mapM (Mark.text? s) = some (ts.map Token.text) := by
  induction ts generalizing pos with
  | nil => exact ⟨nofun, rfl⟩
  | cons x ts ih =>
    have hspell : spell (x :: ts) ++ r = x.text ++ (spell ts ++ r) := List.append_assoc ..
    rw [hspell] at h
    have hnext := dropBytes?_add h
    obtain ⟨hbounds, htexts⟩ := ih hnext
    have htext : Mark.text? s ⟨x.kind, pos, pos + x.text.byteSize⟩ = some x.text := by
      rw [Mark.text?, h, Option.bind_some, Nat.add_sub_cancel_left, takeBytes?_append]
    rw [marks_cons]
    refine ⟨List.forall_mem_cons.2 ⟨⟨?_, ?_⟩, hbounds⟩, ?_⟩
    · rw [h]; rfl
    · rw [hnext]; rfl
    · rw [List.mapM_cons, htext, htexts]; rfl

end Token

/-! Which kinds follow each other. -/

/-- Text and tags outside of code take turns. -/
def TokenKind.Precedes (a b : TokenKind) : Prop :=
  (a = closeTag → b = inlineHtml ∨ b = openTag) ∧ (a = inlineHtml → b = openTag) ∧
    (b = openTag → a = inlineHtml ∨ a = closeTag)

namespace Lexer

/-- What stands outside of code begins with an open tag or with text up to one. -/
theorem kind_scanHtml (c : Char) (t : Text) :
    (∃ n, openTag? c t = some n ∧ scanHtml c t = (.openTag, n)) ∨
      (openTag? c t = none ∧ scanHtml c t = (.inlineHtml, htmlSize t)) := by
  rw [scanHtml]
  cases h : openTag? c t with
  | none => exact .inr ⟨rfl, rfl⟩
  | some n => exact .inl ⟨n, rfl, rfl⟩

theorem kind_scanCode {k : TokenKind} {n : Nat} (h : scanCode c t = .ok (k, n)) :
    k ≠ .openTag ∧ k ≠ .inlineHtml := by
  cases rule_of_scanCode h with
  | comment => split <;> exact ⟨nofun, nofun⟩
  | _ => exact ⟨nofun, nofun⟩

theorem Reads.head_html {x : Token} (h : Reads .html (x :: ts) t) :
    x.kind = .openTag ∨ x.kind = .inlineHtml := by
  cases h with
  | @cons _ c u t k _ hs hr =>
    rcases kind_scanHtml c (u ++ t) with ⟨n, -, he⟩ | ⟨-, he⟩
    · exact .inl (congrArg Prod.fst ((Except.ok.inj hs).symm.trans he))
    · exact .inr (congrArg Prod.fst ((Except.ok.inj hs).symm.trans he))

theorem Reads.head_code {x : Token} (h : Reads .code (x :: ts) t) :
    x.kind ≠ .openTag ∧ x.kind ≠ .inlineHtml := by
  cases h with
  | cons hs hr => exact kind_scanCode hs

theorem openTag?_htmlSize {d : Char} {u : Text} (h : t.drop (htmlSize t) = d :: u) :
    (openTag? d u).isSome = true := by
  induction t with
  | nil => cases h
  | cons c t ih =>
    rw [htmlSize] at h
    split at h
    · cases h
      assumption
    · exact ih h

theorem Reads.precedes (h : Reads m ts t) : ts.IsChain fun a b => a.kind.Precedes b.kind := by
  induction h with
  | nil => exact .nil
  | @cons m c u t k ts hs hr ih =>
    cases ts with
    | nil => exact .singleton _
    | cons y ts =>
      refine .cons_cons ?_ ih
      cases m with
      | html =>
        rcases kind_scanHtml c (u ++ t) with ⟨n, -, he⟩ | ⟨-, he⟩
        · obtain ⟨rfl, -⟩ := Prod.mk.inj (he.symm.trans (Except.ok.inj hs))
          exact ⟨nofun, nofun, fun h => absurd h hr.head_code.1⟩
        · obtain ⟨rfl, hlen⟩ := Prod.mk.inj (he.symm.trans (Except.ok.inj hs))
          refine ⟨nofun, fun _ => ?_, fun _ => .inl rfl⟩
          cases hr with
          | @cons _ d v t _ _ hd _ =>
            have hopen : (openTag? d (v ++ t)).isSome = true :=
              openTag?_htmlSize (t := u ++ d :: (v ++ t)) (by rw [hlen, List.drop_left])
            rcases kind_scanHtml d (v ++ t) with ⟨n, -, hk⟩ | ⟨hnone, -⟩
            · exact (congrArg Prod.fst ((Except.ok.inj hd).symm.trans hk))
            · rw [hnone] at hopen
              cases hopen
      | code =>
        obtain ⟨hopen, hhtml⟩ := kind_scanCode hs
        by_cases hclose : k = .closeTag
        · subst hclose
          exact ⟨fun _ => hr.head_html.symm, nofun, fun _ => .inr rfl⟩
        · have hafter : Mode.after .code k = .code := by
            cases k <;> first | rfl | exact absurd rfl hclose
          rw [hafter] at hr
          exact ⟨fun h => absurd h hclose, fun h => absurd h hhtml, fun h => absurd h hr.head_code.1⟩

/-- No open tag begins with a byte beyond ASCII. -/
theorem openTagSize?_of_le {b : UInt8} (hb : 128 ≤ b.toNat) (bs : List UInt8) :
    Cursor.openTagSize? (b :: bs) = none := by
  have hne : ∀ d : UInt8, d.toNat < 128 → b ≠ d := by
    rintro d hd rfl
    omega
  have hshort : (bytes "<?=").isPrefixOf (b :: bs) = false := by
    rw [show bytes "<?=" = 60 :: bytes "?=" by decide, List.isPrefixOf,
      beq_eq_false_iff_ne.2 (hne 60 (by decide)).symm, Bool.false_and]
  have hlong : (((b :: bs).take 5).map Cursor.lowerByte != bytes "<?php") = true := by
    rw [bne_iff_ne, List.take_succ_cons, List.map_cons, Cursor.lowerByte,
      Cursor.isByte_of_le hb, if_neg Bool.false_ne_true, show bytes "<?php" = 60 :: bytes "?php" by decide]
    exact fun h => hne 60 (by decide) (List.cons.inj h).1
  rw [Cursor.openTagSize?, hshort, hlong, Bool.or_true]
  rfl

/-- No open tag begins in text outside of code, between two characters or inside of one. -/
theorem openTagSize?_drop (h : w.length ≤ htmlSize (w ++ r)) {i : Nat} (hi : i < byteSize w) :
    Cursor.openTagSize? ((bytes (w ++ r)).drop i) = none := by
  induction w generalizing i with
  | nil => cases hi
  | cons c w ih =>
    rw [List.cons_append, htmlSize] at h
    split at h
    · cases h
    rename_i hnone
    have hlen := String.length_utf8EncodeChar c
    rw [List.cons_append, bytes_cons, List.drop_append, hlen]
    rcases Nat.lt_or_ge i c.utf8Size with hlt | hge
    · rw [Nat.sub_eq_zero_of_le (Nat.le_of_lt hlt), List.drop_zero]
      rcases Nat.eq_zero_or_pos i with rfl | hpos
      · rw [List.drop_zero, ← bytes_cons, Cursor.openTagSize?_bytes]
        rw [Option.not_isSome_iff_eq_none.1 hnone]
        rfl
      · have hwide : 128 ≤ c.toNat := by
          by_contra hc
          have := utf8Size_of_ascii (Nat.lt_of_not_le hc)
          omega
        have hne : (String.utf8EncodeChar c).drop i ≠ [] := by
          rw [Ne, List.drop_eq_nil_iff]
          omega
        obtain ⟨b, bs, hb⟩ := List.exists_cons_of_ne_nil hne
        have hmem : b ∈ String.utf8EncodeChar c := List.mem_of_mem_drop (hb ▸ List.mem_cons_self)
        rw [hb, List.cons_append]
        exact openTagSize?_of_le (le_of_mem_encode hwide b hmem) _
    · rw [List.drop_of_length_le (hlen ▸ hge), List.nil_append]
      exact ih (Nat.le_of_succ_le_succ h) (by rw [byteSize_cons] at hi; omega)

end Lexer

/-! The result. -/

/-- The tokens `ks` cover the text `s`, read from mode `m` on, without gap or overlap. -/
structure Tiles (m : Mode) (s : Text) (ks : List Mark) : Prop where
  nonempty : ∀ k ∈ ks, k.start < k.stop
  first : ∀ k, ks.head? = some k → k.start = 0
  contiguous : ks.IsChain fun a b => a.stop = b.start
  last : (ks.getLast?.map Mark.stop).getD 0 = s.byteSize
  boundary : ∀ k ∈ ks, (s.dropBytes? k.start).isSome ∧ (s.dropBytes? k.stop).isSome
  joined : (ks.mapM (Mark.text? s)).map List.flatten = some s
  alternates : ks.IsChain fun a b => a.kind.Precedes b.kind
  opening : ∀ k, ks.head? = some k → k.kind = .openTag → m = .html
  /-- No open tag starts in text outside of code, at whatever byte. -/
  outside : ∀ k ∈ ks, k.kind = .inlineHtml → ∀ i, k.start ≤ i → i < k.stop →
    Cursor.openTagSize? (s.bytes.drop i) = none

theorem outside_marks (h : Reads m ts t) (hpos : s.dropBytes? pos = some t) :
    ∀ k ∈ Token.marks pos ts, k.kind = .inlineHtml → ∀ i, k.start ≤ i → i < k.stop →
      Cursor.openTagSize? (s.bytes.drop i) = none := by
  induction h generalizing pos with
  | nil => nofun
  | @cons m c u t k ts hs hr ih =>
    rw [Token.marks_cons]
    refine List.forall_mem_cons.2 ⟨fun hk i hi hlt => ?_, ih (dropBytes?_add (u := c :: u) hpos)⟩
    obtain rfl : k = .inlineHtml := hk
    cases m with
    | code => exact absurd rfl (kind_scanCode hs).2
    | html =>
      rcases kind_scanHtml c (u ++ t) with ⟨n, -, he⟩ | ⟨hnone, he⟩
      · cases he.symm.trans (Except.ok.inj hs)
      · have hlen : htmlSize (u ++ t) = u.length :=
          congrArg Prod.snd (he.symm.trans (Except.ok.inj hs))
        obtain ⟨j, rfl⟩ := Nat.exists_eq_add_of_le hi
        rw [← List.drop_drop, drop_bytes hpos]
        refine openTagSize?_drop (w := c :: u) (r := t) ?_ (Nat.lt_of_add_lt_add_left hlt)
        rw [List.cons_append, htmlSize, hnone, if_neg (by decide), hlen]
        exact Nat.le_refl _

theorem tiles_of_reads (h : Reads m ts s) : Tiles m s (Token.marks 0 ts) := by
  have hs := h.spell
  have hzero : s.dropBytes? 0 = some (Token.spell ts ++ []) := by
    rw [dropBytes?_zero, hs, List.append_nil]
  obtain ⟨hbounds, htexts⟩ := Token.text?_marks hzero
  refine ⟨Token.lt_of_mem_marks h.text_ne_nil, ?_, Token.contiguous_marks 0 ts, ?_, hbounds, ?_, ?_,
    ?_, outside_marks h (dropBytes?_zero s)⟩
  · intro k hk
    cases ts with
    | nil => cases hk
    | cons x ts =>
      cases hk
      rfl
  · rw [Token.getLast?_marks, hs, Nat.zero_add]
  · rw [htexts, Option.map_some, ← List.flatMap_def]
    exact congrArg some hs
  · have hkinds := h.precedes
    rw [← List.isChain_map (f := Token.kind), ← Token.map_kind_marks 0] at hkinds
    exact (List.isChain_map _).1 hkinds
  · intro k hk hopen
    cases ts with
    | nil => cases hk
    | cons x ts =>
      cases hk
      cases m with
      | html => rfl
      | code => exact absurd hopen h.head_code.1

/-- What the cursor answers on the text `s`: it comes to an end, with the tokens or the error that
reading by characters gives, and its tokens cover the text. -/
structure Lossless (m : Mode) (s : Text) (answer : Option (Except ParseError (List Mark)))
    (tokens : Except ParseError (List Token)) : Prop where
  agrees : answer = some (tokens.map (Token.marks 0))
  tiles : ∀ ks, answer = some (.ok ks) → Tiles m s ks

theorem lossless (m : Mode) (s : Text) :
    Lossless m s (Cursor.run s m 0) (Lexer.run m .start s) := by
  have hrun := Cursor.run_eq m (dropBytes?_zero s)
  have hstart : Position.ofByte s 0 = .start := by
    rw [Position.ofByte, dropBytes?_zero]
    dsimp only
    rw [Nat.sub_self, List.take_zero]
    rfl
  rw [hstart] at hrun
  refine ⟨hrun, fun ks hks => ?_⟩
  rw [hrun] at hks
  cases h : Lexer.run m .start s with
  | error e =>
    rw [h] at hks
    cases hks
  | ok ts =>
    rw [h] at hks
    cases hks
    exact tiles_of_reads (reads_of_run h)

/-- Lexing a file or a fragment of code is lossless. -/
theorem lexing_lossless (s : Text) :
    Lossless .html s (Cursor.lex s) (lex s) ∧ Lossless .code s (Cursor.lexCode s) (lexCode s) :=
  ⟨lossless .html s, lossless .code s⟩

/-- An escaped character of two bytes, behind another one outside of code. -/
theorem lexing_lossless_escape : ∃ ks, Cursor.lex "ü<?php '\\é'" = some (.ok ks) ∧
    ks = [⟨.inlineHtml, 0, 2⟩, ⟨.openTag, 2, 8⟩, ⟨.string, 8, 13⟩] ∧ Tiles .html "ü<?php '\\é'" ks := by
  have hlex : (lex "ü<?php '\\é'").toOption.any (fun ts => decide (Token.marks 0 ts =
      [⟨.inlineHtml, 0, 2⟩, ⟨.openTag, 2, 8⟩, ⟨.string, 8, 13⟩])) = true := by
    decide +kernel
  obtain ⟨hagrees, htiles⟩ := (lexing_lossless "ü<?php '\\é'").1
  obtain ⟨ts, h, hmarks⟩ := Steps.exists_of_any hlex
  rw [h] at hagrees
  exact ⟨_, hagrees, of_decide_eq_true hmarks, htiles _ hagrees⟩

end PhpGraft
