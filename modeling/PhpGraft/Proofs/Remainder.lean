import PhpGraft.Proofs.MethodText
import PhpGraft.Proofs.Steps

/-!
What is left of a fragment once its statements are cut out. Only loose tokens stand between them,
so that nothing but white space is missing from a fragment that does not leave code; the tags and
the text around a piece of code that does are given up.
-/
namespace PhpGraft

namespace Tokens

/-- Spans one behind the other from index `i` on, with loose tokens alone around them. -/
inductive Apart (ts : Tokens) (stop : Nat) : Nat → List Span → Prop
  | nil {i} : i ≤ stop → Loose ts i stop → Apart ts stop i []
  | cons {i s spans} : i ≤ s.start → s.start < s.stop → Loose ts i s.start →
      Apart ts stop s.stop spans → Apart ts stop i (s :: spans)

/-- The token belongs to none of the spans. -/
def Left (spans : List Span) (k : Nat) : Prop := ∀ s ∈ spans, ¬(s.start ≤ k ∧ k < s.stop)

variable {ts : Tokens} {code : Text} {i k stop : Nat} {spans : List Span} {sts : List Text}

theorem Apart.le (h : Apart ts stop i spans) : i ≤ stop := by
  induction h with
  | nil hle => exact hle
  | cons h₁ h₂ _ _ ih => omega

theorem Apart.loose (h : Apart ts stop i spans) (hi : i ≤ k) (hk : k < stop)
    (hl : Left spans k) : ts.isCode k = false ∧ ts.isComment k = false := by
  induction h with
  | nil _ hloose => exact hloose k hi hk
  | @cons _ s _ _ _ hloose _ ih =>
    obtain ⟨hs, hl⟩ := List.forall_mem_cons.1 hl
    by_cases hstart : k < s.start
    · exact hloose k hi hstart
    · exact ih (by omega) hl

theorem Apart.left_of_lt (h : Apart ts stop i spans) (hk : k < i) : Left spans k := by
  induction h with
  | nil => exact fun _ hs => nomatch hs
  | cons h₁ h₂ _ _ ih => exact List.forall_mem_cons.2 ⟨by omega, ih (by omega)⟩

theorem between_succ_text (ts : Tokens) (k : Nat) : ts.between k (k + 1) = ts.text k := by
  cases h : ts[k]? with
  | none =>
    rw [Array.getElem?_eq_none_iff] at h
    rw [between_eq, List.drop_eq_nil_of_le (by simpa using h), List.take_nil, text,
      Array.getElem?_eq_none h]
    rfl
  | some t =>
    rw [between_succ h, text, h]
    rfl

theorem solid_between_eq_nil {a b : Nat} (hab : a ≤ b) : (ts.between a b).solid = [] ↔
    ∀ k, a ≤ k → k < b → (ts.text k).isBlank = true := by
  induction b, hab using Nat.le_induction with
  | base =>
    rw [between_self]
    exact iff_of_true rfl fun k hk hks => absurd hks (Nat.not_lt.2 hk)
  | succ b hab ih =>
    rw [← between_append hab (Nat.le_succ b), between_succ_text, Text.solid_append,
      List.append_eq_nil_iff, ih, Text.solid_eq_nil]
    refine ⟨fun ⟨h, hb⟩ k hk hkb => ?_, fun h =>
      ⟨fun k hk hkb => h k hk (Nat.lt_succ_of_lt hkb), h b hab (Nat.lt_succ_self b)⟩⟩
    rcases Nat.lt_or_eq_of_le (Nat.le_of_lt_succ hkb) with hlt | rfl
    · exact h k hk hlt
    · exact hb

theorem Apart.sublist (h : Apart ts stop i spans) :
    (Text.solid (spans.flatMap ts.slice)).Sublist (ts.between i stop).solid := by
  induction h with
  | nil => exact List.nil_sublist _
  | @cons i s spans h₁ h₂ _ hrest ih =>
    rw [← between_append h₁ (Nat.le_trans (Nat.le_of_lt h₂) hrest.le),
      ← between_append (Nat.le_of_lt h₂) hrest.le, List.flatMap_cons]
    simp only [Text.solid_append]
    exact ((List.Sublist.refl _).append ih).trans (List.sublist_append_right ..)

/-- Nothing is missing from the spans just when nothing but white space is left out. -/
theorem Apart.solid_eq_iff (h : Apart ts stop i spans) :
    Text.solid (spans.flatMap ts.slice) = (ts.between i stop).solid ↔
      ∀ k, i ≤ k → k < stop → Left spans k → (ts.text k).isBlank = true := by
  induction h with
  | @nil i hle =>
    rw [eq_comm, List.flatMap_nil, show Text.solid [] = [] from rfl, solid_between_eq_nil hle]
    exact forall₃_congr fun _ _ _ => ⟨fun h _ => h, fun h => h fun _ hs => nomatch hs⟩
  | @cons i s spans h₁ h₂ _ hrest ih =>
    have hle := hrest.le
    have hsplit : (ts.between i stop).solid = (ts.between i s.start).solid ++
        ((ts.slice s).solid ++ (ts.between s.stop stop).solid) := by
      rw [← between_append h₁ (Nat.le_trans (Nat.le_of_lt h₂) hle),
        ← between_append (Nat.le_of_lt h₂) hle, Text.solid_append, Text.solid_append, slice]
    have hparts : Text.solid ((s :: spans).flatMap ts.slice) = (ts.between i stop).solid ↔
        (ts.between i s.start).solid = [] ∧
          Text.solid (spans.flatMap ts.slice) = (ts.between s.stop stop).solid := by
      rw [hsplit, List.flatMap_cons, Text.solid_append]
      refine ⟨fun heq => ?_, fun ⟨h₁, h₂⟩ => by rw [h₁, h₂, List.nil_append]⟩
      have hlen := congrArg List.length heq
      have hsub := hrest.sublist.length_le
      simp only [List.length_append] at hlen
      exact ⟨List.length_eq_zero_iff.1 (by omega), hrest.sublist.eq_of_length (by omega)⟩
    rw [hparts, ih, solid_between_eq_nil h₁]
    refine ⟨fun ⟨hgap, hsp⟩ k hk hks hl => ?_, fun h =>
      ⟨fun k hk hks => h k hk (by omega)
        (List.forall_mem_cons.2 ⟨by omega, hrest.left_of_lt (by omega)⟩),
        fun k hk hks hl => h k (by omega) hks (List.forall_mem_cons.2 ⟨by omega, hl⟩)⟩⟩
    obtain ⟨hs, hl⟩ := List.forall_mem_cons.1 hl
    by_cases hstart : k < s.start
    · exact hgap k hk hstart
    · exact hsp k (by omega) hks hl

/-- Statements are the trimmed slices of spans that leave out loose tokens alone. -/
theorem apart_of_split {m : Lexer.Mode} (hr : Lexer.Reads m ts.toList code) (hi : i ≤ stop)
    (h : ts.Split stop i sts) : ∃ spans, Apart ts stop i spans ∧
      sts = spans.map fun s => (ts.slice s).trim := by
  induction h with
  | @nil i hs ht =>
    have hloose := ts.loose_leading i stop
    have hle := ts.leading_le i (ts.significant i stop)
    rw [Nat.le_antisymm (ts.significant_le ..) (Nat.le_of_not_lt hs)] at hle hloose ht
    refine ⟨[], .nil hi (fun k hk hks => hloose k hk (Nat.lt_of_lt_of_le hks ?_)), rfl⟩
    -- a comment would not vanish when the slice is trimmed
    refine Nat.le_of_not_lt fun hlt => ?_
    have hcomment : ts.isComment (ts.leading i stop) = true := firstFrom_pos hlt
    obtain ⟨kind, hkind, hc⟩ := (Option.any_eq_true _ _).1 hcomment
    obtain ⟨tok, htok, rfl⟩ := Option.map_eq_some_iff.1 hkind
    obtain ⟨⟨c, u, htext, hc⟩, -⟩ := hr.comment (by rwa [Array.getElem?_toList]) hc
    have hsolid := Text.solid_trim (ts.between (ts.leading i stop) stop)
    rw [ht, ← between_append (Nat.le_succ _) hlt, between_succ htok, htext,
      Text.solid_append] at hsolid
    exact Text.solid_ne_nil hc (List.append_eq_nil_iff.1 hsolid.symm).1
  | @notes i hs ht =>
    have hloose := ts.loose_leading i stop
    rw [Nat.le_antisymm (ts.significant_le ..) (Nat.le_of_not_lt hs)] at hloose ht ⊢
    refine ⟨[⟨ts.leading i stop, stop⟩], .cons (ts.le_leading hi) ?_ hloose
      (.nil (Nat.le_refl _) fun k hk hks => absurd hks (Nat.not_lt.2 hk)), rfl⟩
    exact Nat.lt_of_not_le fun hle => ht (by rw [between_of_le ts hle]; rfl)
  | @cons i head next rest hs ha he _ ih =>
    have hfirst := le_firstFrom_of_lt hs
    have hbounds := statementEnd_bounds he
    have htrail := ts.le_trailing next stop
    have hlead := ts.leading_le i (ts.significant i stop)
    obtain ⟨spans, hspans, rfl⟩ := ih (trailing_le hbounds.2)
    refine ⟨⟨ts.leading i (ts.significant i stop), ts.trailing next stop⟩ :: spans,
      .cons (ts.le_leading hfirst) ?_ (ts.loose_leading i stop) hspans, rfl⟩
    show ts.leading i (ts.significant i stop) < ts.trailing next stop
    omega

theorem slices_of_statements {m : Lexer.Mode} (hr : Lexer.Reads m ts.toList code)
    (h : ts.statements 0 ts.size = .ok sts) :
    ∃ spans, Apart ts ts.size 0 spans ∧ (sts = spans.map fun s => (ts.slice s).trim) ∧
      (Text.solid sts.flatten = code.solid ↔
        ∀ k < ts.size, Left spans k → (ts.text k).isBlank = true) := by
  obtain ⟨spans, hspans, rfl⟩ :=
    apart_of_split hr (Nat.zero_le _) (split_of_statements h)
  refine ⟨spans, hspans, rfl, ?_⟩
  have hsolid : Text.solid (spans.map fun s => (ts.slice s).trim).flatten =
      Text.solid (spans.flatMap ts.slice) := by
    simp only [Text.solid, ← List.flatMap_def, List.filter_flatMap]
    exact List.flatMap_congr fun s _ => Text.solid_trim _
  have hcode : ts.between 0 ts.size = code := (between_size ts).trans hr.spell
  rw [hsolid, ← hcode, hspans.solid_eq_iff]
  exact ⟨fun h k => h k (Nat.zero_le k), fun h k _ => h k⟩

theorem blank_of_loose (hr : Lexer.Reads .code ts.toList code)
    (hclose : ∀ t ∈ ts.toList, t.kind ≠ .closeTag) (hk : k < ts.size)
    (h : ts.isCode k = false ∧ ts.isComment k = false) : (ts.text k).isBlank = true := by
  have hkind := kind?_eq_getElem hk
  obtain ⟨hout, hspace⟩ := kind?_fragment hr hclose hkind
  rw [isCode, isComment, hkind, Option.any_some, Option.any_some, TokenKind.isCode, hout,
    TokenKind.isTrivia] at h
  have hwhite : ts[k].kind = .whitespace := by simpa [h.2] using h.1
  exact List.all_eq_true.2 fun c hc => isWhite_of_isSpace (hspace hwhite c hc)

end Tokens

open Lexer

/-- The statements of a fragment are its tokens in order, but for loose ones around each statement;
all of the fragment but white space is in them just when the tokens left out are blank, as they are
in a fragment without close tag. -/
theorem parseFragment_slices {code : Text} {sts : List Text} (h : parseFragment code = .ok sts) :
    ∃ ts spans, lexCode (fragmentCode code) = .ok ts ∧
      Tokens.Apart ts.toArray ts.length 0 spans ∧
      (sts = spans.map fun s => (Tokens.slice ts.toArray s).trim) ∧
      (Text.solid sts.flatten = (fragmentCode code).solid ↔
        ∀ k < ts.length, Tokens.Left spans k → (Tokens.text ts.toArray k).isBlank = true) ∧
      ((∀ t ∈ ts, t.kind ≠ .closeTag) → Text.solid sts.flatten = (fragmentCode code).solid) := by
  obtain ⟨ts, hlex, hsts⟩ := Tokens.parseFragment_eq h
  have hr : Reads .code (Array.toList ts.toArray) (fragmentCode code) := reads_of_run hlex
  obtain ⟨spans, hspans, hmap, hiff⟩ := Tokens.slices_of_statements hr hsts
  refine ⟨ts, spans, hlex, hspans, hmap, hiff, fun hclose => hiff.2 fun k hk hl => ?_⟩
  exact Tokens.blank_of_loose hr hclose hk (hspans.loose (Nat.zero_le k) hk hl)

/-- Comments in front of a statement, behind it on its line and at the end are parts of
statements. -/
theorem parseFragment_slices_comments : ∃ sts ts spans,
    parseFragment "<?php /* a */ if ($b) \x7b\x7d // c\n\n# d\n " = .ok sts ∧
      lexCode (fragmentCode "<?php /* a */ if ($b) \x7b\x7d // c\n\n# d\n ") = .ok ts ∧
      Tokens.Apart ts.toArray ts.length 0 spans ∧ spans.length = 2 ∧
      Text.solid sts.flatten = "/*a*/if($b)\x7b\x7d//c#d" := by
  have hrun : (parseFragment "<?php /* a */ if ($b) \x7b\x7d // c\n\n# d\n ").toOption.any
      (fun sts => decide (sts.length = 2)) = true := by
    decide +kernel
  have hlex : (lexCode (fragmentCode
      "<?php /* a */ if ($b) \x7b\x7d // c\n\n# d\n ")).toOption.any
      (fun ts => ts.all fun t => t.kind != .closeTag) = true := by
    decide +kernel
  obtain ⟨sts, h, hlen⟩ := Steps.exists_of_any hrun
  obtain ⟨us, hus, hclose⟩ := Steps.exists_of_any hlex
  obtain ⟨ts, spans, hts, hspans, rfl, -, hsolid⟩ := parseFragment_slices h
  obtain rfl : us = ts := Except.ok.inj (hus.symm.trans hts)
  refine ⟨_, us, spans, h, hus, hspans, by simpa using hlen, ?_⟩
  rw [hsolid fun t ht => bne_iff_ne.1 (List.all_eq_true.1 hclose t ht)]
  decide +kernel

/-- The text between two statements and the tags around it are in neither. -/
theorem parseFragment_loses_html : ∃ sts,
    parseFragment "foo(); ?>html<?php bar();" = .ok sts ∧
      Text.solid sts.flatten = "foo();bar();" ∧
      Text.solid (fragmentCode "foo(); ?>html<?php bar();") = "foo();?>html<?phpbar();" := by
  have hrun : (parseFragment "foo(); ?>html<?php bar();").toOption.any (fun sts =>
      decide (Text.solid sts.flatten = "foo();bar();")) = true := by
    decide +kernel
  obtain ⟨sts, h, hsolid⟩ := Steps.exists_of_any hrun
  exact ⟨sts, h, of_decide_eq_true hsolid, by decide +kernel⟩

end PhpGraft
