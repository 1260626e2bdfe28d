import Mathlib.Data.List.Chain
import Mathlib.Data.List.TakeWhile
import PhpGraft.Proofs.Bytes
import PhpGraft.Proofs.Moving
import PhpGraft.Proofs.Text

/-!
Moving a statement to another indentation keeps its tokens: what `reindent` gives is moved code.
-/
namespace PhpGraft

/-- The only white space is spaces, tabs and line breaks. -/
def Text.isTidy : Text → Bool
  | [] => true
  | c :: t => (!isWhite c || Lexer.isIndent c || c == '\n' || (c == '\r' && t.head? == some '\n')) &&
      isTidy t

namespace Text

variable {c : Char} {s t : Text}

theorem isTidy_cons : isTidy (c :: t) = true ↔ (isWhite c = true →
    Lexer.isIndent c = true ∨ c = '\n' ∨ c = '\r' ∧ t.head? = some '\n') ∧ isTidy t = true := by
  simp only [isTidy, Bool.and_eq_true, Bool.or_eq_true, Bool.not_eq_true', beq_iff_eq]
  constructor
  · rintro ⟨h, ht⟩
    refine ⟨fun hw => ?_, ht⟩
    rcases h with ((h | h) | h) | h
    · rw [hw] at h
      cases h
    · exact .inl h
    · exact .inr (.inl h)
    · exact .inr (.inr h)
  · rintro ⟨h, ht⟩
    refine ⟨?_, ht⟩
    by_cases hw : isWhite c = true
    · rcases h hw with h | h | h
      · exact .inl (.inl (.inr h))
      · exact .inl (.inr h)
      · exact .inr h
    · exact .inl (.inl (.inl (Bool.eq_false_iff.2 hw)))

theorem isTidy_of_append (h : isTidy (s ++ t) = true) : isTidy t = true := by
  induction s with
  | nil => exact h
  | cons c s ih => exact ih (isTidy_cons.1 h).2

theorem isLayout_of_isTidy (h : isTidy t = true) (hc : c ∈ t) (hw : isWhite c = true) :
    Lexer.isLayout c = true := by
  induction t with
  | nil => cases hc
  | cons d t ih =>
    obtain ⟨hd, ht⟩ := isTidy_cons.1 h
    rcases List.mem_cons.1 hc with rfl | hc
    · rcases hd hw with hi | rfl | ⟨rfl, -⟩
      · exact Lexer.isLayout_of_isIndent hi
      · rfl
      · rfl
    · exact ih ht hc

theorem trimEnd_eq_nil (h : ∀ c ∈ t, isWhite c = true) : trimEnd t = [] := by
  rw [trimEnd, List.dropWhile_eq_nil_iff.2 fun c hc => h c (List.mem_reverse.1 hc),
    List.reverse_nil]

/-- Only white space is trimmed. -/
theorem trimEnd_append_white (t : Text) : ∃ w, t = trimEnd t ++ w ∧ ∀ c ∈ w, isWhite c = true := by
  refine ⟨(t.reverse.takeWhile isWhite).reverse, ?_, fun c hc => ?_⟩
  · rw [trimEnd, ← List.reverse_append, List.takeWhile_append_dropWhile, List.reverse_reverse]
  · exact List.all_eq_true.1 List.all_takeWhile c (List.mem_reverse.1 hc)

end Text

open Lexer

namespace Line

variable {q a R : List (Char × Bool)} {st b : Bool} {l m : Line} {ls : List Line} {X stop : Text}

/-- The lines of a text, the first of which starts quoted or not. -/
inductive Lines : Bool → List (Char × Bool) → List Line → Prop
  | last {st : Bool} {a : List (Char × Bool)} : (∀ p ∈ a, p.1 ≠ '\n') →
      Lines st a [⟨a.map Prod.fst, st, false⟩]
  | more {st b : Bool} {a q : List (Char × Bool)} {ls : List Line} : (∀ p ∈ a, p.1 ≠ '\n') → Lines b q ls →
      Lines st (a ++ ('\n', b) :: q) (⟨a.map Prod.fst, st, b⟩ :: ls)

theorem Lines.cons {c : Char} (h : Lines st q (l :: ls)) (hc : c ≠ '\n') (b : Bool) :
    Lines st ((c, b) :: q) ({ l with text := c :: l.text } :: ls) := by
  cases h with
  | last ha => exact Lines.last (a := (c, b) :: q) (List.forall_mem_cons.2 ⟨hc, ha⟩)
  | @more _ d a r _ ha h => exact Lines.more (a := (c, b) :: a) (List.forall_mem_cons.2 ⟨hc, ha⟩) h

theorem lines_split (st : Bool) (q : List (Char × Bool)) : Lines st q (split st q) := by
  fun_induction split st q with
  | case1 => exact .last nofun
  | case2 st b q ih => exact Lines.more (a := []) nofun ih
  | case3 st c b q hc hnil ih => 
    rw [hnil] at ih
    cases ih
  | case4 st c b q hc l ls h ih => 
    rw [h] at ih
    exact ih.cons (fun h => hc h) b

/-- White space next to each other is quoted or not alike. -/
def Coherent (q : List (Char × Bool)) : Prop :=
  q.IsChain fun x y => isWhite x.1 = true → isWhite y.1 = true → x.2 = y.2

theorem Coherent.of_append (h : Coherent (a ++ q)) : Coherent q :=
  (List.isChain_append.1 h).2.1

/-- White space in front of a line break is quoted as the break is. -/
theorem Coherent.before {c : Char} (h : Coherent (a ++ (c, b) :: q)) (hc : isWhite c = true)
    (ha : ∀ p ∈ a, isWhite p.1 = true) : ∀ p ∈ a, p.2 = b := by
  induction a with
  | nil => nofun
  | cons p a ih =>
    obtain ⟨hp, ha⟩ := List.forall_mem_cons.1 ha
    have hrest := ih (h.of_append (a := [p])) ha
    refine List.forall_mem_cons.2 ⟨?_, hrest⟩
    cases a with
    | nil => exact (List.isChain_cons_cons.1 h).1 hp hc
    | cons y a =>
      obtain ⟨hy, -⟩ := List.forall_mem_cons.1 ha
      obtain ⟨hyb, -⟩ := List.forall_mem_cons.1 hrest
      exact ((List.isChain_cons_cons.1 h).1 hp hy).trans hyb

/-- White space behind a line break is quoted as the break is. -/
theorem Coherent.behind {c : Char} (h : Coherent ((c, b) :: (a ++ q))) (hc : isWhite c = true)
    (ha : ∀ p ∈ a, isWhite p.1 = true) : ∀ p ∈ a, p.2 = b := by
  induction a generalizing c with
  | nil => nofun
  | cons p a ih =>
    obtain ⟨hp, ha'⟩ := List.forall_mem_cons.1 ha
    obtain ⟨d, e⟩ := p
    obtain rfl : b = e := (List.isChain_cons_cons.1 h).1 hc hp
    exact List.forall_mem_cons.2 ⟨rfl, ih (h.of_append (a := [(c, b)])) hp ha'⟩

end Line

namespace Line

/-- A relation between code, each character with whether it is quoted, and what it becomes, which
allows for other line breaks and indentation. White space that `trail` admits may go at the end of
a line, and what `lead` admits at its start. -/
structure Reflows (lead trail : Char → Bool) (e : LineEnding) (indent : Text)
    (Rel : List (Char × Bool) → Text → Prop) : Prop where
  blank : ∀ c, lead c = true → isSpace c = true
  keep : ∀ {c b m t}, Rel m t → Rel ((c, b) :: m) (c :: t)
  skip : ∀ {w m t}, (∀ c ∈ w, trail c = true ∧ c ≠ '\n') → Rel (('\n', false) :: m) t →
    Rel (plain w ++ ('\n', false) :: m) t
  feed : ∀ {m t}, Rel m t → Rel (('\n', false) :: m) (e.text ++ t)
  shift : ∀ {i m t}, (∀ c ∈ i, lead c = true) → Rel m t →
    Rel (('\n', false) :: (plain i ++ m)) (e.text ++ (indent ++ t))

/-- How a line behind the first one is moved. -/
def moved (common : Nat) (indent newline : Text) (l : Line) : Text :=
  if l.starts then '\n' :: l.trimmed
  else if l.trimmed.isBlank then newline
  else newline ++ indent ++ (l.trimmed.dropBytes? common).getD l.trimmed.trimStart

/-- The lines behind the first one with the break in front of them, and what is behind them. -/
def movedRest (common : Nat) (indent newline z : Text) (ls : List Line) : Text :=
  ls.flatMap (moved common indent newline) ++ z

theorem quotedChars_fst (code : Text) : (quotedChars code).map Prod.fst = code := by
  unfold quotedChars
  cases h : lexCode code with
  | error e => simp [Function.comp_def]
  | ok ts =>
    have hread := Lexer.reads_of_run (show Lexer.run .code .start code = .ok ts from h)
    show (Lexer.flags ts).map Prod.fst = code
    rw [Lexer.flags_fst, hread.spell]

theorem reindent_eq {code : Text} {l : Line} {ls : List Line} (indent newline : Text)
    (h : ofCode code.trim = l :: ls) : reindent code indent newline =
      l.trimmed.trimStart ++ ls.flatMap (moved (commonIndent ls) indent newline) := by
  unfold reindent
  rw [h]
  rfl

/-- The white space of the line, at its start and anywhere. -/
structure Fits (lead trail : Char → Bool) (l : Line) : Prop where
  trail : ∀ c ∈ l.text, isWhite c = true → trail c = true
  lead : l.text.isBlank = false → ∀ c ∈ l.text.takeWhile isWhite, lead c = true

/-- What is known of the lines behind the first one. -/
def Shared (lead : Char → Bool) (common : Nat) (ls : List Line) : Prop :=
  ∀ l ∈ ls, l.starts = false → l.text.isBlank = false →
    ∃ i t, l.text = i ++ t ∧ i.length = common ∧ ∀ c ∈ i, lead c = true

theorem byteSize_space {i : Text} (hi : ∀ c ∈ i, isSpace c = true) : i.byteSize = i.length :=
  Text.byteSize_of_ascii fun c hc => Text.ascii_of_isSpace (hi c hc)

theorem dropBytes?_space {i : Text} (hi : ∀ c ∈ i, isSpace c = true) (t : Text) :
    Text.dropBytes? i.length (i ++ t) = some t := by
  rw [← byteSize_space hi]
  exact Text.dropBytes?_append i t

theorem trimEnd_append {i t : Text} (ht : t.isBlank = false) :
    Text.trimEnd (i ++ t) = i ++ t.trimEnd := by
  obtain ⟨c, hc, hcw⟩ := List.all_eq_false.1 ht
  obtain ⟨x, y, rfl⟩ := List.append_of_mem hc
  have hcw : isWhite c = false := Bool.eq_false_iff.2 hcw
  rw [← List.append_assoc, Text.trimEnd_append_cons hcw, Text.trimEnd_append_cons hcw,
    List.append_assoc]

theorem trimmed_append {i t : Text} (ht : t.isBlank = false) (st b : Bool) :
    trimmed ⟨i ++ t, st, b⟩ = i ++ trimmed ⟨t, st, b⟩ := by
  cases b with
  | true => rfl
  | false => exact trimEnd_append ht

/-- Unquoted characters. -/
theorem eq_plain {a : List (Char × Bool)} (h : ∀ p ∈ a, p.2 = false) :
    a = plain (a.map Prod.fst) := by
  rw [plain, List.map_map]
  exact (List.map_id a).symm.trans (List.map_congr_left fun p hp => Prod.ext rfl (h p hp))

section

variable {lead trail : Char → Bool} {e : LineEnding} {indent X z : Text} {common : Nat}
  {Rel : List (Char × Bool) → Text → Prop} {q a Q : List (Char × Bool)} {st b : Bool}
  {ls : List Line}

theorem Reflows.keep_append (hR : Reflows lead trail e indent Rel) (h : Rel Q X)
    (a : List (Char × Bool)) : Rel (a ++ Q) (a.map Prod.fst ++ X) := by
  induction a with
  | nil => exact h
  | cons p a ih => exact hR.keep ih

/-- A line loses the white space at its end, unless the end is quoted. -/
theorem Reflows.line (hR : Reflows lead trail e indent Rel) (hQ : Rel Q X)
    (ha : ∀ p ∈ a, p.1 ≠ '\n') (hc : Coherent (a ++ Q))
    (hw : ∀ p ∈ a, isWhite p.1 = true → trail p.1 = true)
    (hend : b = false → (∃ q, Q = ('\n', false) :: q) ∨
      Q = [] ∧ ∀ p, a.getLast? = some p → isWhite p.1 = false) (st : Bool) :
    Rel (a ++ Q) (trimmed ⟨a.map Prod.fst, st, b⟩ ++ X) := by
  cases b with
  | true => exact hR.keep_append hQ a
  | false =>
    obtain ⟨w, hsplit, hwhite⟩ := Text.trimEnd_append_white (a.map Prod.fst)
    obtain ⟨a₁, a₂, rfl, h₁, rfl⟩ := List.map_eq_append_iff.1 hsplit
    have hwhite : ∀ p ∈ a₂, isWhite p.1 = true := fun p hp => hwhite _ (List.mem_map_of_mem hp)
    have hskip : Rel (a₂ ++ Q) X := by
      rcases hend rfl with ⟨q, rfl⟩ | ⟨-, hlast⟩
      · rw [List.append_assoc] at hc
        rw [eq_plain (hc.of_append.before (by decide) hwhite)]
        refine hR.skip (fun c hc => ?_) hQ
        obtain ⟨p, hp, rfl⟩ := List.mem_map.1 hc
        have hmem := List.mem_append_right a₁ hp
        exact ⟨hw p hmem (hwhite p hp), ha p hmem⟩
      · cases a₂ with
        | nil => exact hQ
        | cons p a₂ =>
          have hne : p :: a₂ ≠ [] := List.cons_ne_nil p a₂
          have := hlast _ (by
            rw [List.getLast?_append, List.getLast?_eq_some_getLast hne]
            rfl)
          rw [hwhite _ (List.getLast_mem hne)] at this
          cases this
    rw [show trimmed ⟨(a₁ ++ a₂).map Prod.fst, st, false⟩ = a₁.map Prod.fst from h₁.symm,
      List.append_assoc]
    exact hR.keep_append hskip a₁

theorem trimmed_of_isBlank (hblank : Text.isBlank (trimmed ⟨a.map Prod.fst, false, b⟩) = true)
    (hc : Coherent (('\n', false) :: (a ++ Q))) (hnext : b = true → ∃ q, Q = ('\n', true) :: q) :
    trimmed ⟨a.map Prod.fst, false, b⟩ = [] := by
  cases b with
  | true =>
    -- blanks between an unquoted break and a quoted one
    obtain ⟨q, rfl⟩ := hnext rfl
    have hwhite : ∀ p ∈ ('\n', false) :: a, isWhite p.1 = true := List.forall_mem_cons.2
      ⟨rfl, fun p hp => List.all_eq_true.1 hblank p.1 (List.mem_map_of_mem hp)⟩
    have : false = true := Coherent.before hc rfl hwhite _ List.mem_cons_self
    cases this
  | false =>
    obtain ⟨w, hw, hwhite⟩ := Text.trimEnd_append_white (a.map Prod.fst)
    refine Text.trimEnd_eq_nil fun c hc => ?_
    rw [hw] at hc
    rcases List.mem_append.1 hc with hc | hc
    · exact List.all_eq_true.1 hblank c hc
    · exact hwhite c hc

theorem not_isBlank_of_trimmed (h : ¬Text.isBlank (trimmed ⟨a.map Prod.fst, st, b⟩) = true) :
    Text.isBlank (a.map Prod.fst) = false := by
  refine Bool.eq_false_iff.2 fun hblank => h ?_
  cases b with
  | true => exact hblank
  | false =>
    rw [trimmed, if_neg Bool.false_ne_true, Text.trimEnd_eq_nil (List.all_eq_true.1 hblank)]
    rfl

/-- The break in front of a line, and the line. -/
theorem Reflows.break (hR : Reflows lead trail e indent Rel) (hQ : Rel Q X)
    (ha : ∀ p ∈ a, p.1 ≠ '\n') (hc : Coherent (('\n', st) :: (a ++ Q)))
    (hw : ∀ p ∈ a, isWhite p.1 = true → trail p.1 = true)
    (hend : b = false → (∃ q, Q = ('\n', false) :: q) ∨
      Q = [] ∧ ∀ p, a.getLast? = some p → isWhite p.1 = false)
    (hnext : b = true → ∃ q, Q = ('\n', true) :: q)
    (hs : st = false → Text.isBlank (a.map Prod.fst) = false →
      ∃ i t, a.map Prod.fst = i ++ t ∧ i.length = common ∧ ∀ c ∈ i, lead c = true) :
    Rel (('\n', st) :: (a ++ Q)) (moved common indent e.text ⟨a.map Prod.fst, st, b⟩ ++ X) := by
  have hline := hR.line hQ ha (hc.of_append (a := [('\n', st)])) hw hend st
  cases st with
  | true => exact hR.keep hline
  | false =>
    rw [moved, if_neg Bool.false_ne_true]
    split
    · rename_i hblank
      rw [trimmed_of_isBlank hblank hc hnext] at hline
      exact hR.feed hline
    · rename_i hblank
      obtain ⟨i, t, hit, rfl, hind⟩ := hs rfl (not_isBlank_of_trimmed hblank)
      have hspace : ∀ c ∈ i, isSpace c = true := fun c hc => hR.blank c (hind c hc)
      have ht : Text.isBlank t = false := by
        have htext := not_isBlank_of_trimmed hblank
        refine Bool.eq_false_iff.2 fun h => Bool.eq_false_iff.1 htext ?_
        rw [hit, Text.isBlank, List.all_append]
        exact Bool.and_eq_true_iff.2
          ⟨List.all_eq_true.2 fun c hc => isWhite_of_isSpace (hspace c hc), h⟩
      obtain ⟨a₁, a₂, rfl, rfl, rfl⟩ := List.map_eq_append_iff.1 hit
      rw [List.append_assoc] at hc
      have hplain : a₁ = plain (a₁.map Prod.fst) := eq_plain <| hc.behind rfl fun p hp =>
        isWhite_of_isSpace (hspace _ (List.mem_map_of_mem hp))
      have hline₂ : Rel (a₂ ++ Q) (trimmed ⟨a₂.map Prod.fst, false, b⟩ ++ X) := by
        refine hR.line hQ (fun p hp => ha p (List.mem_append_right _ hp))
          (Coherent.of_append (a := ('\n', false) :: a₁) hc)
          (fun p hp => hw p (List.mem_append_right _ hp)) (fun hb => ?_) false
        refine (hend hb).imp_right (And.imp_right fun hlast p hp => hlast p ?_)
        rw [List.getLast?_append, hp]
        rfl
      rw [hit, trimmed_append ht, dropBytes?_space hspace, Option.getD_some, List.append_assoc,
        List.append_assoc, List.append_assoc]
      have := hR.shift hind hline₂
      rwa [← hplain] at this

/-- The line is followed by a break or is the last one. -/
theorem ends_or (hQ : (∃ q, Q = ('\n', b) :: q) ∨ Q = [] ∧ b = false)
    (hlast : ∀ p, (a ++ Q).getLast? = some p → isWhite p.1 = false) (hb : b = false) :
    (∃ q, Q = ('\n', false) :: q) ∨ Q = [] ∧ ∀ p, a.getLast? = some p → isWhite p.1 = false := by
  subst hb
  refine hQ.imp_right fun ⟨hnil, _⟩ => ⟨hnil, ?_⟩
  rwa [hnil, List.append_nil] at hlast

theorem Lines.reflows (h : Lines st q ls) (hR : Reflows lead trail e indent Rel) (hc : Coherent q)
    (hw : ∀ p ∈ q, isWhite p.1 = true → trail p.1 = true)
    (hlast : ∀ p, q.getLast? = some p → isWhite p.1 = false) (hs : Shared lead common ls.tail)
    (hz : Rel [] z) :
    ∃ a Q l rest, q = a ++ Q ∧ ls = l :: rest ∧ l.text = a.map Prod.fst ∧ l.starts = st ∧
      (∀ p ∈ a, p.1 ≠ '\n') ∧ ((∃ q, Q = ('\n', l.ends) :: q) ∨ Q = [] ∧ l.ends = false) ∧
      Rel Q (movedRest common indent e.text z rest) := by
  induction h with
  | @last st a ha =>
    exact ⟨a, [], _, [], (List.append_nil a).symm, rfl, rfl, rfl, ha, .inr ⟨rfl, rfl⟩, hz⟩
  | @more st b a q ls ha h ih =>
    have hc' : Coherent (('\n', b) :: q) := hc.of_append
    have hw' : ∀ p ∈ q, isWhite p.1 = true → trail p.1 = true :=
      fun p hp => hw p (List.mem_append_right _ (List.mem_cons_of_mem _ hp))
    have hlast' : ∀ p, q.getLast? = some p → isWhite p.1 = false := by
      intro p hp
      refine hlast p ?_
      rw [List.getLast?_append, List.getLast?_cons, hp]
      rfl
    have hs' : Shared lead common ls.tail := fun l hl => hs l (List.mem_of_mem_tail hl)
    obtain ⟨a₂, Q, m, rest, rfl, rfl, htext, rfl, ha₂, hQ, hm⟩ :=
      ih (hc'.of_append (a := [('\n', b)])) hw' hlast' hs'
    obtain ⟨text, st', ends⟩ := m
    dsimp only at htext hQ hm ⊢ hc'
    subst htext
    refine ⟨a, _, _, _, rfl, rfl, rfl, rfl, ha, .inl ⟨_, rfl⟩, ?_⟩
    rw [movedRest, List.flatMap_cons, List.append_assoc]
    refine hR.break hm ha₂ hc' (fun p hp => hw' p (List.mem_append_left _ hp)) (ends_or hQ hlast')
      (fun hends => ?_) fun hst hblank => hs _ List.mem_cons_self hst hblank
    subst hends
    exact hQ.resolve_right fun h => Bool.noConfusion h.2

theorem Lines.trails (h : Lines st q ls) (hl : ∀ l ∈ ls, Fits lead trail l)
    (hn : trail '\n' = true) : ∀ p ∈ q, isWhite p.1 = true → trail p.1 = true := by
  induction h with
  | last =>
    exact fun p hp => (hl _ List.mem_cons_self).trail p.1 (List.mem_map_of_mem hp)
  | more ha h ih =>
    obtain ⟨hl, hls⟩ := List.forall_mem_cons.1 hl
    intro p hp
    rcases List.mem_append.1 hp with hp | hp
    · exact hl.trail p.1 (List.mem_map_of_mem hp)
    · rcases List.mem_cons.1 hp with rfl | hp
      · exact fun _ => hn
      · exact ih hls p hp

theorem Fits.indent_eq {l : Line} (h : Fits lead trail l)
    (hblank : ∀ c, lead c = true → isSpace c = true) (hb : l.text.isBlank = false) :
    l.indent = (l.text.takeWhile isWhite).length := by
  have hsplit := congrArg Text.byteSize
    (List.takeWhile_append_dropWhile (p := isWhite) (l := l.text))
  rw [Text.byteSize_append, byteSize_space fun c hc => hblank c (h.lead hb c hc)] at hsplit
  rw [indent, Text.trimStart]
  omega

theorem shared_commonIndent (hblank : ∀ c, lead c = true → isSpace c = true)
    (hl : ∀ l ∈ ls, Fits lead trail l) : Shared lead (commonIndent ls) ls := by
  intro l hmem hstarts hb
  have hle : commonIndent ls ≤ (l.text.takeWhile isWhite).length := by
    rw [← (hl l hmem).indent_eq hblank hb, commonIndent]
    have hmem : l.indent ∈ (ls.filter fun l => !l.starts && !l.text.isBlank).map indent :=
      List.mem_map_of_mem (List.mem_filter.2 ⟨hmem, by rw [hstarts, hb]; rfl⟩)
    cases hmin : ((ls.filter fun l => !l.starts && !l.text.isBlank).map indent).min? with
    | none =>
      rw [List.min?_eq_none_iff.1 hmin] at hmem
      cases hmem
    | some n => exact (List.min?_eq_some_iff.1 hmin).2 _ hmem
  refine ⟨l.text.take (commonIndent ls), l.text.drop (commonIndent ls),
    (List.take_append_drop ..).symm, ?_, fun c hc => (hl l hmem).lead hb c ?_⟩
  · rw [List.length_take]
    exact Nat.min_eq_left (Nat.le_trans hle (takeWhile_length_le ..))
  · have hprefix := List.prefix_of_prefix_length_le (List.take_prefix (commonIndent ls) l.text)
      (List.takeWhile_prefix isWhite) (by rw [List.length_take]; omega)
    exact hprefix.subset hc

end

end Line

namespace Lexer

variable {c : Char} {u t : Text} {ts : List Token} {k : TokenKind}

theorem getLast?_quotedSize? {q : Char} {n : Nat} (h : quotedSize? q t = some n) :
    (t.take n).getLast? = some q := by
  fun_induction quotedSize? q t generalizing n with
  | case1 => cases h
  | case2 => cases h
  | case3 d t ih =>
    obtain ⟨m, hm, rfl⟩ := Option.map_eq_some_iff.1 h
    rw [List.take_succ_cons, List.take_succ_cons, List.getLast?_cons, List.getLast?_cons, ih hm]
    rfl
  | case4 t =>
    cases h
    rfl
  | case5 d t _ _ _ ih =>
    obtain ⟨m, hm, rfl⟩ := Option.map_eq_some_iff.1 h
    rw [List.take_succ_cons, List.getLast?_cons, ih hm]
    rfl

/-- A string starts and ends with its quote. -/
theorem Rule.string_bounds (h : Rule c (u ++ t) k u.length) (hk : k = .string) :
    isWhite c = false ∧ (c :: u).getLast? = some c := by
  generalize hn : u.length = n at h
  cases h with
  | string hc hq =>
    have hlast := getLast?_quotedSize? hq
    rw [← hn, List.take_left] at hlast
    refine ⟨?_, ?_⟩
    · rcases hc with rfl | rfl | rfl <;> decide
    · rw [List.getLast?_cons, hlast]
      rfl
  | comment => split at hk <;> cases hk
  | _ => cases hk

theorem scan_string {m : Mode} (h : scan m c (u ++ t) = .ok (k, u.length)) (hk : k = .string) :
    isWhite c = false ∧ (c :: u).getLast? = some c := by
  cases m with
  | html =>
    simp only [scan, scanHtml, Except.ok.injEq] at h
    split at h <;> simp only [Prod.mk.injEq] at h <;> rw [← h.1] at hk <;> cases hk
  | code => exact (rule_of_scanCode h).string_bounds hk

/-- Of white space next to each other, all belongs to one string or none to a string. -/
theorem Reads.coherent {m : Mode} (h : Reads m ts t) : Line.Coherent (flags ts) := by
  have hflag : ∀ {k : TokenKind}, k ≠ .string → (k == .string) = false :=
    fun hk => beq_eq_false_iff_ne.2 hk
  induction h with
  | nil => exact .nil
  | @cons m c u t k ts hs hr ih =>
    rw [flags_cons, Line.Coherent, List.isChain_append]
    refine ⟨?_, ih, fun x hx y hy hxw hyw => ?_⟩
    · exact List.isChain_map_of_isChain _ (fun _ _ _ _ _ => rfl) (List.isChain_isInfix _)
    · have hxk : x.2 = false := by
        obtain ⟨d, hd, rfl⟩ := Option.map_eq_some_iff.1 ((List.getLast?_map ..).symm.trans hx)
        refine hflag fun hk => ?_
        obtain ⟨hw, hlast⟩ := scan_string hs hk
        obtain rfl : c = d := Option.some.inj (hlast.symm.trans hd)
        rw [hw] at hxw
        cases hxw
      cases hr with
      | nil => cases hy
      | cons hs' _ =>
        cases hy
        rw [hxk]
        refine (hflag fun hk => ?_).symm
        rw [(scan_string hs' hk).1] at hyw
        cases hyw

end Lexer

namespace Text

variable {c : Char} {t : Text}

theorem head_trimStart (h : t.trimStart.head? = some c) : isWhite c = false := by
  have := List.head?_dropWhile_not isWhite t
  rw [trimStart] at h
  rw [h] at this
  exact this

theorem getLast_trimEnd (h : t.trimEnd.getLast? = some c) : isWhite c = false := by
  rw [trimEnd, List.getLast?_reverse] at h
  exact head_trimStart h

theorem head_trim (h : t.trim.head? = some c) : isWhite c = false := by
  refine head_trimStart (t := t) ?_
  obtain ⟨w, hw⟩ := isPrefix_trimEnd t.trimStart
  rw [trim] at h
  rw [← hw, List.head?_append, h]
  rfl

theorem getLast_trim (h : t.trim.getLast? = some c) : isWhite c = false := getLast_trimEnd h

end Text

/-- Re-indenting trimmed code. -/
theorem Line.Reflows.reindent {lead trail : Char → Bool} {e : LineEnding} {indent s z : Text}
    {Rel : List (Char × Bool) → Text → Prop} {xs : List Token}
    (hR : Line.Reflows lead trail e indent Rel) (hn : trail '\n' = true) (h : lexCode s = .ok xs)
    (hl : ∀ l ∈ Line.ofCode s, Line.Fits lead trail l) (hs : s.trim = s) (hz : Rel [] z) :
    Rel (flags xs) (PhpGraft.reindent s indent e.text ++ z) := by
  have hfst : (flags xs).map Prod.fst = s := by rw [flags_fst, (reads_of_run h).spell]
  have hcoherent := (reads_of_run h).coherent
  have hquoted : Line.quotedChars s = flags xs := by
    rw [Line.quotedChars, h]
    rfl
  have hlines := Line.lines_split false (flags xs)
  rw [Line.ofCode, hquoted] at hl
  generalize hls : Line.split false (flags xs) = ls at hlines hl
  have hcode : Line.ofCode s.trim = ls := by rw [Line.ofCode, hs, hquoted, hls]
  have hlast : ∀ p, (flags xs).getLast? = some p → isWhite p.1 = false := by
    intro p hp
    refine Text.getLast_trim (t := s) ?_
    rw [hs, ← hfst, List.getLast?_map, hp]
    rfl
  have htrail := hlines.trails hl hn
  obtain ⟨a, Q, l, rest, hq, rfl, htext, hstarts, ha, hQ, hmoved⟩ := hlines.reflows hR hcoherent
    htrail hlast (Line.shared_commonIndent hR.blank fun l h => hl l (List.mem_of_mem_tail h)) hz
  obtain ⟨text, st, ends⟩ := l
  obtain rfl : text = a.map Prod.fst := htext
  dsimp only at hstarts hQ
  subst hstarts
  have hfirst : Rel (a ++ Q) (Line.trimmed ⟨a.map Prod.fst, false, ends⟩ ++
      Line.movedRest (Line.commonIndent rest) indent e.text z rest) := by
    rw [hq] at hcoherent htrail hlast
    exact hR.line hmoved ha hcoherent (fun p hp => htrail p (List.mem_append_left _ hp))
      (Line.ends_or hQ hlast) false
  rw [← hq] at hfirst
  have hstart : (Line.trimmed ⟨a.map Prod.fst, false, ends⟩).trimStart =
      Line.trimmed ⟨a.map Prod.fst, false, ends⟩ := by
    cases hct : a.map Prod.fst with
    | nil => cases ends <;> rfl
    | cons c t =>
      have hc : isWhite c = false := by
        refine Text.head_trim (t := s) ?_
        rw [hs, ← hfst, hq, List.map_append, hct]
        rfl
      have htrim : ∃ t', Line.trimmed ⟨c :: t, false, ends⟩ = c :: t' := by
        cases ends with
        | true => exact ⟨t, rfl⟩
        | false => exact ⟨_, Text.trimEnd_append_cons (s := []) hc⟩
      obtain ⟨t', ht⟩ := htrim
      rw [ht]
      exact Text.trimStart_append_cons (s := []) hc
  rw [Line.reindent_eq indent e.text hcode, hstart, List.append_assoc]
  exact hfirst

namespace Lexer

variable {stop t X : Text} {m : List (Char × Bool)} {c : Char}

/-- Moved code breaks the line where the code does. -/
theorem Moved.breaks (h : Moved stop (('\n', false) :: m) X) : Breaks X := by
  generalize hn : ('\n', false) :: m = n at h
  cases h with
  | done => cases hn
  | keep =>
    cases hn
    exact .inl ⟨_, rfl⟩
  | skip _ hne =>
    cases hn
    exact absurd rfl hne
  | feed => exact .inr ⟨_, rfl⟩
  | shift => exact .inl ⟨_, rfl⟩

theorem Moved.break (e : LineEnding) (h : Moved stop (('\n', false) :: m) ('\n' :: X)) :
    Moved stop (('\n', false) :: m) (e.text ++ X) := by
  cases e with
  | lf => exact h
  | crlf => exact h.feed (.inr rfl)

theorem Moved.reflows (e : LineEnding) {indent : Text} (hi : ∀ c ∈ indent, isIndent c = true)
    (stop : Text) : Line.Reflows isIndent isLayout e indent (Moved stop) where
  blank c hc := isSpace_of_isLayout (isLayout_of_isIndent hc)
  keep := .keep
  skip {w} m t hw h := by
    induction w with
    | nil => exact h
    | cons c w ih =>
      obtain ⟨⟨hl, hn⟩, hw⟩ := List.forall_mem_cons.1 hw
      exact (ih hw).skip hl hn h.breaks
  feed h := Moved.break e h.keep
  shift hi' h := Moved.break e (h.shift hi' hi)

end Lexer

namespace Line

theorem breaks_text (e : LineEnding) (t : Text) : Breaks (e.text ++ t) := by
  cases e with
  | lf => exact .inl ⟨t, rfl⟩
  | crlf => exact .inr ⟨t, rfl⟩

/-- Of a line that is not blank, the white space at its start is indentation. -/
theorem takeWhile_isWhite {t r : Text} (h : Text.isTidy (t ++ r) = true) (hn : '\n' ∉ t)
    (hb : t.isBlank = false) : ∀ c ∈ t.takeWhile isWhite, isIndent c = true := by
  induction t with
  | nil => exact List.forall_mem_nil _
  | cons c t ih =>
    obtain ⟨hc, ht⟩ := Text.isTidy_cons.1 h
    rw [List.mem_cons, not_or] at hn
    by_cases hw : isWhite c = true
    · have hb' : Text.isBlank t = false := by
        rw [Text.isBlank, List.all_cons, hw, Bool.true_and] at hb
        exact hb
      rw [List.takeWhile_cons_of_pos hw]
      refine List.forall_mem_cons.2 ⟨?_, ih ht hn.2 hb'⟩
      rcases hc hw with hi | rfl | ⟨rfl, hnext⟩
      · exact hi
      · exact absurd rfl hn.1
      · cases t with
        | nil => cases hb'
        | cons d t =>
          cases hnext
          exact absurd List.mem_cons_self hn.2
    · rw [List.takeWhile_cons_of_neg hw]
      exact List.forall_mem_nil _

theorem fits_of_isTidy {a : List (Char × Bool)} {r : Text} (ha : ∀ p ∈ a, p.1 ≠ '\n')
    (ht : Text.isTidy (a.map Prod.fst ++ r) = true) (st b : Bool) :
    Fits isIndent isLayout ⟨a.map Prod.fst, st, b⟩ := by
  have hn : '\n' ∉ a.map Prod.fst := by
    intro h
    obtain ⟨p, hp, hpn⟩ := List.mem_map.1 h
    exact ha p hp hpn
  exact ⟨fun c hc => Text.isLayout_of_isTidy ht (List.mem_append_left _ hc),
    takeWhile_isWhite ht hn⟩

theorem Lines.fits {st : Bool} {q : List (Char × Bool)} {ls : List Line} (h : Lines st q ls)
    (ht : Text.isTidy (q.map Prod.fst) = true) : ∀ l ∈ ls, Fits isIndent isLayout l := by
  induction h with
  | last ha =>
    exact List.forall_mem_singleton.2 (fits_of_isTidy (r := []) ha (by rwa [List.append_nil]) _ _)
  | more ha h ih =>
    rw [List.map_append, List.map_cons] at ht
    exact List.forall_mem_cons.2
      ⟨fits_of_isTidy ha ht _ _, ih (Text.isTidy_cons.1 (Text.isTidy_of_append ht)).2⟩

end Line

/-- What a trimmed statement is re-indented to is the statement, moved. -/
theorem moved_reindent {s : Text} {xs : List Token} (h : lexCode s = .ok xs) (ht : s.isTidy = true)
    (hs : s.trim = s) (e : LineEnding) {indent : Text}
    (hi : ∀ c ∈ indent, Lexer.isIndent c = true) {stop z : Text} (hz : Lexer.Moved stop [] z) :
    Lexer.Moved stop (Lexer.flags xs) (reindent s indent e.text ++ z) := by
  refine (Moved.reflows e hi stop).reindent rfl h ?_ hs hz
  refine (Line.lines_split false _).fits ?_
  rwa [Line.quotedChars_fst]

end PhpGraft
