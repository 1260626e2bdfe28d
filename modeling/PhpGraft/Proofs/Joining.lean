import PhpGraft.Proofs.Phrase

/-!
Entries joined by white space. The text of each entry is read as before, up to the line comment it
may end with: that takes a carriage return of the line break behind it.
-/
namespace PhpGraft

namespace Lexer

variable {w v t T : Text} {X zs : List Token}

/-! White space in front of code. -/

/-- White space as a token, if there is any. -/
def blank : Text → List Token
  | [] => []
  | c :: w => [⟨.whitespace, c :: w⟩]

theorem spell_blank (w : Text) : Token.spell (blank w) = w := by
  cases w <;> simp [blank, Token.spell]

theorem kind_blank (w : Text) : ∀ t ∈ blank w, t.kind = .whitespace := by
  cases w <;> simp [blank]

theorem Reads.blank (hw : ∀ c ∈ w, isSpace c = true) (hT : T.head?.any isSpace = false)
    (h : Reads .code X T) : Reads .code (blank w ++ X) (w ++ T) := by
  cases w with
  | nil => exact h
  | cons c w =>
    obtain ⟨hc, hw⟩ := List.forall_mem_cons.1 hw
    refine .cons (u := w) ?_ h
    have hrule := (Rule.whitespace (t := w ++ T) hc).scanCode_eq
    rwa [takeWhile_append_of_head hw hT] at hrule

theorem Rule.space {c : Char} {k : TokenKind} {n : Nat} (h : Rule c t k n) (hc : isSpace c = true) :
    k = .whitespace ∧ n = (t.takeWhile isSpace).length := by
  have := h.scanCode_eq.symm.trans (Rule.whitespace hc).scanCode_eq
  exact Prod.mk.inj (Except.ok.inj this)

theorem Rule.whitespace_space {c : Char} {u : Text} (h : Rule c (u ++ t) .whitespace u.length) :
    ∀ d ∈ c :: u, isSpace d = true := by
  generalize hk : TokenKind.whitespace = k at h
  generalize hn : u.length = n at h
  cases h with
  | whitespace hc => exact List.forall_mem_cons.2 ⟨hc, (takeWhile_append_eq hn).1⟩
  | comment => split at hk <;> cases hk
  | _ => cases hk

theorem Rule.closeTag_bounds {c : Char} {n : Nat} (h : Rule c t .closeTag n) : c = '?' ∧ 1 ≤ n := by
  generalize hk : TokenKind.closeTag = k at h
  cases h with
  | closeTag h => exact ⟨h.1, Nat.le_add_right 1 _⟩
  | comment => split at hk <;> cases hk
  | _ => cases hk

/-! What may follow a line comment. -/

theorem Rule.line {c : Char} {u : Text} (h : Rule c (u ++ t) .lineComment u.length) :
    ((c = '/' ∧ (u ++ t).startsWith ['/']) ∨ (c = '#' ∧ !(u ++ t).startsWith ['['])) ∧
      lineCommentSize (u ++ t) = u.length := by
  generalize hk : TokenKind.lineComment = k at h
  generalize hn : u.length = n at h
  cases h with
  | lineComment h => exact ⟨h, rfl⟩
  | comment => split at hk <;> cases hk
  | _ => cases hk

theorem lineCommentSize_cr {u : Text} (h : lineCommentSize (u ++ t) = u.length) (s : Text) :
    lineCommentSize (u ++ '\r' :: '\n' :: s) = u.length + 1 := by
  induction u with
  | nil =>
    rw [List.nil_append, lineCommentSize_cons (by decide) (by rintro s hc; cases hc)]
    simp [lineCommentSize]
  | cons c u ih =>
    obtain ⟨hn, hc, h⟩ := of_lineCommentSize_succ h
    have hc' : ∀ r, c = '?' → u ++ '\r' :: '\n' :: s ≠ '>' :: r := by
      intro r hq hu
      cases u with
      | nil => cases hu
      | cons d u => exact hc (u ++ t) hq (congrArg (· :: (u ++ t)) (List.cons.inj hu).1)
    rw [List.cons_append, lineCommentSize_cons hn hc', ih h]
    rfl

/-- How a line comment starts does not depend on what ends it. -/
theorem startsLine_congr {c : Char} {u r r' : Text} (hr : EndsLine r) (hr' : EndsLine r' ∨ Breaks r')
    (h : (c = '/' ∧ (u ++ r).startsWith ['/']) ∨ (c = '#' ∧ !(u ++ r).startsWith ['['])) :
    (c = '/' ∧ (u ++ r').startsWith ['/']) ∨ (c = '#' ∧ !(u ++ r').startsWith ['[']) := by
  cases u with
  | cons d u => simpa [startsWith_singleton] using h
  | nil =>
    rcases h with ⟨-, h⟩ | ⟨hc, -⟩
    · rcases hr with rfl | ⟨s, rfl⟩ | ⟨s, rfl⟩ <;> simp [startsWith_singleton] at h
    · refine .inr ⟨hc, ?_⟩
      rcases hr' with (rfl | ⟨s, rfl⟩ | ⟨s, rfl⟩) | ⟨s, rfl⟩ | ⟨s, rfl⟩ <;>
        simp [startsWith_singleton]

/-- A line comment in front of the end of a line, whose carriage return it takes. -/
theorem Reads.line (h : Reads .code (⟨.lineComment, v⟩ :: zs) t) (hw : ∀ c ∈ w, isSpace c = true)
    (hT : T.head?.any isSpace = false) (hend : EndsLine (w ++ T) ∨ Breaks (w ++ T))
    (hX : Reads .code X T) : ∃ v' w', (∀ c ∈ w', isSpace c = true) ∧ (w' = w ∨ w = '\r' :: w') ∧
      Reads .code (⟨.lineComment, v'⟩ :: (Lexer.blank w' ++ X)) (v ++ (w ++ T)) := by
  cases h with
  | @cons _ c u t _ _ hs hr =>
    obtain ⟨hstart, hsize⟩ := (rule_of_scanCode hs).line
    have hline := (rule_of_scanCode hs).endsLine rfl
    by_cases hends : EndsLine (w ++ T)
    · have hrule := Rule.lineComment (startsLine_congr hline (.inl hends) hstart)
      rw [lineCommentSize_append hsize hends] at hrule
      exact ⟨c :: u, w, hw, .inl rfl, .cons hrule.scanCode_eq (.blank hw hT hX)⟩
    · obtain ⟨s, hs⟩ : ∃ s, w ++ T = '\r' :: '\n' :: s := by
        rcases hend.resolve_left hends with ⟨s, hs⟩ | hs
        · exact absurd (.inr (.inl ⟨s, hs⟩)) hends
        · exact hs
      match w, hw with
      | [], _ =>
        obtain rfl : T = _ := hs
        cases hT
      | d :: w, hw =>
        obtain ⟨rfl, htail⟩ : d = '\r' ∧ w ++ T = '\n' :: s := List.cons.inj hs
        have hbreak : Breaks ('\r' :: '\n' :: s) := .inr ⟨s, rfl⟩
        have hrule := Rule.lineComment (startsLine_congr hline (.inr hbreak) hstart)
        rw [lineCommentSize_cr hsize] at hrule
        refine ⟨c :: (u ++ ['\r']), w, (List.forall_mem_cons.1 hw).2, .inr rfl, ?_⟩
        have hscan : scan .code c (u ++ ['\r'] ++ (w ++ T)) =
            .ok (.lineComment, (u ++ ['\r']).length) := by
          rw [htail, List.append_assoc, List.length_append]
          exact hrule.scanCode_eq
        have hcons := Reads.cons hscan (.blank (List.forall_mem_cons.1 hw).2 hT hX)
        rw [List.append_assoc] at hcons
        exact hcons

end Lexer

namespace Tokens

open Lexer

/-- What is printed of an entry: the white space in front of it, its code, and the comment that ends
its last line. -/
structure Part where
  gap : Text
  code : List Token
  note : List Token
  node : Node

namespace Part

def text (P : Part) : Text := P.gap ++ (Token.spell P.code ++ Token.spell P.note)

/-- The entry is read as its node behind other entries. -/
structure Sound (p : Place) (P : Part) : Prop where
  white : ∀ c ∈ P.gap, isSpace c = true
  phrase : Phrase p P.code P.node
  closed : ∃ xs z, P.code = xs ++ [⟨.punct, [z]⟩] ∧ isBarrier z = true
  reads : ∃ zs t, Reads .code (P.code ++ zs) t
  solid : (Token.spell P.code).head?.any isSpace = false
  calm : ∃ t, P.code.find? (·.kind.isCode) = some t ∧
    (t.kind = .name → t.text.lower ∉ continuations)
  note : P.note = [] ∨
    P.node.decl.isScope = false ∧ Note P.note ∧ ∃ zs t, Reads .code (P.note ++ zs) t
  inside : ∀ t ∈ P.code ++ P.note, t.kind.isOutside = false

/-- White space `w` and the tokens `Z`, which spell `T`, may follow the entry. -/
def Meets (P : Part) (w : Text) (Z : List Token) (T : Text) : Prop :=
  if P.note = [] then P.node.decl.isScope = false → Clear (blank w ++ Z)
  else EndsLine (w ++ T) ∨ Breaks (w ++ T)

/-- The one entry may follow the other. -/
def Links (P Q : Part) : Prop :=
  if P.note = [] then P.node.decl.isScope = false →
    '\n' ∈ Q.gap ∨ ∀ t, Q.code.head? = some t → t.kind ≠ .lineComment
  else Breaks Q.gap

/-- Each entry may follow the one in front of it, and the end the last of them. -/
def Linked (w : Text) (Z : List Token) (T : Text) : List Part → Prop
  | [] => True
  | [P] => P.Meets w Z T
  | P :: Q :: ps => P.Links Q ∧ Linked w Z T (Q :: ps)

end Part

/-- Tokens of entries and of what stands behind them, read from a text that starts with no white
space. -/
structure Follows (p : Place) (rest : List Token) (cs : List Chunk) (T : Text) : Prop where
  solid : T.head?.any isSpace = false
  reads : Reads .code (Chunk.all cs ++ rest) T
  fit : Chunk.Fit p rest cs
  calm : Calm (Chunk.all cs ++ rest)
  inside : ∀ t ∈ Chunk.all cs, t.kind.isOutside = false

variable {p : Place} {rest Z : List Token} {cs : List Chunk} {T w : Text} {P Q : Part}

theorem Part.Sound.code_ne (h : P.Sound p) : P.code ≠ [] := by
  obtain ⟨xs, z, hcode, -⟩ := h.closed
  rw [hcode]
  exact List.append_ne_nil_of_right_ne_nil _ (List.cons_ne_nil _ _)

theorem Part.Sound.calm_append (h : P.Sound p) (X : List Token) : Calm (P.code ++ X) := by
  obtain ⟨t, hfind, hcalm⟩ := h.calm
  intro t' ht'
  rw [List.find?_append, hfind, Option.some_or] at ht'
  cases ht'
  exact hcalm

theorem Part.Sound.reads_code (h : P.Sound p) {X : List Token} {t : Text} (hX : Reads .code X t) :
    Reads .code (P.code ++ X) (Token.spell P.code ++ t) := by
  obtain ⟨xs, z, hcode, hz⟩ := h.closed
  obtain ⟨zs, s, hreads⟩ := h.reads
  have hspell : Token.spell P.code = Token.spell xs ++ [z] := by
    rw [hcode]
    simp [Token.spell]
  rw [hcode, List.append_assoc, List.singleton_append] at hreads
  rw [hspell, hcode, List.append_assoc, List.append_assoc]
  exact hreads.barrier hz hX

theorem not_isSpace_line (h : Reads .code (⟨.lineComment, v⟩ :: zs) t) (s : Text) :
    (v ++ s).head?.any isSpace = false := by
  cases h with
  | cons hs hr =>
    refine Bool.eq_false_iff.2 fun hc => ?_
    cases ((rule_of_scanCode hs).space hc).1

/-- A line comment behind an entry, in front of other white space. -/
theorem Note.reads {n X : List Token} {s : Text} (hn : Note n) (h : Reads .code (n ++ X) s)
    (hw : ∀ c ∈ w, isSpace c = true) (hT : T.head?.any isSpace = false)
    (hend : EndsLine (w ++ T) ∨ Breaks (w ++ T)) (hZ : Reads .code Z T) :
    ∃ note w', Note note ∧ (∀ c ∈ w', isSpace c = true) ∧ (w' = w ∨ w = '\r' :: w') ∧
      (∀ t ∈ note, t.kind.isOutside = false) ∧
      Reads .code (note ++ (blank w' ++ Z)) (Token.spell n ++ (w ++ T)) := by
  cases hn with
  | near v =>
    obtain ⟨v', w', hw', hcr, hr⟩ := h.line hw hT hend hZ
    exact ⟨_, w', .near v', hw', hcr, by simp [TokenKind.isOutside], by simpa [Token.spell] using hr⟩
  | @apart g v hg =>
    cases h with
    | @cons _ c u s _ _ hs hr =>
      obtain ⟨v', w', hw', hcr, hr'⟩ := hr.line hw hT hend hZ
      have hrule := rule_of_scanCode hs
      have hspace := hrule.whitespace_space
      refine ⟨_, w', .apart v' hg, hw', hcr, by simp [TokenKind.isOutside], ?_⟩
      have hblank := Reads.blank hspace (not_isSpace_line hr (w ++ T)) hr'
      simpa [Token.spell, Lexer.blank] using hblank

/-- What is read of the entry in front of white space `w`. -/
structure Part.Reread (P : Part) (w : Text) (c : Chunk) : Prop where
  code : c.code = P.code
  node : c.node = P.node
  seam : Token.spell c.note ++ Token.spell c.gap = Token.spell P.note ++ w
  /-- Only the comment behind the entry takes a carriage return from the white space. -/
  gap : P.note = [] ∨ w.head? ≠ some '\r' → Token.spell c.gap = w
  line : '\n' ∈ w → '\n' ∈ Token.spell c.gap

/-- An entry in front of what follows it. -/
theorem Follows.cons (h : Follows p rest cs T) (hP : P.Sound p) (hw : ∀ c ∈ w, isSpace c = true)
    (hm : P.Meets w (Chunk.all cs ++ rest) T) :
    ∃ c, P.Reread w c ∧
      Follows p rest (c :: cs) (Token.spell P.code ++ (Token.spell P.note ++ (w ++ T))) := by
  have hsolid : ∀ s, (Token.spell P.code ++ s).head?.any isSpace = false := by
    intro s
    obtain ⟨xs, z, hcode, -⟩ := hP.closed
    have hsolid := hP.solid
    cases hs : Token.spell P.code with
    | nil => simp [hcode, Token.spell] at hs
    | cons d s =>
      rw [hs] at hsolid
      exact hsolid
  have hcalm : ∀ (c : Chunk), c.code = P.code → Calm (Chunk.all (c :: cs) ++ rest) := by
    intro c hc
    simp only [Chunk.all, List.flatMap_cons, Chunk.tokens, hc, List.append_assoc]
    exact hP.calm_append _
  have hinside : ∀ (c : Chunk), c.code = P.code → (∀ t ∈ c.note, t.kind.isOutside = false) →
      (∀ t ∈ c.gap, t.kind = .whitespace) →
      ∀ t ∈ Chunk.all (c :: cs), t.kind.isOutside = false := by
    intro c hcode hnote hgap t ht
    simp only [Chunk.all, List.flatMap_cons, Chunk.tokens, hcode, List.mem_append] at ht
    rcases ht with (ht | ht | ht) | ht
    · exact hP.inside t (List.mem_append_left _ ht)
    · exact hnote t ht
    · rw [hgap t ht]
      rfl
    · exact h.inside t ht
  have hall : ∀ c : Chunk, Chunk.all (c :: cs) ++ rest =
      c.code ++ (c.note ++ (c.gap ++ (Chunk.all cs ++ rest))) := by
    intro c
    simp only [Chunk.all, List.flatMap_cons, Chunk.tokens, List.append_assoc]
  unfold Part.Meets at hm
  split at hm
  · rename_i hnil
    have hgap : Token.spell (blank w) = w := spell_blank w
    refine ⟨⟨P.code, [], blank w, P.node⟩, ⟨rfl, rfl, by rw [hnil, hgap], fun _ => hgap,
      fun hline => by rwa [hgap]⟩, hsolid _, ?_,
      ⟨⟨hP.phrase, .inl ⟨rfl, hm⟩, kind_blank w, h.calm⟩, h.fit⟩, hcalm _ rfl,
      hinside _ rfl (List.forall_mem_nil _) (kind_blank w)⟩
    rw [hall, hnil]
    exact hP.reads_code (.blank hw h.solid h.reads)
  · rename_i hne
    obtain ⟨-, hnote₀, _, _, hreads₀⟩ := hP.note.resolve_left hne
    obtain ⟨note, w', hnote, hw', hcr, hin, hreads⟩ := hnote₀.reads hreads₀ hw h.solid hm h.reads
    have hgap : Token.spell (blank w') = w' := spell_blank w'
    have hspell := hreads.spell
    rw [spell_append, spell_append, hgap, h.reads.spell, ← List.append_assoc, ← List.append_assoc] at hspell
    refine ⟨⟨P.code, note, blank w', P.node⟩, ⟨rfl, rfl, ?_, fun hcase => ?_, fun hline => ?_⟩, hsolid _, ?_,
      ⟨⟨hP.phrase, .inr ⟨hnote, (hP.note.resolve_left hne).1⟩, kind_blank w', h.calm⟩, h.fit⟩,
      hcalm _ rfl, hinside _ rfl hin (kind_blank w')⟩
    · rw [hgap]
      exact List.append_cancel_right hspell
    · rw [hgap]
      refine hcr.resolve_right fun he => (hcase.resolve_left hne) ?_
      rw [he]
      rfl
    · rw [hgap]
      rcases hcr with rfl | rfl
      · exact hline
      · exact (List.mem_cons.1 hline).resolve_left (by decide)
    · rw [hall]
      exact hP.reads_code hreads

theorem Part.Sound.kind_head (h : P.Sound p) {t : Token} (ht : P.code.head? = some t) :
    t.kind ≠ .whitespace := by
  obtain ⟨zs, s, hreads⟩ := h.reads
  have hsolid := h.solid
  cases hcode : P.code with
  | nil =>
    rw [hcode] at ht
    cases ht
  | cons t' code =>
    rw [hcode] at ht hreads hsolid
    cases ht
    intro hk
    cases hreads with
    | @cons _ c u s k _ hs hr =>
      have hrule := rule_of_scanCode hs
      cases hk
      have hspace := hrule.whitespace_space
      rw [Token.spell, List.flatMap_cons, List.cons_append, List.head?_cons, Option.any_some,
        hspace c List.mem_cons_self] at hsolid
      cases hsolid

theorem Part.Links.meets (h : P.Links Q) (hQ : Q.Sound p) (Z : List Token) (T : Text) :
    P.Meets Q.gap (Q.code ++ Z) T := by
  unfold Part.Links at h
  unfold Part.Meets
  split at h
  · rename_i hnil
    rw [if_pos hnil]
    intro hscope n hn hpre
    obtain ⟨t, code, hcode⟩ := List.exists_cons_of_ne_nil hQ.code_ne
    have hspace := hQ.kind_head (t := t) (by rw [hcode]; rfl)
    rw [hcode] at hpre h
    rcases h hscope with hline | hhead
    · cases hg : Q.gap with
      | nil =>
        rw [hg] at hline
        cases hline
      | cons c g =>
        rw [hg] at hpre hline
        cases hn with
        | near => cases (List.cons_prefix_cons.1 hpre).1
        | apart v hw =>
          cases (List.cons_prefix_cons.1 hpre).1
          rw [List.contains_iff_mem.2 hline] at hw
          cases hw
    · have hkind := hhead t rfl
      cases hg : Q.gap with
      | nil =>
        rw [hg] at hpre
        cases hn with
        | near =>
          cases (List.cons_prefix_cons.1 hpre).1
          exact hkind rfl
        | apart v hw =>
          cases (List.cons_prefix_cons.1 hpre).1
          exact hspace rfl
      | cons c g =>
        rw [hg] at hpre
        cases hn with
        | near => cases (List.cons_prefix_cons.1 hpre).1
        | apart v hw =>
          cases (List.cons_prefix_cons.1 (List.cons_prefix_cons.1 hpre).2).1
          exact hkind rfl
  · rename_i hne
    rw [if_neg hne]
    right
    rcases h with ⟨s, hs⟩ | ⟨s, hs⟩
    · exact .inl ⟨s ++ T, by rw [hs]; rfl⟩
    · exact .inr ⟨s ++ T, by rw [hs]; rfl⟩

/-- The white space in front of the entries, or `w` where there are none. -/
def Part.firstGap (w : Text) : List Part → Text
  | [] => w
  | P :: _ => P.gap

/-- What is read of entries one behind the other, in front of white space `w`. -/
inductive Part.RereadAll (w : Text) : List Part → List Chunk → Prop
  | nil : RereadAll w [] []
  | cons {P : Part} {c : Chunk} {ps : List Part} {cs : List Chunk} :
      P.Reread (Part.firstGap w ps) c → RereadAll w ps cs → RereadAll w (P :: ps) (c :: cs)

namespace Part.RereadAll

variable {ps qs : List Part}

theorem map (h : RereadAll w ps cs) :
    cs.map (fun c => (c.code, c.node)) = ps.map (fun P => (P.code, P.node)) := by
  induction h with
  | nil => rfl
  | cons hc _ ih => rw [List.map_cons, List.map_cons, ih, hc.code, hc.node]

/-- Behind the white space in front of the first entry stands what is read of them. -/
theorem spell (h : RereadAll w ps cs) :
    firstGap w ps ++ Token.spell (Chunk.all cs) = ps.flatMap Part.text ++ w := by
  induction h with
  | nil => exact List.append_nil w
  | @cons P c ps cs hc _ ih =>
    have hseam := hc.seam
    rw [Chunk.all, List.flatMap_cons, Chunk.tokens, spell_append, spell_append, spell_append,
      List.flatMap_cons, Part.text, hc.code, hseam]
    change P.gap ++ (_ ++ _ ++ Token.spell (Chunk.all cs)) = _
    simp only [List.append_assoc, ih]

theorem split (h : RereadAll w (ps ++ P :: qs) cs) : ∃ xs c ys, cs = xs ++ c :: ys ∧
    xs.length = ps.length ∧ P.Reread (firstGap w qs) c ∧ RereadAll w qs ys ∧
      RereadAll P.gap ps xs := by
  induction ps generalizing cs with
  | nil =>
    cases h with
    | cons hc hcs => exact ⟨[], _, _, rfl, rfl, hc, hcs, .nil⟩
  | cons Q ps ih =>
    cases h with
    | @cons _ d _ cs hc hcs =>
      obtain ⟨xs, c, ys, rfl, hlen, hread, hback, hfront⟩ := ih hcs
      refine ⟨d :: xs, c, ys, rfl, congrArg Nat.succ hlen, hread, hback, .cons ?_ hfront⟩
      cases ps <;> exact hc

end Part.RereadAll

/-- Entries one behind the other, in front of what follows the last of them. -/
theorem follows_of_parts {ps : List Part} (hps : ∀ P ∈ ps, P.Sound p) (h : Follows p rest [] T)
    (hw : ∀ c ∈ w, isSpace c = true) (hl : Part.Linked w rest T ps) :
    ∃ cs w' T', Follows p rest cs T' ∧
      Part.RereadAll w ps cs ∧ (∀ c ∈ w', isSpace c = true) ∧ w' ++ T' = ps.flatMap Part.text ++ (w ++ T) ∧
      ∀ Q ∈ ps.head?, w' = Q.gap ∧ ∃ Z, Chunk.all cs ++ rest = Q.code ++ Z := by
  induction ps with
  | nil => exact ⟨[], w, T, h, .nil, hw, rfl, nofun⟩
  | cons P ps ih =>
    obtain ⟨hP, hps⟩ := List.forall_mem_cons.1 hps
    have hrest : ∃ cs w' T', Follows p rest cs T' ∧
        Part.RereadAll w ps cs ∧ w' = Part.firstGap w ps ∧
        (∀ c ∈ w', isSpace c = true) ∧ w' ++ T' = ps.flatMap Part.text ++ (w ++ T) ∧
        P.Meets w' (Chunk.all cs ++ rest) T' := by
      cases ps with
      | nil => exact ⟨[], w, T, h, .nil, rfl, hw, rfl, hl⟩
      | cons Q ps =>
        obtain ⟨cs, w', T', hcs, hall, hw', htext, hhead⟩ := ih hps hl.2
        obtain ⟨rfl, Z, hZ⟩ := hhead Q rfl
        refine ⟨cs, Q.gap, T', hcs, hall, rfl, hw', htext, ?_⟩
        rw [hZ]
        exact hl.1.meets (hps Q List.mem_cons_self) Z T'
    obtain ⟨cs, w', T', hcs, hall, rfl, hw', htext, hm⟩ := hrest
    obtain ⟨c, hc, hcons⟩ := hcs.cons hP hw' hm
    refine ⟨c :: cs, P.gap, _, hcons, .cons hc hall, hP.white, ?_, ?_⟩
    · rw [htext, List.flatMap_cons, Part.text]
      simp only [List.append_assoc]
    · rintro Q ⟨⟩
      refine ⟨rfl, c.note ++ c.gap ++ (Chunk.all cs ++ rest), ?_⟩
      simp only [Chunk.all, List.flatMap_cons, Chunk.tokens, hc.code, List.append_assoc]

end Tokens
end PhpGraft
