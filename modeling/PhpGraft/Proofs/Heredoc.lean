import PhpGraft.Proofs.Sentence

/-!
Heredocs, line by line. A heredoc that is moved to another indentation keeps its label; the lines of
its value keep all but the white space at their end, and get the line breaks of the new place.
-/
namespace PhpGraft

open Lexer

/-- Without as much indentation, as far as the line has it. -/
def Text.dedent (n : Nat) (t : Text) : Text := t.drop (min n (t.takeWhile isIndent).length)

/-- The line that opens a heredoc, those in front of the closing label, the indentation of the label,
and the label. -/
structure Heredoc where
  opening : Text
  lines : List Text
  indent : Text
  label : Text

namespace Heredoc

def ofText (t : Text) : Heredoc :=
  let ls := t.splitOn '\n'
  let closing := ls.getLastD []
  ⟨ls.headD [], ls.tail.dropLast, closing.takeWhile isIndent, closing.dropWhile isIndent⟩

def text (h : Heredoc) : Text :=
  h.opening ++ '\n' :: (h.lines.flatMap (· ++ ['\n']) ++ (h.indent ++ h.label))

/-- The lines of the value: those of the code without the indentation of the closing label. -/
def content (h : Heredoc) : List Text := h.lines.map (·.dedent h.indent.length)

def value (h : Heredoc) : Text := h.content.flatMap (· ++ ['\n'])

/-- What makes it possible to find the parts again in the text. -/
structure Valid (h : Heredoc) : Prop where
  opening : '\n' ∉ h.opening
  lines : ∀ l ∈ h.lines, '\n' ∉ l
  indent : ∀ c ∈ h.indent, isIndent c = true
  nonempty : h.label ≠ []
  name : ∀ c ∈ h.label, isNameChar c = true

end Heredoc

namespace Text

variable {s t u : Text} {ls : List Text} {c : Char}

theorem splitOn_flatMap (hls : ∀ l ∈ ls, c ∉ l) (hs : c ∉ s) :
    splitOn c (ls.flatMap (· ++ [c]) ++ s) = ls ++ [s] := by
  induction ls with
  | nil => exact splitOn_of_not_mem hs
  | cons l ls ih =>
    obtain ⟨hl, hls⟩ := List.forall_mem_cons.1 hls
    rw [List.flatMap_cons, List.append_assoc, List.append_assoc, List.singleton_append,
      splitOn_append_cons hl, ih hls]
    rfl

/-- Two ways to cut a text are the same if as much stands in front of the cut and it is in front of
something that is no white space. -/
theorem cut_unique {p p' r r' : Text} (h : p ++ r = p' ++ r') (hs : p.solid = p'.solid)
    (hr : ∃ c t, r = c :: t ∧ isWhite c = false) (hr' : ∃ c t, r' = c :: t ∧ isWhite c = false) :
    p = p' ∧ r = r' := by
  have hnil : ∀ {a r r' : Text}, r = a ++ r' → a.solid = [] →
      (∃ c t, r = c :: t ∧ isWhite c = false) → a = [] := by
    rintro (_ | ⟨d, a⟩) r r' h ha ⟨c, t, hc, hw⟩
    · rfl
    · obtain ⟨rfl, -⟩ := List.cons.inj (h.symm.trans hc)
      exact absurd ha (solid_ne_nil hw)
  rcases List.append_eq_append_iff.1 h with ⟨a, rfl, ha⟩ | ⟨a, rfl, ha⟩
  · rw [solid_append, List.self_eq_append_right] at hs
    obtain rfl := hnil ha hs hr
    exact ⟨(List.append_nil p).symm, ha⟩
  · rw [solid_append, List.append_right_eq_self] at hs
    obtain rfl := hnil ha hs hr'
    exact ⟨List.append_nil p', ha.symm⟩

theorem cut_unique_behind {p p' r r' : Text} (h : p ++ r = p' ++ r') (hs : p.solid = p'.solid)
    (hp : ∃ c, p.getLast? = some c ∧ isWhite c = false)
    (hp' : ∃ c, p'.getLast? = some c ∧ isWhite c = false) : p = p' ∧ r = r' := by
  have hhead : ∀ {p : Text}, (∃ c, p.getLast? = some c ∧ isWhite c = false) →
      ∃ c t, p.reverse = c :: t ∧ isWhite c = false := by
    rintro p ⟨c, hc, hw⟩
    rw [← List.head?_reverse] at hc
    obtain ⟨t, ht⟩ := List.head?_eq_some_iff.1 hc
    exact ⟨c, t, ht, hw⟩
  have hall := congrArg solid h
  rw [solid_append, solid_append, hs] at hall
  have hrev : r.reverse ++ p.reverse = r'.reverse ++ p'.reverse := by
    rw [← List.reverse_append, h, List.reverse_append]
  obtain ⟨hr, hp⟩ := cut_unique hrev
    (by rw [solid_reverse, solid_reverse, List.append_cancel_left hall]) (hhead hp) (hhead hp')
  exact ⟨List.reverse_inj.1 hp, List.reverse_inj.1 hr⟩

end Text

namespace Lexer

variable {label w r : Text} {b : Bool}

/-- The lines of a heredoc up to its closing label. -/
theorem lines_of_heredocBody? (hne : label ≠ []) (h : heredocBody? label b (w ++ r) = some w.length) :
    ∃ (ls : List Text) (j : Text), w = ls.flatMap (· ++ ['\n']) ++ (j ++ label) ∧ (∀ l ∈ ls, '\n' ∉ l) ∧
      (∀ c ∈ j, isIndent c = true) ∧ (b = false → ls ≠ []) := by
  induction w generalizing b with
  | nil => exact absurd (heredocBody?_pos hne h) (Nat.lt_irrefl 0)
  | cons c w ih =>
    rw [List.cons_append, heredocBody?_cons] at h
    split at h
    · rename_i hclose
      obtain ⟨hb, hclose⟩ := Bool.and_eq_true_iff.1 hclose
      obtain ⟨hw, -⟩ := eq_of_closesHeredoc (w := c :: w) hclose (Option.some.inj h)
      exact ⟨[], _, hw, List.forall_mem_nil _, List.all_eq_true.1 List.all_takeWhile,
        fun hb' => by rw [hb] at hb'; cases hb'⟩
    · obtain ⟨m, hm, hlen⟩ := Option.map_eq_some_iff.1 h
      obtain ⟨ls, j, rfl, hls, hj, hfirst⟩ := ih (hm.trans (congrArg some (Nat.succ.inj hlen)))
      by_cases hc : c = '\n'
      · subst hc
        exact ⟨[] :: ls, j, rfl, List.forall_mem_cons.2 ⟨List.not_mem_nil, hls⟩, hj,
          fun _ => List.cons_ne_nil _ _⟩
      · -- still on the line that the character belongs to
        obtain ⟨l, ls, rfl⟩ := List.exists_cons_of_ne_nil (hfirst (beq_eq_false_iff_ne.2 hc))
        obtain ⟨hl, hls⟩ := List.forall_mem_cons.1 hls
        refine ⟨(c :: l) :: ls, j, rfl, List.forall_mem_cons.2 ⟨?_, hls⟩, hj,
          fun _ => List.cons_ne_nil _ _⟩
        rw [List.mem_cons, not_or]
        exact ⟨Ne.symm hc, hl⟩

/-- What is read as a heredoc, the label on its first line as on its last one. -/
theorem exists_heredoc {u : Text} (h : heredocSize (u ++ r) = .ok u.length) :
    ∃ d : Heredoc, d.Valid ∧ '<' :: '<' :: '<' :: u = d.text ∧
      ∃ i q w, d.opening = '<' :: '<' :: '<' :: (i ++ (q ++ (d.label ++ w))) := by
  obtain ⟨i, q, label, w, rfl, hopens, hbody⟩ := heredocSize_split h
  obtain ⟨ls, j, rfl, hls, hj, hfirst⟩ := lines_of_heredocBody? hopens.nonempty hbody
  obtain ⟨l, ls, rfl⟩ := List.exists_cons_of_ne_nil (hfirst rfl)
  obtain ⟨hl, hls⟩ := List.forall_mem_cons.1 hls
  refine ⟨⟨'<' :: '<' :: '<' :: (i ++ (q ++ (label ++ l))), ls, j, label⟩,
    ⟨?_, hls, hj, hopens.nonempty, hopens.name⟩, ?_, i, q, l, rfl⟩
  · have hi : '\n' ∉ i := fun hn => ne_newline_of_isIndent (hopens.blank _ hn) rfl
    have hq : '\n' ∉ q := by rcases hopens.quotes with rfl | rfl | rfl <;> decide
    have hlabel : '\n' ∉ label := fun hn =>
      ne_of_isNameChar (hopens.name _ hn) (by decide : isNameChar '\n' = false) rfl
    simp [hi, hq, hlabel, hl]
  · simp [Heredoc.text]

end Lexer

namespace Heredoc

variable {h : Heredoc}

theorem getLast?_text (h : Heredoc) (hne : h.label ≠ []) : h.text.getLast? = h.label.getLast? := by
  rw [text, ← List.singleton_append, List.getLast?_append, List.getLast?_append, List.getLast?_append,
    List.getLast?_append, List.getLast?_eq_some_getLast hne]
  rfl

theorem Valid.closing (hv : h.Valid) : '\n' ∉ h.indent ++ h.label := by
  rw [List.mem_append, not_or]
  exact ⟨fun hn => ne_newline_of_isIndent (hv.indent _ hn) rfl, fun hn =>
    ne_of_isNameChar (hv.name _ hn) (by decide : isNameChar '\n' = false) rfl⟩

theorem Valid.ofText_text (hv : h.Valid) : ofText h.text = h := by
  obtain ⟨hi, hl⟩ := takeWhile_isIndent hv.indent hv.nonempty hv.name []
  rw [List.append_nil] at hi hl
  rw [List.append_nil] at hl
  rw [ofText, text, Text.splitOn_append_cons hv.opening, Text.splitOn_flatMap hv.lines hv.closing]
  have hlast : (h.opening :: (h.lines ++ [h.indent ++ h.label])).getLastD [] = h.indent ++ h.label := by
    rw [List.getLastD_cons, List.getLastD_eq_getLast?, List.getLast?_append]
    rfl
  simp only [hlast, hi, hl, List.headD_cons, List.tail_cons, List.dropLast_concat]

end Heredoc

namespace Line

variable {a A q : List (Char × Bool)} {st : Bool} {l : Line} {ls : List Line}

theorem split_line (ha : ∀ p ∈ a, p.1 ≠ '\n') (st b : Bool) (q : List (Char × Bool)) :
    split st (a ++ ('\n', b) :: q) = ⟨a.map Prod.fst, st, b⟩ :: split b q := by
  induction a with
  | nil => rfl
  | cons p a ih =>
    obtain ⟨hp, ha⟩ := List.forall_mem_cons.1 ha
    rw [List.cons_append, split.eq_3 _ _ _ _ hp, ih ha]
    rfl

theorem split_front (ha : ∀ p ∈ a, p.1 ≠ '\n') (h : split st q = l :: ls) :
    split st (a ++ q) = { l with text := a.map Prod.fst ++ l.text } :: ls := by
  induction a with
  | nil => exact h
  | cons p a ih =>
    obtain ⟨hp, ha⟩ := List.forall_mem_cons.1 ha
    rw [List.cons_append, split.eq_3 _ _ _ _ hp, ih ha]
    rfl

theorem exists_split (st : Bool) (q : List (Char × Bool)) :
    ∃ t b ls, split st q = ⟨t, st, b⟩ :: ls := by
  have h := lines_split st q
  generalize split st q = ls at h
  cases h with
  | last => exact ⟨_, _, _, rfl⟩
  | more => exact ⟨_, _, _, rfl⟩

/-- The lines of the code in front, the last of which goes on with what follows. -/
theorem split_append (st : Bool) (A : List (Char × Bool)) : ∃ L x st',
    Text.solid (L.flatMap Line.text) ++ Text.solid x = Text.solid (A.map Prod.fst) ∧
    ∀ {q l ls}, split st' q = l :: ls →
      split st (A ++ q) = L ++ { l with text := x ++ l.text } :: ls := by
  induction A generalizing st with
  | nil => exact ⟨[], [], st, rfl, fun h => h⟩
  | cons p A ih =>
    obtain ⟨c, b⟩ := p
    by_cases hc : c = '\n'
    · subst hc
      obtain ⟨L, x, st', hsolid, hsplit⟩ := ih b
      refine ⟨⟨[], st, b⟩ :: L, x, st', ?_, fun h => ?_⟩
      · rw [List.flatMap_cons, List.nil_append, hsolid, List.map_cons, Text.solid_cons_white rfl]
      · rw [List.cons_append, split.eq_2, hsplit h]
        rfl
    · obtain ⟨L, x, st', hsolid, hsplit⟩ := ih st
      rw [List.map_cons, ← List.singleton_append, Text.solid_append, ← hsolid]
      cases L with
      | nil =>
        refine ⟨[], c :: x, st', ?_, fun h => ?_⟩
        · rw [← List.singleton_append (l := x), Text.solid_append]
          rfl
        · rw [List.cons_append, split.eq_3 _ _ _ _ hc, hsplit h]
          rfl
      | cons m L =>
        refine ⟨{ m with text := c :: m.text } :: L, x, st', ?_, fun h => ?_⟩
        · rw [List.flatMap_cons, List.flatMap_cons, Text.solid_append, Text.solid_append,
            ← List.singleton_append (l := m.text), Text.solid_append, List.append_assoc,
            List.append_assoc, List.append_assoc]
        · rw [List.cons_append, split.eq_3 _ _ _ _ hc, hsplit h]
          rfl

theorem split_lines {ls : List Text} (hls : ∀ l ∈ ls, '\n' ∉ l) (q : List (Char × Bool)) :
    split false (plain (ls.flatMap (· ++ ['\n'])) ++ q) =
      ls.map (⟨·, false, false⟩) ++ split false q := by
  induction ls with
  | nil => rfl
  | cons l ls ih =>
    obtain ⟨hl, hls⟩ := List.forall_mem_cons.1 hls
    have hne : ∀ p ∈ plain l, p.1 ≠ '\n' := by
      intro p hp hn
      obtain ⟨c, hc, rfl⟩ := List.mem_map.1 hp
      exact hl (hn ▸ hc)
    have hcons := split_line hne false false (plain (ls.flatMap (· ++ ['\n'])) ++ q)
    rw [plain_fst, ih hls] at hcons
    rw [List.flatMap_cons, plain_append, plain_append, List.append_assoc, List.append_assoc]
    exact hcons

section

variable {common : Nat} {indent newline x y o i t label j : Text} {c : Char} {b : Bool}

theorem eq_append_of_indent (h : x ++ c :: o = i ++ t) (hi : ∀ d ∈ i, isIndent d = true)
    (hc : isIndent c = false) : ∃ y, x = i ++ y ∧ t = y ++ c :: o := by
  rcases List.append_eq_append_iff.1 h with ⟨a, rfl, ha⟩ | ⟨a, rfl, ha⟩
  · cases a with
    | nil => exact ⟨[], by simp, ha.symm⟩
    | cons d a =>
      obtain ⟨rfl, -⟩ := List.cons.inj ha
      rw [hi c (by simp)] at hc
      cases hc
  · exact ⟨a, rfl, ha⟩

theorem solid_indent (hi : ∀ c ∈ i, isIndent c = true) : i.solid = [] :=
  Text.solid_eq_nil.2 (List.all_eq_true.2 fun c hc =>
    isWhite_of_isSpace (isSpace_of_isLayout (isLayout_of_isIndent (hi c hc))))

theorem solid_trimmed (l : Line) : l.trimmed.solid = l.text.solid := by
  unfold trimmed
  split
  · rfl
  · exact Text.solid_trimEnd l.text

/-- Starts with the white space that the lines have in common. -/
def Deep (common : Nat) (t : Text) : Prop :=
  t.isBlank = false → ∃ i u, t = i ++ u ∧ i.length = common ∧ ∀ c ∈ i, isIndent c = true

theorem dropBytes?_indent (hi : ∀ c ∈ i, isIndent c = true) (t : Text) :
    Text.dropBytes? i.length (i ++ t) = some t :=
  dropBytes?_space (fun c hc => isSpace_of_isLayout (isLayout_of_isIndent (hi c hc))) t

theorem isBlank_append (hi : ∀ c ∈ i, isIndent c = true) (t : Text) :
    Text.isBlank (i ++ t) = Text.isBlank t := by
  rw [Bool.eq_iff_iff, ← Text.solid_eq_nil, ← Text.solid_eq_nil, Text.solid_append, solid_indent hi,
    List.nil_append]

theorem isBlank_trimmed (l : Line) : l.trimmed.isBlank = l.text.isBlank := by
  rw [Bool.eq_iff_iff, ← Text.solid_eq_nil, ← Text.solid_eq_nil, solid_trimmed]

variable (hindent : indent.solid = []) (hnewline : newline.solid = [])
include hindent hnewline

/-- A line keeps all but white space. -/
theorem solid_moved (hl : l.starts = false → Deep common l.text) :
    (moved common indent newline l).solid = l.text.solid := by
  obtain ⟨text, st, b⟩ := l
  cases st with
  | true => exact (Text.solid_cons_white rfl).trans (solid_trimmed _)
  | false =>
    rw [moved, if_neg Bool.false_ne_true, isBlank_trimmed]
    split
    · rename_i hb
      rw [hnewline, Text.solid_eq_nil.2 hb]
    · rename_i hb
      obtain ⟨i, t, rfl, rfl, hi⟩ := hl rfl (Bool.eq_false_iff.2 hb)
      have ht : Text.isBlank t = false := by
        rw [← isBlank_append hi]
        exact Bool.eq_false_iff.2 hb
      rw [trimmed_append ht, dropBytes?_indent hi, Option.getD_some, Text.solid_append,
        Text.solid_append, hindent, hnewline, solid_trimmed, Text.solid_append, solid_indent hi]
      rfl

theorem moved_opening (hl : st = false → Deep common (x ++ c :: o)) (hc : isWhite c = false) :
    ∃ y, y.solid = x.solid ∧
      moved common indent newline ⟨x ++ c :: o, st, false⟩ = y ++ c :: Text.trimEnd o := by
  have htrim : trimmed ⟨x ++ c :: o, st, false⟩ = x ++ c :: Text.trimEnd o :=
    Text.trimEnd_append_cons hc
  cases st with
  | true => exact ⟨'\n' :: x, Text.solid_cons_white rfl, congrArg _ htrim⟩
  | false =>
    have hblank : Text.isBlank (x ++ c :: o) = false := by simp [Text.isBlank, hc]
    obtain ⟨i, t, hit, rfl, hi⟩ := hl rfl hblank
    have hci : isIndent c = false := by
      refine Bool.eq_false_iff.2 fun h => ?_
      rw [isWhite_of_isSpace (isSpace_of_isLayout (isLayout_of_isIndent h))] at hc
      cases hc
    obtain ⟨y, rfl, -⟩ := eq_append_of_indent hit hi hci
    refine ⟨newline ++ indent ++ y, ?_, ?_⟩
    · rw [Text.solid_append, Text.solid_append, Text.solid_append, hindent, hnewline, solid_indent hi]
      rfl
    · rw [moved, if_neg Bool.false_ne_true, isBlank_trimmed, if_neg (Bool.eq_false_iff.1 hblank),
        htrim, List.append_assoc i, dropBytes?_indent hi, Option.getD_some]
      simp only [List.append_assoc]

omit hindent hnewline

theorem moved_line (hl : Deep common t) : moved common indent newline ⟨t, false, false⟩ =
    newline ++ if t.isBlank then [] else indent ++ t.trimEnd.drop common := by
  rw [moved, if_neg Bool.false_ne_true, isBlank_trimmed]
  split
  · exact (List.append_nil newline).symm
  · rename_i hb
    obtain ⟨i, u, rfl, rfl, hi⟩ := hl (Bool.eq_false_iff.2 hb)
    have hu : Text.isBlank u = false := by
      rw [← isBlank_append hi]
      exact Bool.eq_false_iff.2 hb
    rw [trimmed_append hu, dropBytes?_indent hi, Option.getD_some, trimEnd_append hu, List.drop_left,
      List.append_assoc]
    rfl

theorem moved_closing (hl : Deep common (j ++ (label ++ y))) (hne : label ≠ [])
    (hname : ∀ c ∈ label, isNameChar c = true) (hwhite : ∀ c ∈ label, isWhite c = false)
    (hj : ∀ c ∈ j, isIndent c = true) (b : Bool) :
    ∃ z, moved common indent newline ⟨j ++ (label ++ y), false, b⟩ =
      newline ++ (indent ++ (j.drop common ++ (label ++ z))) ∧ common ≤ j.length := by
  have htrim : ∃ z, trimmed ⟨j ++ (label ++ y), false, b⟩ = j ++ (label ++ z) := by
    cases b with
    | true => exact ⟨y, rfl⟩
    | false =>
      obtain ⟨d, hd⟩ : ∃ d, label.getLast? = some d := ⟨_, List.getLast?_eq_some_getLast hne⟩
      obtain ⟨v, rfl⟩ := List.getLast?_eq_some_iff.1 hd
      refine ⟨Text.trimEnd y, ?_⟩
      have := Text.trimEnd_append_cons (s := j ++ v) (t := y) (hwhite d (by simp))
      simpa [trimmed] using this
  obtain ⟨z, hz⟩ := htrim
  obtain ⟨d, l, rfl⟩ := List.exists_cons_of_ne_nil hne
  have hd := hname d List.mem_cons_self
  have hblank : Text.isBlank (j ++ (d :: l ++ y)) = false := by
    simp [Text.isBlank, hwhite d List.mem_cons_self]
  obtain ⟨i, t, hit, rfl, hi⟩ := hl hblank
  obtain ⟨k, rfl, -⟩ := eq_append_of_indent hit hi (not_isIndent_of_isNameChar hd)
  refine ⟨z, ?_, by simp⟩
  rw [moved, if_neg Bool.false_ne_true, isBlank_trimmed, if_neg (Bool.eq_false_iff.1 hblank), hz,
    List.append_assoc i, dropBytes?_indent hi, Option.getD_some, List.drop_left, List.append_assoc]

end

end Line

namespace Text

variable {b v : Text}

theorem dedent_append (hb : ∀ c ∈ b, isIndent c = true) (hv : v.head?.any isIndent = false) (n : Nat) :
    dedent n (b ++ v) = b.drop n ++ v := by
  rw [dedent, takeWhile_append_of_head hb hv]
  rcases Nat.le_total n b.length with hn | hn
  · rw [Nat.min_eq_left hn, List.drop_append_of_le_length hn]
  · rw [Nat.min_eq_right hn, List.drop_left, List.drop_eq_nil_of_le hn, List.nil_append]

theorem head?_trimEnd (h : v.isBlank = false) : v.trimEnd.head? = v.head? := by
  obtain ⟨w, hw⟩ := isPrefix_trimEnd v
  have hne : v.trimEnd ≠ [] := by
    intro hnil
    have hsolid := solid_trimEnd v
    rw [hnil] at hsolid
    rw [solid_eq_nil.1 hsolid.symm] at h
    cases h
  obtain ⟨c, u, hu⟩ := List.exists_cons_of_ne_nil hne
  rw [hu] at hw ⊢
  rw [← hw]
  rfl

end Text

namespace Heredoc

/-- A heredoc among lines that have `common` white space in common, moved to another indentation. -/
def moved (common : Nat) (indent : Text) (e : LineEnding) (h : Heredoc) : Heredoc where
  opening := h.opening.trimEnd ++ e.text.dropLast
  lines := h.lines.map fun l =>
    (if l.isBlank then [] else indent ++ l.trimEnd.drop common) ++ e.text.dropLast
  indent := indent ++ h.indent.drop common
  label := h.label

variable {common : Nat} {indent l : Text} {e : LineEnding} {h : Heredoc}

theorem exists_carriage (e : LineEnding) :
    ∃ cr, e.text = cr ++ ['\n'] ∧ e.text.dropLast = cr ∧ cr.head?.any isIndent = false ∧ '\n' ∉ cr := by
  cases e with
  | lf => exact ⟨[], rfl, rfl, rfl, List.not_mem_nil⟩
  | crlf => exact ⟨['\r'], rfl, rfl, rfl, by decide⟩

theorem flatMap_breaks (f : Text → Text) (cr z : Text) (ls : List Text) :
    cr ++ '\n' :: ((ls.map (f · ++ cr)).flatMap (· ++ ['\n']) ++ z) =
      ls.flatMap (cr ++ '\n' :: f ·) ++ (cr ++ '\n' :: z) := by
  induction ls with
  | nil => rfl
  | cons l ls ih =>
    rw [List.map_cons, List.flatMap_cons, List.flatMap_cons, List.append_assoc (cr ++ _), ← ih]
    simp only [List.append_assoc, List.cons_append, List.nil_append]

/-- The moved heredoc as it comes out of moved lines. -/
theorem text_moved (common : Nat) (indent : Text) (e : LineEnding) (h : Heredoc) :
    (h.moved common indent e).text = h.opening.trimEnd ++
      (h.lines.flatMap (fun l =>
        e.text ++ if l.isBlank then [] else indent ++ l.trimEnd.drop common) ++
      (e.text ++ (indent ++ (h.indent.drop common ++ h.label)))) := by
  obtain ⟨cr, he, hcr, -⟩ := exists_carriage e
  rw [text, moved, hcr, he, List.append_assoc, List.append_assoc, flatMap_breaks]
  simp only [List.append_assoc, List.singleton_append]

/-- A line of the value keeps all but the white space at its end. -/
theorem dedent_moved {n : Nat} {cr : Text} (hl : Line.Deep common l) (hn : common ≤ n)
    (hi : ∀ c ∈ indent, isIndent c = true) (hcr : cr.head?.any isIndent = false) :
    Text.dedent (indent.length + (n - common))
      ((if l.isBlank then [] else indent ++ l.trimEnd.drop common) ++ cr) =
      (l.dedent n).trimEnd ++ cr := by
  split
  · rename_i hb
    have hwhite : ∀ c ∈ l.dedent n, isWhite c = true :=
      fun c hc => List.all_eq_true.1 hb c (List.drop_subset _ _ hc)
    have hnil := Text.dedent_append (b := []) (List.forall_mem_nil _) hcr
    rw [List.nil_append] at hnil
    rw [List.nil_append, hnil, Text.trimEnd_eq_nil hwhite, List.drop_nil]
  · rename_i hb
    obtain ⟨i, u, rfl, rfl, hi'⟩ := hl (Bool.eq_false_iff.2 hb)
    -- the rest of the indentation, and the line from its first other character on
    obtain ⟨b, v, rfl, hb', hv⟩ : ∃ b v, u = b ++ v ∧ (∀ c ∈ b, isIndent c = true) ∧
        v.head?.any isIndent = false :=
      ⟨_, _, List.takeWhile_append_dropWhile.symm, List.all_eq_true.1 List.all_takeWhile,
        any_head_takeWhile List.takeWhile_append_dropWhile⟩
    have hvb : Text.isBlank v = false := by
      rw [← Line.isBlank_append hb', ← Line.isBlank_append hi']
      exact Bool.eq_false_iff.2 hb
    have hub : Text.isBlank (b ++ v) = false := by rwa [Line.isBlank_append hb']
    have hhead : Option.any isIndent (v.trimEnd ++ cr).head? = false := by
      rw [List.head?_append, Text.head?_trimEnd hvb]
      cases v with
      | nil => cases hvb
      | cons => exact hv
    have hleft := Text.dedent_append (List.forall_mem_append.2 ⟨hi, hb'⟩) hhead
      (indent.length + (n - i.length))
    have hright := Text.dedent_append (List.forall_mem_append.2 ⟨hi', hb'⟩) hv n
    rw [List.drop_append, List.drop_eq_nil_of_le (Nat.le_add_right _ _), Nat.add_sub_cancel_left,
      List.nil_append] at hleft
    rw [List.drop_append, List.drop_eq_nil_of_le hn, List.nil_append] at hright
    rw [Line.trimEnd_append hub, List.drop_left, Line.trimEnd_append hvb]
    simp only [List.append_assoc] at hleft hright ⊢
    rw [hleft, hright, Line.trimEnd_append hvb, List.append_assoc]

/-- What becomes of the value of a heredoc that is moved. -/
theorem value_moved (hlines : ∀ l ∈ h.lines, Line.Deep common l) (hindent : common ≤ h.indent.length)
    (hi : ∀ c ∈ indent, isIndent c = true) (e : LineEnding) :
    (h.moved common indent e).value = h.content.flatMap (·.trimEnd ++ e.text) := by
  obtain ⟨cr, he, hcr, hhead, -⟩ := exists_carriage e
  have hlen : (h.moved common indent e).indent.length = indent.length + (h.indent.length - common) := by
    rw [moved, List.length_append, List.length_drop]
  rw [value, content, hlen, moved, hcr, he, content, List.map_map, List.flatMap_map, List.flatMap_map]
  refine List.flatMap_congr fun l hl => ?_
  rw [Function.comp_apply, dedent_moved (hlines l hl) hindent hi hhead, List.append_assoc]

theorem Valid.moved (hv : h.Valid) (hi : ∀ c ∈ indent, isIndent c = true) (common : Nat)
    (e : LineEnding) : (h.moved common indent e).Valid := by
  obtain ⟨cr, -, hcr, -, hnl⟩ := exists_carriage e
  have hindent : '\n' ∉ indent := fun hn => ne_newline_of_isIndent (hi _ hn) rfl
  refine ⟨?_, ?_, ?_, hv.nonempty, hv.name⟩
  · rw [Heredoc.moved, hcr, List.mem_append, not_or]
    exact ⟨fun hn => hv.opening (Text.mem_of_mem_trimEnd hn), hnl⟩
  · intro l hl
    obtain ⟨l, hmem, rfl⟩ := List.mem_map.1 hl
    rw [hcr, List.mem_append, not_or]
    refine ⟨?_, hnl⟩
    split
    · exact List.not_mem_nil
    · rw [List.mem_append, not_or]
      exact ⟨hindent, fun hn => hv.lines l hmem
        (Text.mem_of_mem_trimEnd (List.drop_subset _ _ hn))⟩
  · exact List.forall_mem_append.2 ⟨hi, fun c hc => hv.indent c (List.drop_subset _ _ hc)⟩

end Heredoc

section

variable {s indent : Text} {A B : List Token} {d : Heredoc}

theorem flags_append (A B : List Token) : flags (A ++ B) = flags A ++ flags B := List.flatMap_append

theorem Line.split_heredoc (hv : d.Valid) (A B : List Token) : ∃ L x st t b ls,
    Text.solid (L.flatMap Line.text) ++ Text.solid x = (Token.spell A).solid ∧
    Line.split false (flags (A ++ ⟨.heredoc, d.text⟩ :: B)) = L ++ ⟨x ++ d.opening, st, false⟩ ::
      (d.lines.map (⟨·, false, false⟩) ++ ⟨d.indent ++ (d.label ++ t), false, b⟩ :: ls) := by
  have hplain : ∀ {v : Text}, '\n' ∉ v → ∀ p ∈ plain v, p.1 ≠ '\n' := by
    intro v hv p hp hn
    obtain ⟨c, hc, rfl⟩ := List.mem_map.1 hp
    exact hv (hn ▸ hc)
  obtain ⟨t, b, ls, hB⟩ := Line.exists_split false (flags B)
  have hclosing := Line.split_front (hplain hv.closing) hB
  have hlines := Line.split_lines hv.lines (plain (d.indent ++ d.label) ++ flags B)
  have hopening := fun st => Line.split_line (hplain hv.opening) st false
    (plain (d.lines.flatMap (· ++ ['\n'])) ++ (plain (d.indent ++ d.label) ++ flags B))
  obtain ⟨L, x, st, hsolid, hsplit⟩ := Line.split_append false (flags A)
  rw [flags_fst] at hsolid
  refine ⟨L, x, st, t, b, ls, hsolid, ?_⟩
  simp only [plain_fst, hlines, hclosing, List.append_assoc] at hopening
  rw [← hsplit (hopening st), flags_append, flags_cons]
  change Line.split false (flags A ++ (plain d.text ++ flags B)) = _
  rw [Heredoc.text, ← List.singleton_append (x := '\n')]
  simp only [plain_append, List.append_assoc]
  rfl

/-- The lines of a heredoc behind the first one, moved. -/
theorem Heredoc.Valid.rest_moved {common : Nat} {t : Text} {b : Bool} {ls : List Line} (hv : d.Valid)
    (hwhite : ∀ c ∈ d.label, isWhite c = false)
    (hdeep : ∀ l ∈ d.lines.map (Line.mk · false false) ++ ⟨d.indent ++ (d.label ++ t), false, b⟩ :: ls,
      l.starts = false → Line.Deep common l.text) (indent newline : Text) :
    (∃ S, (d.lines.map (Line.mk · false false) ++ ⟨d.indent ++ (d.label ++ t), false, b⟩ :: ls).flatMap
        (Line.moved common indent newline) =
      d.lines.flatMap (fun l =>
        newline ++ if l.isBlank then [] else indent ++ l.trimEnd.drop common) ++
      (newline ++ (indent ++ (d.indent.drop common ++ (d.label ++ S))))) ∧
    common ≤ d.indent.length ∧ ∀ l ∈ d.lines, Line.Deep common l := by
  obtain ⟨hlines, hrest⟩ := List.forall_mem_append.1 hdeep
  have hlines : ∀ l ∈ d.lines, Line.Deep common l := fun l hl =>
    hlines _ (List.mem_map_of_mem hl) rfl
  obtain ⟨z, hz, hle⟩ := @Line.moved_closing _ indent newline _ _ _
    (hrest _ List.mem_cons_self rfl) hv.nonempty hv.name hwhite hv.indent b
  refine ⟨⟨z ++ ls.flatMap (Line.moved common indent newline), ?_⟩, hle, hlines⟩
  rw [List.flatMap_append, List.flatMap_map, List.flatMap_cons, hz,
    List.flatMap_congr fun l hl => Line.moved_line (hlines l hl)]
  simp only [List.append_assoc]

/-- A heredoc in a statement that is moved to another indentation. -/
theorem reindent_heredoc (h : lexCode s = .ok (A ++ ⟨.heredoc, d.text⟩ :: B)) (ht : s.isTidy = true)
    (hs : s.trim = s) (hv : d.Valid) (hopen : ∃ o : Text, d.opening = '<' :: o)
    (hwhite : ∀ c ∈ d.label, isWhite c = false) (e : LineEnding)
    (hi : ∀ c ∈ indent, isIndent c = true) : ∃ common P S,
    reindent s indent e.text = P ++ ((d.moved common indent e).text ++ S) ∧
    P.solid = (Token.spell A).solid ∧ common ≤ d.indent.length ∧
    ∀ l ∈ d.lines, Line.Deep common l := by
  obtain ⟨L, x, st, t, b, ls, hsolid, hsplit⟩ := Line.split_heredoc hv A B
  have hcode : Line.ofCode s.trim = Line.split false (flags (A ++ ⟨.heredoc, d.text⟩ :: B)) := by
    rw [hs, Line.ofCode, Line.quotedChars, h]
    rfl
  have hfits : ∀ l ∈ Line.ofCode s.trim, Line.Fits isIndent isLayout l := by
    rw [hs]
    exact (Line.lines_split false _).fits (by rwa [Line.quotedChars_fst])
  have hdeep : ∀ R : List Line, (∀ l ∈ R, Line.Fits isIndent isLayout l) →
      ∀ l ∈ R, l.starts = false → Line.Deep (Line.commonIndent R) l.text :=
    fun R hR => Line.shared_commonIndent
      (fun c hc => isSpace_of_isLayout (isLayout_of_isIndent hc)) hR
  have hindent := Line.solid_indent hi
  have hnewline : e.text.solid = [] := by cases e <;> rfl
  obtain ⟨o, ho⟩ := hopen
  have htrim : d.opening.trimEnd = '<' :: o.trimEnd := by
    rw [ho]
    exact Text.trimEnd_append_cons (s := []) rfl
  rw [← hcode] at hsplit
  rw [hsplit] at hfits
  rw [ho] at hsplit hfits
  cases L with
  | nil =>
    have hfirst : Text.trimStart (Line.trimmed ⟨x ++ '<' :: o, st, false⟩) =
        x.trimStart ++ '<' :: o.trimEnd := by
      rw [Line.trimmed, if_neg Bool.false_ne_true, Text.trimEnd_append_cons (by decide),
        Text.trimStart_append_cons (by decide)]
    obtain ⟨⟨S, hS⟩, hle, hlines⟩ := hv.rest_moved hwhite
      (hdeep _ (List.forall_mem_cons.1 hfits).2) indent e.text
    refine ⟨_, x.trimStart, S, ?_, ?_, hle, hlines⟩
    · rw [Line.reindent_eq indent e.text hsplit, hS, hfirst, Heredoc.text_moved, htrim]
      simp only [List.append_assoc, List.cons_append]
    · rw [Text.solid_trimStart, ← hsolid]
      rfl
  | cons l L =>
    rw [List.cons_append] at hsplit hfits
    have hall := hdeep _ (List.forall_mem_cons.1 hfits).2
    have hreindent := Line.reindent_eq indent e.text hsplit
    generalize Line.commonIndent _ = common at hall hreindent
    obtain ⟨hL, hrest⟩ := List.forall_mem_append.1 hall
    obtain ⟨hopening, hrest⟩ := List.forall_mem_cons.1 hrest
    obtain ⟨⟨S, hS⟩, hle, hlines⟩ := hv.rest_moved hwhite hrest indent e.text
    obtain ⟨y, hy, hmoved⟩ := Line.moved_opening hindent hnewline hopening rfl
    refine ⟨common, l.trimmed.trimStart ++ (L.flatMap (Line.moved common indent e.text) ++ y), S, ?_,
      ?_, hle, hlines⟩
    · rw [hreindent, List.flatMap_append, List.flatMap_cons, hmoved, hS,
        Heredoc.text_moved, htrim]
      simp only [List.append_assoc, List.cons_append]
    · have hsame : ∀ M : List Line, (∀ m ∈ M, m ∈ L) → Text.solid
          (M.flatMap (Line.moved common indent e.text)) = Text.solid (M.flatMap Line.text) := by
        intro M hM
        induction M with
        | nil => rfl
        | cons m M ih =>
          obtain ⟨hm, hM⟩ := List.forall_mem_cons.1 hM
          rw [List.flatMap_cons, List.flatMap_cons, Text.solid_append, Text.solid_append, ih hM,
            Line.solid_moved hindent hnewline (hL m hm)]
      rw [Text.solid_append, Text.solid_trimStart, Line.solid_trimmed, Text.solid_append,
        hsame L fun m hm => hm, hy, ← hsolid, List.flatMap_cons, Text.solid_append, List.append_assoc]

/-- The text of a moved heredoc differs from that of the heredoc in white space alone. -/
theorem Heredoc.solid_moved {common : Nat} (hlines : ∀ l ∈ d.lines, Line.Deep common l)
    (hindent : ∀ c ∈ d.indent, isIndent c = true) (hi : ∀ c ∈ indent, isIndent c = true)
    (e : LineEnding) : (d.moved common indent e).text.solid = d.text.solid := by
  have hnewline : e.text.solid = [] := by cases e <;> rfl
  have hown : ∀ c ∈ d.indent.drop common, isIndent c = true :=
    fun c hc => hindent c (List.drop_subset _ _ hc)
  have hflat : ∀ ls : List Text, (∀ l ∈ ls, l ∈ d.lines) → Text.solid (ls.flatMap fun l =>
      e.text ++ if l.isBlank then [] else indent ++ l.trimEnd.drop common) =
      Text.solid (ls.flatMap (· ++ ['\n'])) := by
    intro ls hls
    induction ls with
    | nil => rfl
    | cons l ls ih =>
      obtain ⟨hl, hls⟩ := List.forall_mem_cons.1 hls
      have hline := Line.solid_moved (l := ⟨l, false, false⟩) (Line.solid_indent hi) hnewline
        fun _ => hlines l hl
      rw [Line.moved_line (hlines l hl)] at hline
      rw [List.flatMap_cons, List.flatMap_cons, Text.solid_append, hline, ih hls, Text.solid_append,
        Text.solid_append, show Text.solid ['\n'] = [] from rfl, List.append_nil]
  rw [Heredoc.text_moved, Heredoc.text, Text.solid_append, Text.solid_append, Text.solid_append,
    Text.solid_append, Text.solid_append, Text.solid_append, Text.solid_cons_white rfl,
    Text.solid_append, Text.solid_append, hflat d.lines fun l hl => hl, hnewline, Text.solid_trimEnd,
    Line.solid_indent hi, Line.solid_indent hown, Line.solid_indent hindent]
  rfl

end

/-- A heredoc printed on lines that end in `e`: the label stays, and so do the lines of the value, but
for the white space at their end. -/
structure Heredoc.Reprinted (e : LineEnding) (t u : Token) : Prop where
  label : (Heredoc.ofText u.text).label = (Heredoc.ofText t.text).label
  value : (Heredoc.ofText u.text).value =
    (Heredoc.ofText t.text).content.flatMap (·.trimEnd ++ e.text)

/-- Trimming takes white space away, and nothing else. -/
theorem Text.trim_split (t : Text) :
    ∃ v w, t = v ++ (t.trim ++ w) ∧ v.solid = [] ∧ w.solid = [] := by
  obtain ⟨w, hw, hwhite⟩ := Text.trimEnd_append_white t.trimStart
  refine ⟨t.takeWhile isWhite, w, ?_, Text.solid_eq_nil.2 List.all_takeWhile,
    Text.solid_eq_nil.2 (List.all_eq_true.2 hwhite)⟩
  rw [Text.trim, ← hw, Text.trimStart, List.takeWhile_append_dropWhile]

theorem forall₂_solid {xs us : List Token} (h : List.Forall₂ Token.Like xs us) :
    (Token.spell us).solid = (Token.spell xs).solid := by
  induction h with
  | nil => rfl
  | cons h _ ih =>
    rw [Token.spell, Token.spell, List.flatMap_cons, List.flatMap_cons, Text.solid_append,
      Text.solid_append, h.solid]
    exact congrArg _ ih

theorem forall₂_of_splits {R S : Token → Token → Prop} {xs us : List Token} (h : List.Forall₂ R xs us)
    (hS : ∀ {A B C D x u}, xs = A ++ x :: B → us = C ++ u :: D → List.Forall₂ R A C → R x u → S x u) :
    List.Forall₂ S xs us := by
  induction h with
  | nil => exact .nil
  | @cons x u xs us hxu h ih =>
    refine .cons (hS (A := []) (C := []) rfl rfl .nil hxu) (ih fun hxs hus hAC hR => ?_)
    exact hS (congrArg (x :: ·) hxs) (congrArg (u :: ·) hus) (.cons hxu hAC) hR

/-- What is read as a heredoc in a statement. -/
theorem Sentence.heredoc {A B : List Token} {x : Token} (h : Sentence (A ++ x :: B))
    (hx : x.kind = .heredoc) : ∃ d : Heredoc, d.Valid ∧ x.text = d.text ∧
      (∃ o : Text, d.opening = '<' :: o) ∧ ∀ c ∈ d.label, isWhite c = false := by
  have hread := h.reads.of_append
  rw [afterAll_code fun t ht => h.closed t (List.mem_append_left _ ht)] at hread
  generalize Token.spell (x :: B) = r at hread
  cases hread with
  | @cons _ c u t k _ hs _ =>
    obtain rfl : k = .heredoc := hx
    have hrule := rule_of_scanCode hs
    generalize hn : u.length = n at hrule
    generalize hk : TokenKind.heredoc = k at hrule
    cases hrule with
    | @heredoc m hc hsize =>
      obtain ⟨rfl, hstart⟩ := hc
      match u, hn with
      | [], hn => simp at hn; omega
      | [_], hn => simp at hn; omega
      | a :: b :: v, hn =>
        obtain ⟨_, hv⟩ := List.isPrefixOf_iff_prefix.1 hstart
        obtain rfl : '<' = a := (List.cons.inj hv).1
        obtain rfl : '<' = b := (List.cons.inj (List.cons.inj hv).2).1
        simp only [List.length_cons] at hn
        obtain ⟨d, hvalid, htext, i, q, w, hopen⟩ :=
          exists_heredoc (hsize.trans (congrArg Except.ok (show m = v.length by omega)))
        refine ⟨d, hvalid, htext, ⟨_, hopen⟩, fun c hc => Bool.eq_false_iff.2 fun hw => ?_⟩
        have hmem : c ∈ Token.spell (A ++ ⟨.heredoc, '<' :: '<' :: '<' :: v⟩ :: B) := by
          rw [spell_append, htext]
          simp [Token.spell, Heredoc.text, hc]
        have hlayout := Text.isLayout_of_isTidy h.tidy hmem hw
        rw [isLayout_of_isNameChar (hvalid.name c hc)] at hlayout
        cases hlayout
    | comment => split at hk <;> cases hk
    | _ => cases hk

def Token.heredocs (ts : List Token) : List Token := ts.filter (·.kind == .heredoc)

theorem Token.heredocs_append (ts us : List Token) :
    Token.heredocs (ts ++ us) = Token.heredocs ts ++ Token.heredocs us := List.filter_append ..

theorem Token.heredocs_eq_nil {ts : List Token} (h : ∀ t ∈ ts, t.kind ≠ .heredoc) :
    Token.heredocs ts = [] :=
  List.filter_eq_nil_iff.2 fun t ht => by simpa using h t ht

/-- The tokens of a statement that is moved to another indentation. -/
theorem Sentence.forall₂_reprinted {xs us : List Token} {indent : Text} {e : LineEnding} (h : Sentence xs)
    (hi : ∀ c ∈ indent, isIndent c = true) (hlike : List.Forall₂ Token.Like xs us)
    (htrim : Text.trim (Token.spell us) = reindent (Token.spell xs) indent e.text) :
    List.Forall₂ (fun x u => u.kind = x.kind ∧ (x.kind = .heredoc → Heredoc.Reprinted e x u)) xs us := by
  refine forall₂_of_splits hlike ?_
  rintro A B C D x u rfl rfl hAC hxu
  refine ⟨hxu.kind, fun hx => ?_⟩
  obtain ⟨d, hv, htext, hopen, hwhite⟩ := h.heredoc hx
  obtain ⟨kind, text⟩ := x
  obtain rfl : kind = .heredoc := hx
  obtain rfl : text = d.text := htext
  obtain ⟨common, P, S, hreindent, hP, hle, hlines⟩ :=
    reindent_heredoc (h.reads.run _) h.tidy h.solid.trim_eq hv hopen hwhite e hi
  obtain ⟨v, w, hspell, hv₀, hw₀⟩ := Text.trim_split (Token.spell (C ++ u :: D))
  have hsplit : Token.spell C ++ (u.text ++ Token.spell D) =
      v ++ P ++ ((d.moved common indent e).text ++ (S ++ w)) := by
    rw [htrim, hreindent, spell_append] at hspell
    rw [← show Token.spell (u :: D) = u.text ++ Token.spell D from rfl, hspell]
    simp only [List.append_assoc]
  obtain ⟨hhead, hend⟩ := hxu.ends rfl
  have hlast : ∃ c, d.label.getLast? = some c ∧ isWhite c = false :=
    ⟨_, List.getLast?_eq_some_getLast hv.nonempty, hwhite _ (List.getLast_mem _)⟩
  have hfirst : ∀ {t y : Text}, t.head? = some '<' → ∃ c r, t ++ y = c :: r ∧ isWhite c = false := by
    intro t y ht
    obtain ⟨r, rfl⟩ := List.head?_eq_some_iff.1 ht
    exact ⟨'<', r ++ y, rfl, by decide⟩
  have hd : d.text.head? = some '<' := by
    obtain ⟨o, ho⟩ := hopen
    rw [Heredoc.text, ho]
    rfl
  have hmoved : (d.moved common indent e).text.head? = some '<' := by
    obtain ⟨o, ho⟩ := hopen
    rw [Heredoc.text_moved, ho, show Text.trimEnd ('<' :: o) = '<' :: o.trimEnd from
      Text.trimEnd_append_cons (s := []) (by decide)]
    rfl
  -- as much stands in front of the token as in front of the moved heredoc
  obtain ⟨-, hrest⟩ := Text.cut_unique hsplit
    (by rw [forall₂_solid hAC, Text.solid_append, hv₀, hP, List.nil_append])
    (hfirst (hhead.trans hd)) (hfirst hmoved)
  obtain ⟨hu, -⟩ := Text.cut_unique_behind hrest
    (by rw [hxu.solid, Heredoc.solid_moved hlines hv.indent hi])
    (by rwa [hend, Heredoc.getLast?_text d hv.nonempty])
    (by rw [Heredoc.getLast?_text (d.moved common indent e) hv.nonempty]; exact hlast)
  have hvalid := hv.moved hi common e
  refine ⟨?_, ?_⟩
  · rw [hu, hvalid.ofText_text, hv.ofText_text]
    rfl
  · rw [hu, hvalid.ofText_text, hv.ofText_text]
    exact Heredoc.value_moved hlines hle hi e

/-- The heredocs of a statement that is moved to another indentation. -/
theorem Sentence.reprinted {xs us : List Token} {indent : Text} {e : LineEnding} (h : Sentence xs)
    (hi : ∀ c ∈ indent, isIndent c = true) (hlike : List.Forall₂ Token.Like xs us)
    (htrim : Text.trim (Token.spell us) = reindent (Token.spell xs) indent e.text) :
    List.Forall₂ (Heredoc.Reprinted e) (Token.heredocs xs) (Token.heredocs us) := by
  have hall := h.forall₂_reprinted hi hlike htrim
  clear hlike htrim h
  induction hall with
  | nil => exact .nil
  | @cons x u xs us hxu _ ih =>
    obtain ⟨hkind, hxu⟩ := hxu
    by_cases hx : x.kind = .heredoc
    · have hu := hkind.trans hx
      rw [Token.heredocs, Token.heredocs, List.filter_cons_of_pos (by simp [hx]),
        List.filter_cons_of_pos (by simp [hu])]
      exact .cons (hxu hx) ih
    · have hu : u.kind ≠ .heredoc := hkind ▸ hx
      rw [Token.heredocs, Token.heredocs, List.filter_cons_of_neg (by simp [hx]),
        List.filter_cons_of_neg (by simp [hu])]
      exact ih

end PhpGraft
