import PhpGraft.Proofs.Border

/-!
A documentation comment is read as one comment, wherever it is moved to, if and only if none of its
texts closes a comment.
-/
namespace PhpGraft

namespace Text

variable {c : Char} {s t u w sep : Text} {ts : List Text}

theorem isInfix_trim (t : Text) : trim t <:+: t :=
  (isPrefix_trimEnd _).isInfix.trans (isSuffix_trimStart t).isInfix

/-! What is found across a separator stands on one side of it. -/

theorem isInfix_append_cons (hc : c ∉ u) : u <:+: s ++ c :: t ↔ u <:+: s ∨ u <:+: t := by
  constructor
  · rintro ⟨a, b, h⟩
    rw [List.append_assoc] at h
    rcases List.append_eq_append_iff.1 h with ⟨a', rfl, ha⟩ | ⟨a', rfl, ha⟩
    · rcases List.append_eq_append_iff.1 ha with ⟨x, rfl, -⟩ | ⟨x, rfl, hx⟩
      · exact .inl ⟨a, x, List.append_assoc ..⟩
      · cases x with
        | nil => exact .inl ⟨a, [], by simp⟩
        | cons d x =>
          obtain ⟨rfl, -⟩ := List.cons.inj hx
          exact absurd (List.mem_append_right _ List.mem_cons_self) hc
    · cases a' with
      | nil =>
        cases u with
        | nil => exact .inl List.nil_infix
        | cons d u =>
          obtain ⟨rfl, -⟩ := List.cons.inj ha
          exact absurd List.mem_cons_self hc
      | cons d a' =>
        obtain ⟨rfl, rfl⟩ := List.cons.inj ha
        exact .inr ⟨a', b, List.append_assoc ..⟩
  · rintro (h | h)
    · exact h.trans (List.prefix_append _ _).isInfix
    · exact (h.trans (List.suffix_cons c t).isInfix).trans (List.suffix_append _ _).isInfix

/-- Has the two characters that close a comment. -/
def Closes (t : Text) : Prop := ['*', '/'] <:+: t

instance (t : Text) : Decidable t.Closes := inferInstanceAs (Decidable (['*', '/'] <:+: t))

theorem not_closes_nil : ¬Closes [] := by decide

theorem closes_append_cons (hstar : c ≠ '*') (hslash : c ≠ '/') :
    Closes (s ++ c :: t) ↔ Closes s ∨ Closes t :=
  isInfix_append_cons (by simp [hstar, hslash])

theorem closes_cons (hstar : c ≠ '*') (hslash : c ≠ '/') : Closes (c :: t) ↔ Closes t :=
  (closes_append_cons (s := []) hstar hslash).trans (or_iff_right not_closes_nil)

theorem closes_append_left (h : ∀ c ∈ w, c ≠ '*' ∧ c ≠ '/') : Closes (w ++ t) ↔ Closes t := by
  induction w with
  | nil => rfl
  | cons c w ih =>
    obtain ⟨hc, hw⟩ := List.forall_mem_cons.1 h
    rw [List.cons_append, closes_cons hc.1 hc.2, ih hw]

theorem closes_join (e : LineEnding) (s : Text) (ts : List Text) :
    Closes (join e.text (s :: ts)) ↔ Closes s ∨ ∃ t ∈ ts, Closes t := by
  have hbreak : ∀ s t, Closes (s ++ (e.text ++ t)) ↔ Closes s ∨ Closes t := by
    intro s t
    cases e with
    | lf => exact closes_append_cons (by decide) (by decide)
    | crlf =>
      have hfeed : Closes ('\n' :: t) ↔ Closes t := closes_cons (by decide) (by decide)
      exact (closes_append_cons (by decide) (by decide)).trans (or_congr_right hfeed)
  induction ts generalizing s with
  | nil => simp [join_cons]
  | cons t ts ih =>
    rw [join_cons, flatMap_join (List.cons_ne_nil _ _), List.exists_mem_cons_iff]
    exact (hbreak _ _).trans (or_congr_right (ih t))

theorem closes_splitOn (t : Text) : Closes t ↔ ∃ w ∈ splitOn '\n' t, Closes w := by
  cases hw : splitOn '\n' t with
  | nil => exact absurd hw (splitOn_ne_nil _ _)
  | cons w ws =>
    conv => lhs; rw [← join_splitOn '\n' t, hw]
    rw [List.exists_mem_cons_iff]
    exact closes_join .lf w ws

theorem closes_trim (t : Text) : Closes (trim t) ↔ Closes t := by
  refine ⟨fun h => h.trans (isInfix_trim t), ?_⟩
  rintro ⟨a, b, rfl⟩
  obtain ⟨v, -, hv⟩ := trim_append (s := ['*', '/']) (t := b) (u := a) ⟨_, _, rfl, by decide⟩
    (.inl ⟨'/', rfl, by decide⟩)
  exact ⟨trimStart a, v, hv.symm⟩

end Text

namespace Lexer

variable {c : Char} {s t m : Text}

theorem commentSize?_eq_none : commentSize? t = none ↔ ¬t.Closes := by
  induction t with
  | nil => exact iff_of_true rfl Text.not_closes_nil
  | cons c t ih =>
    by_cases hc : c = '*' ∧ ∃ s, t = '/' :: s
    · obtain ⟨rfl, s, rfl⟩ := hc
      refine iff_of_false (fun h => ?_) (fun h => h ⟨[], s, rfl⟩)
      cases h
    · rw [commentSize?_cons fun s hcs ht => hc ⟨hcs, s, ht⟩, Option.map_eq_none_iff, ih, Text.Closes,
        Text.Closes, List.infix_cons_iff, not_or]
      refine (and_iff_right fun h => ?_).symm
      obtain ⟨s, hs⟩ := h
      cases hs
      exact hc ⟨rfl, s, rfl⟩

/-- The first two characters that close a comment are those behind a text that closes none. -/
theorem commentSize?_close_iff (t : Text) :
    commentSize? (s ++ '*' :: '/' :: t) = some (s.length + 2) ↔ ¬s.Closes := by
  rw [← commentSize?_eq_none]
  constructor
  · intro h
    cases hs : commentSize? s with
    | none => rfl
    | some n =>
      have hn := commentSize?_le hs
      have hsplit : s = s.take n ++ s.drop n := (List.take_append_drop n s).symm
      have hlen : (s.take n).length = n := List.length_take_of_le hn
      have hfirst := commentSize?_append (u := s.take n) (r := s.drop n) (by rw [← hsplit, hlen, hs])
        (s.drop n ++ '*' :: '/' :: t)
      rw [← List.append_assoc, ← hsplit, h, hlen] at hfirst
      have := Option.some.inj hfirst
      omega
  · intro h
    induction s with
    | nil => rfl
    | cons c s ih =>
      have hno : ∀ r, c = '*' → s ++ '*' :: '/' :: t ≠ '/' :: r := by
        rintro r rfl hr
        cases s with
        | nil => cases hr
        | cons d s =>
          cases hr
          cases h
      have hs : commentSize? s = none := commentSize?_eq_none.2 fun hs =>
        commentSize?_eq_none.1 h (hs.trans (List.suffix_cons c s).isInfix)
      rw [List.cons_append, commentSize?_cons hno, ih hs, Option.map_some, List.length_cons,
        Nat.add_right_comm]

/-- A text that is one token. -/
theorem Reads.scan_eq {mode : Mode} {k : TokenKind} {r : Text} (h : Reads mode [⟨k, r⟩] s) (hr : r = c :: t)
    (hs : s = c :: t) : scan mode c t = .ok (k, t.length) := by
  cases h with
  | @cons _ d u v _ _ hscan =>
    obtain ⟨rfl, rfl⟩ := List.cons.inj hr
    have hv : u ++ v = u := (List.cons.inj hs).2
    rwa [hv] at hscan

/-- What is opened like a documentation comment is one up to its end if nothing else closes it. -/
theorem scanCode_doc_iff (hdoc : ∃ c s, m = '*' :: c :: s ∧ isSpace c = true) (t : Text) :
    scanCode '/' ('*' :: (m ++ '*' :: '/' :: t)) = .ok (.docComment, m.length + 3) ↔ ¬m.Closes := by
  obtain ⟨c, s, rfl, hc⟩ := hdoc
  have hslash : isSpace '/' = false := rfl
  rw [← commentSize?_close_iff t, List.cons_append, List.cons_append]
  cases hn : commentSize? ('*' :: c :: (s ++ '*' :: '/' :: t)) with
  | none => simp [scanCode, Text.startsWith, List.isPrefixOf, hslash, hn]
  | some n =>
    have hscan : scanCode '/' ('*' :: '*' :: c :: (s ++ '*' :: '/' :: t)) = .ok (.docComment, 1 + n) := by
      simp [scanCode, Text.startsWith, List.isPrefixOf, hslash, hc, hn]
    rw [hscan]
    simp only [Except.ok.injEq, Prod.mk.injEq, Option.some.injEq, true_and]
    omega

end Lexer

open Lexer

namespace Text

/-- The lines of a comment between the one that opens it and the one that closes it. -/
def commented (e : LineEnding) (indent : Text) (ls : List Text) : Text :=
  join e.text ("/**".toList :: (ls ++ [indent ++ " */".toList]))

/-- What stands between the slash that begins a comment and what closes it. -/
def opened (e : LineEnding) (indent : Text) (ls : List Text) : Text :=
  join e.text ("*".toList :: (ls ++ [indent ++ " ".toList]))

variable {e : LineEnding} {indent : Text} {ls : List Text}

theorem commented_eq (e : LineEnding) (indent : Text) (ls : List Text) :
    commented e indent ls = '/' :: '*' :: (opened e indent ls ++ "*/".toList) := by
  rw [commented, opened, join_cons, join_cons, List.flatMap_append, List.flatMap_append]
  simp

theorem opened_doc (e : LineEnding) (indent : Text) (ls : List Text) :
    ∃ c s, opened e indent ls = '*' :: c :: s ∧ isSpace c = true := by
  cases e <;> cases ls <;> exact ⟨_, _, rfl, rfl⟩

theorem closes_opened (hi : ∀ c ∈ indent, isIndent c = true) :
    (opened e indent ls).Closes ↔ ∃ l ∈ ls, Closes l := by
  have hstar : ¬Closes "*".toList := by decide
  have hgap : ¬(indent ++ " ".toList).Closes := by
    refine mt (closes_append_left fun c hc => ?_).1 (by decide)
    constructor <;> rintro rfl <;> cases hi _ hc
  refine (closes_join e _ _).trans ((or_iff_right hstar).trans ?_)
  simp only [List.mem_append, List.mem_singleton, or_and_right, exists_or, exists_eq_left, hgap, or_false]

end Text

section

variable {e : LineEnding} {indent : Text} {ls : List Text} (hi : ∀ c ∈ indent, isIndent c = true)
include hi

theorem Reads.commented (h : ∀ l ∈ ls, ¬l.Closes) {X : List Token} {t : Text} (hX : Reads .code X t) :
    Reads .code (⟨.docComment, Text.commented e indent ls⟩ :: X) (Text.commented e indent ls ++ t) := by
  have hno : ¬(Text.opened e indent ls).Closes := by
    rw [Text.closes_opened hi]
    exact fun ⟨l, hl, hc⟩ => h l hl hc
  have hscan := (scanCode_doc_iff (Text.opened_doc e indent ls) t).2 hno
  have hrest : '*' :: (Text.opened e indent ls ++ '*' :: '/' :: t) =
      '*' :: (Text.opened e indent ls ++ "*/".toList) ++ t := by simp
  rw [hrest] at hscan
  rw [Text.commented_eq]
  exact .cons (hscan.trans (by simp)) hX

theorem lexCode_commented : lexCode (Text.commented e indent ls) =
    .ok [⟨.docComment, Text.commented e indent ls⟩] ↔ ∀ l ∈ ls, ¬l.Closes := by
  constructor
  · intro h
    have hreads := reads_of_run h
    have hscan := hreads.scan_eq (Text.commented_eq e indent ls) (Text.commented_eq e indent ls)
    have hno := (scanCode_doc_iff (Text.opened_doc e indent ls) []).1 (hscan.trans (by simp))
    rw [Text.closes_opened hi] at hno
    exact fun l hl hc => hno ⟨l, hl, hc⟩
  · intro h
    have hreads := Reads.commented (e := e) hi h (.nil : Reads .code [] [])
    rw [List.append_nil] at hreads
    exact hreads.run _

end

/-- Two characters close a comment, and they stand nowhere but at the end of it. -/
def DocBlock.Closed (d : DocBlock) : Prop := ∀ a b, d.render = a ++ '*' :: '/' :: b → b = []

theorem DocBlock.closed_iff {d : DocBlock} : d.Closed ↔ ∀ k < d.render.length,
    (d.render.drop k).take 2 = ['*', '/'] → k + 2 = d.render.length := by
  constructor
  · intro h k hk hdrop
    have hrender : d.render = d.render.take k ++ '*' :: '/' :: d.render.drop (k + 2) := by
      have hsplit := List.take_append_drop 2 (d.render.drop k)
      rw [hdrop, List.drop_drop] at hsplit
      exact (List.take_append_drop k _).symm.trans (congrArg _ hsplit.symm)
    have hlen := congrArg List.length hrender
    rw [h _ _ hrender, List.length_append, List.length_take_of_le (Nat.le_of_lt hk)] at hlen
    exact hlen.symm
  · intro h a b hab
    have hlt : a.length < d.render.length := by
      rw [hab, List.length_append, List.length_cons]
      omega
    have hk := h a.length hlt (by rw [hab, List.drop_left]; rfl)
    rw [hab, List.length_append, List.length_cons, List.length_cons] at hk
    exact List.length_eq_zero_iff.1 (by omega)

instance (d : DocBlock) : Decidable d.Closed := decidable_of_iff _ d.closed_iff.symm

namespace DocBlock

variable {d : DocBlock} {indent : Text}

theorem render_commented (d : DocBlock) : d.render = Text.commented .lf [] d.body := by
  have hrender := Text.join_splitOn '\n' d.render
  rw [splitOn_render] at hrender
  exact hrender.symm

theorem reindentComment_commented (d : DocBlock) (indent : Text) (e : LineEnding) :
    reindentComment d.render indent e.text = Text.commented e indent (d.body.map (movedLine indent)) :=
  d.reindentComment_render indent e.text

theorem closes_lines (t : Text) :
    (∃ l ∈ (Text.splitOn '\n' t).modifyHead (" * ".toList ++ ·), Text.Closes l) ↔ t.Closes := by
  have hline : ∀ w : Text, Text.Closes (" *".toList ++ ' ' :: w) ↔ w.Closes := fun w =>
    (Text.closes_append_cons (by decide) (by decide)).trans (or_iff_right (by decide))
  rw [Text.closes_splitOn t]
  cases hw : Text.splitOn '\n' t with
  | nil => exact absurd hw (Text.splitOn_ne_nil _ _)
  | cons w ws =>
    rw [List.modifyHead_cons, List.exists_mem_cons_iff, List.exists_mem_cons_iff]
    exact or_congr_left (hline w)

theorem closes_body : (∃ l ∈ d.body, l.Closes) ↔ ∃ t ∈ d.texts, t.Closes := by
  constructor
  · rintro ⟨l, hl, hc⟩
    rcases mem_body.1 hl with ⟨rfl, -⟩ | ⟨t, ht, hl⟩
    · exact absurd hc (by decide)
    · exact ⟨t, ht, (closes_lines t).1 ⟨l, hl, hc⟩⟩
  · rintro ⟨t, ht, hc⟩
    obtain ⟨l, hl, hc⟩ := (closes_lines t).2 hc
    exact ⟨l, mem_body.2 (.inr ⟨t, ht, hl⟩), hc⟩

theorem closes_movedLine (hi : ∀ c ∈ indent, isIndent c = true) {l : Text} :
    (movedLine indent l).Closes ↔ l.Closes := by
  have hindent : ∀ c ∈ indent, c ≠ '*' ∧ c ≠ '/' := fun c hc => by
    constructor <;> rintro rfl <;> cases hi _ hc
  rw [movedLine, Text.closes_append_left hindent, Text.closes_append_left (fun c hc => ?_), Text.closes_trim]
  split at hc
  · rw [List.mem_singleton.1 hc]
    decide
  · cases hc

theorem Closed.body (h : d.Closed) : ∀ l ∈ d.body, ¬l.Closes := by
  intro l hl hc
  obtain ⟨a, b, hab⟩ := (Text.closes_opened (e := .lf) (List.forall_mem_nil _)).2 ⟨l, hl, hc⟩
  have hrender : d.render = '/' :: '*' :: a ++ '*' :: '/' :: (b ++ "*/".toList) := by
    rw [render_commented, Text.commented_eq, ← hab]
    simp
  exact List.append_ne_nil_of_right_ne_nil b (by decide) (h _ _ hrender)

/-- Documentation at any indentation is one comment. -/
theorem Closed.reads (h : d.Closed) (e : LineEnding) (hi : ∀ c ∈ indent, isIndent c = true)
    {X : List Token} {t : Text} (hX : Reads .code X t) :
    Reads .code (⟨.docComment, reindentComment d.render indent e.text⟩ :: X)
      (reindentComment d.render indent e.text ++ t) := by
  rw [reindentComment_commented]
  refine Reads.commented hi (List.forall_mem_map.2 fun l hl => ?_) hX
  exact mt (closes_movedLine hi).1 (h.body l hl)

/-- Documentation is one comment, as it is written and wherever it is moved to, exactly if none of its
texts closes a comment. -/
theorem lexCode_documentation (d : DocBlock) (e : LineEnding) (hi : ∀ c ∈ indent, isIndent c = true) :
    (lexCode d.render = .ok [⟨.docComment, d.render⟩] ↔ ∀ t ∈ d.texts, ¬['*', '/'] <:+: t) ∧
    (lexCode (reindentComment d.render indent e.text) =
        .ok [⟨.docComment, reindentComment d.render indent e.text⟩] ↔
      ∀ t ∈ d.texts, ¬['*', '/'] <:+: t) := by
  have htexts : (∀ l ∈ d.body, ¬l.Closes) ↔ ∀ t ∈ d.texts, ¬['*', '/'] <:+: t := by
    have h := not_congr (closes_body (d := d))
    push Not at h
    exact h
  constructor
  · rw [render_commented, lexCode_commented (List.forall_mem_nil _), htexts]
  · rw [reindentComment_commented, lexCode_commented hi, List.forall_mem_map, ← htexts]
    exact forall₂_congr fun l _ => not_congr (closes_movedLine hi)

/-- Two texts do not make up what closes a comment, and one text that does ends the comment early. -/
theorem lexCode_documentation_star : (∀ c ∈ ['\t'], isIndent c = true) ∧
    (∀ d : DocBlock, d = { message? := some "a*", tags := [("x", .scalar "/b")] } →
      lexCode (reindentComment d.render ['\t'] LineEnding.crlf.text) =
        .ok [⟨.docComment, reindentComment d.render ['\t'] LineEnding.crlf.text⟩]) ∧
    ∀ d : DocBlock, d = { tags := [("x", .list [.flag, .scalar "*/"])] } →
      lexCode d.render ≠ .ok [⟨.docComment, d.render⟩] := by
  have hi : ∀ c ∈ ['\t'], isIndent c = true := List.forall_mem_singleton.2 rfl
  refine ⟨hi, fun d hd => ?_, fun d hd => ?_⟩
  · refine (d.lexCode_documentation .crlf hi).2.2 ?_
    subst hd
    decide
  · refine mt (d.lexCode_documentation .crlf hi).1.1 ?_
    subst hd
    decide

end DocBlock
end PhpGraft
