import PhpGraft.Proofs.Locality

/-!
How far lexing looks ahead: seven characters outside of code, two inside. What a text begins with is
read the same way whatever follows farther behind.
-/
namespace PhpGraft

namespace Lexer

variable {c : Char} {u v w r t : Text} {k : TokenKind} {m : Mode}

theorem openTag?_ahead (hv : 6 ≤ v.length) (c : Char) (r r' : Text) :
    openTag? c (v ++ r') = openTag? c (v ++ r) := by
  match v, hv with
  | a₁ :: a₂ :: a₃ :: a₄ :: a₅ :: a₆ :: v, _ =>
    by_cases hc : c = '<'
    · subst hc
      by_cases he : a₁ = '?' ∧ a₂ = '='
      · obtain ⟨rfl, rfl⟩ := he
        rfl
      · have hne : ∀ r s : Text,
            a₁ :: a₂ :: a₃ :: a₄ :: a₅ :: a₆ :: v ++ r ≠ '?' :: '=' :: s := by
          rintro r s ⟨⟩
          exact he ⟨rfl, rfl⟩
        rw [openTag?_of_ne (hne r), openTag?_of_ne (hne r')]
        simp only [List.cons_append, List.take_succ_cons, List.drop_succ_cons, List.drop_zero]
        congr 1
        grind
    · rw [openTag?, openTag?] <;> intros <;> contradiction

theorem htmlSize_ahead (hw : 7 ≤ w.length) (h : htmlSize (u ++ (w ++ r)) = u.length) (r' : Text) :
    htmlSize (u ++ (w ++ r')) = u.length := by
  induction u with
  | nil =>
    cases w with
    | nil => cases hw
    | cons c w =>
      simp only [List.nil_append, List.cons_append, htmlSize] at h ⊢
      rw [openTag?_ahead (Nat.le_of_succ_le_succ hw) c r]
      split at h
      · rw [if_pos ‹_›]
        rfl
      · cases h
  | cons c u ih =>
    simp only [List.cons_append, htmlSize] at h ⊢
    rw [← List.append_assoc, openTag?_ahead (by simp; omega) c r, List.append_assoc]
    split at h
    · cases h
    · rw [if_neg ‹_›, List.append_assoc, ih (Nat.succ.inj h)]
      rfl

/-- Outside of code. -/
theorem scanHtml_ahead (hw : 7 ≤ w.length) (h : scanHtml c (u ++ (w ++ r)) = (k, u.length))
    (r' : Text) : scanHtml c (u ++ (w ++ r')) = (k, u.length) := by
  have hopen : openTag? c (u ++ (w ++ r')) = openTag? c (u ++ (w ++ r)) := by
    rw [← List.append_assoc, ← List.append_assoc]
    exact openTag?_ahead (by simp; omega) c r r'
  rw [scanHtml] at h ⊢
  rw [hopen]
  cases ho : openTag? c (u ++ (w ++ r)) with
  | some n =>
    rw [ho] at h
    exact h
  | none =>
    rw [ho] at h
    obtain ⟨hk, hsize⟩ := Prod.mk.inj h
    exact Prod.ext hk (htmlSize_ahead hw hsize r')

theorem lineBreakSize_ahead (hv : 2 ≤ v.length) (r r' : Text) :
    lineBreakSize (v ++ r') = lineBreakSize (v ++ r) := by
  match v, hv with
  | a :: b :: v, _ => unfold lineBreakSize; grind

theorem EndsLine.ahead (h : EndsLine (v ++ r)) (hv : 2 ≤ v.length) (r' : Text) :
    EndsLine (v ++ r') := by
  match v, hv with
  | a :: b :: v, _ =>
    rcases h with h | ⟨s, h⟩ | ⟨s, h⟩
    · cases h
    · cases h
      exact .inr (.inl ⟨_, rfl⟩)
    · cases h
      exact .inr (.inr ⟨_, rfl⟩)

/-- Inside of code. -/
theorem scanCode_ahead (hw : 2 ≤ w.length) (h : scanCode c (u ++ (w ++ r)) = .ok (k, u.length))
    (r' : Text) : scanCode c (u ++ (w ++ r')) = .ok (k, u.length) := by
  have hsimilar : Similar (w ++ r) (w ++ r') := by
    match w, hw with
    | a :: b :: w, _ => exact .cons fun _ => .inr rfl
  have hspace : (w ++ r').head?.any isSpace = (w ++ r).head?.any isSpace := by
    match w, hw with
    | a :: b :: w, _ => rfl
  refine ((rule_of_scanCode h).similar hsimilar (fun _ => hspace)
    (fun hk => ((rule_of_scanCode h).endsLine hk).ahead hw r') fun _ => ?_).scanCode_eq
  rw [← List.append_assoc, ← List.append_assoc]
  exact lineBreakSize_ahead (by simp; omega) r r'

theorem scan_ahead (hw : 7 ≤ w.length) (h : scan m c (u ++ (w ++ r)) = .ok (k, u.length))
    (r' : Text) : scan m c (u ++ (w ++ r')) = .ok (k, u.length) := by
  cases m with
  | html => exact congrArg _ (scanHtml_ahead hw (Except.ok.inj h) r')
  | code => exact scanCode_ahead (by omega) h r'

theorem run_cons (h : scan m c (u ++ t) = .ok (k, u.length)) (p : Position) :
    run m p (c :: (u ++ t)) =
      (run (m.after k) ((c :: u).foldl Position.next p) t).map (⟨k, c :: u⟩ :: ·) := by
  rw [run, h]
  simp only [List.take_left, List.drop_left]
  cases run (m.after k) ((c :: u).foldl Position.next p) t <;> rfl

/-- Tokens are read the same in front of seven characters that stay. -/
theorem run_ahead {xs ys : List Token} (h : Reads m (xs ++ ys) t) (hys : Token.spell ys = w ++ r)
    (hw : 7 ≤ w.length) (r' : Text) (p : Position) :
    run m p (Token.spell xs ++ (w ++ r')) =
      (run (m.afterAll xs) ((Token.spell xs).foldl Position.next p) (w ++ r')).map (xs ++ ·) := by
  induction xs generalizing m t p with
  | nil => cases hrun : run m p (w ++ r') <;> simp [Token.spell, Mode.afterAll, hrun, Except.map]
  | cons x xs ih =>
    cases h with
    | @cons _ c u t k _ hs hr =>
      have ht : t = Token.spell xs ++ w ++ r := by
        rw [List.append_assoc, ← hys, ← spell_append]
        exact hr.spell.symm
      rw [ht] at hs
      have hs := scan_ahead (by simp; omega) hs r'
      rw [List.append_assoc] at hs
      have htext : Token.spell (⟨k, c :: u⟩ :: xs) = c :: (u ++ Token.spell xs) := by
        simp [Token.spell]
      rw [htext, List.cons_append, List.append_assoc, run_cons hs, ih hr]
      simp only [Mode.afterAll, List.foldl_cons, List.foldl_append]
      cases run (List.foldl (fun m t => m.after t.kind) (m.after k) xs) _ (w ++ r') <;> rfl

end Lexer

/-! What a text begins with. -/

/-- Lexing the text gives these tokens first, whatever comes of what stands behind them. -/
def Text.Begins (t : Text) (ts : List Token) : Prop :=
  ∃ rest, t = Token.spell ts ++ rest ∧
    lex t = (Lexer.run (Lexer.Mode.html.afterAll ts) (.after (Token.spell ts)) rest).map (ts ++ ·)

/-- The first code of the text. -/
def Text.FirstCode (t : Text) (d : Token) : Prop :=
  d.kind.isCode = true ∧ ∃ front : List Token,
    (∀ x ∈ front, x.kind.isCode = false) ∧ t.Begins (front ++ [d])

variable {t : Text} {d : Token} {ts : List Token}

theorem Text.FirstCode.find? (h : t.FirstCode d) (ht : lex t = .ok ts) :
    ts.find? (·.kind.isCode) = some d := by
  obtain ⟨hd, front, hfront, rest, -, hlex⟩ := h
  rw [ht] at hlex
  cases hrun : Lexer.run (Lexer.Mode.html.afterAll (front ++ [d]))
      (.after (Token.spell (front ++ [d]))) rest with
  | error e =>
    rw [hrun] at hlex
    cases hlex
  | ok us =>
    rw [hrun] at hlex
    obtain rfl : ts = front ++ [d] ++ us := Except.ok.inj hlex
    rw [List.append_assoc, List.find?_append, List.find?_eq_none.2, Option.none_or,
      List.singleton_append, List.find?_cons_of_pos (p := fun x : Token => x.kind.isCode) hd]
    exact fun x hx => Bool.eq_false_iff.1 (hfront x hx)

/-- The first code of a text without lexical errors. -/
theorem Text.firstCode_iff (ht : lex t = .ok ts) :
    t.FirstCode d ↔ ts.find? (·.kind.isCode) = some d := by
  refine ⟨fun h => h.find? ht, fun h => ?_⟩
  obtain ⟨hd, front, behind, rfl, hfront⟩ := List.find?_eq_some_iff_append.1 h
  have hsplit : front ++ d :: behind = (front ++ [d]) ++ behind := by simp
  have hreads := Lexer.reads_of_run ht
  rw [hsplit] at hreads ht
  refine ⟨hd, front, fun x hx => by simpa using hfront x hx, Token.spell behind, ?_, ?_⟩
  · rw [← Lexer.spell_append]
    exact hreads.spell.symm
  · rw [hreads.of_append.run, ht]
    rfl

end PhpGraft
