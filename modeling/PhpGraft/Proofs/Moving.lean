import Mathlib.Data.List.Forall2
import PhpGraft.Layout.Indent
import PhpGraft.Proofs.Locality
import PhpGraft.Proofs.Text

/-!
Code that is moved to another indentation is read as before. Line breaks outside of strings may
become others, lose the blanks in front of them and get other indentation behind them; nothing else
changes.
-/
namespace PhpGraft

/-- Alike to the parser: comments, heredocs and white space may differ in the white space of their
text, but not in whether white space goes over a line break or in what a heredoc starts and ends with. -/
structure Token.Like (t u : Token) : Prop where
  kind : u.kind = t.kind
  text : t.kind.isCode = true → t.kind ≠ .heredoc → u.text = t.text
  line : t.kind = .whitespace → u.text.contains '\n' = t.text.contains '\n'
  solid : u.text.solid = t.text.solid
  ends : t.kind = .heredoc → u.text.head? = t.text.head? ∧ u.text.getLast? = t.text.getLast?

namespace Lexer

/-- Characters that moving code may change. -/
def isLayout (c : Char) : Bool := c == ' ' || c == '\t' || c == '\r' || c == '\n'

/-- Starts with a line break. -/
def Breaks (t : Text) : Prop := (∃ r, t = '\n' :: r) ∨ ∃ r, t = '\r' :: '\n' :: r

/-- `t` spells moved code and `stop` behind it. Each character of the code comes with whether it is
quoted. -/
inductive Moved (stop : Text) : List (Char × Bool) → Text → Prop
  | done : Moved stop [] stop
  | keep {c b m t} : Moved stop m t → Moved stop ((c, b) :: m) (c :: t)
  /-- White space at the end of a line. -/
  | skip {c m t} : isLayout c = true → c ≠ '\n' → Breaks t → Moved stop m t →
      Moved stop ((c, false) :: m) t
  | feed {m t} : m = [] ∨ m.head? = some ('\n', false) → Moved stop m ('\n' :: t) →
      Moved stop m ('\r' :: '\n' :: t)
  | shift {i i' t : Text} {m} : (∀ c ∈ i, isIndent c = true) → (∀ c ∈ i', isIndent c = true) →
      Moved stop m t → Moved stop (('\n', false) :: (i.map (·, false) ++ m)) ('\n' :: (i' ++ t))

variable {stop t X : Text} {m R : List (Char × Bool)} {c : Char} {b : Bool}

theorem Breaks.append (h : Breaks t) (s : Text) : Breaks (t ++ s) := by
  rcases h with ⟨r, rfl⟩ | ⟨r, rfl⟩
  · exact .inl ⟨r ++ s, rfl⟩
  · exact .inr ⟨r ++ s, rfl⟩

theorem Breaks.mem (h : Breaks t) : '\n' ∈ t := by
  rcases h with ⟨r, rfl⟩ | ⟨r, rfl⟩
  · exact List.mem_cons_self
  · exact .tail _ List.mem_cons_self

theorem isLayout_of_isIndent (h : isIndent c = true) : isLayout c = true := by
  rcases Bool.or_eq_true_iff.1 h with h | h <;> rw [beq_iff_eq.1 h] <;> rfl

theorem isStop_of_isLayout (h : isLayout c = true) : isStop c = true := by
  simp only [isLayout, Bool.or_eq_true, beq_iff_eq] at h
  rcases h with ((rfl | rfl) | rfl) | rfl <;> rfl

/-- A character that is kept. -/
def Kept (p : Char × Bool) : Prop := isLayout p.1 = false ∨ p.2 = true

theorem Moved.kept (h : Moved stop ((c, b) :: m) X) (hk : Kept (c, b)) :
    ∃ t, X = c :: t ∧ Moved stop m t := by
  generalize hm : (c, b) :: m = n at h
  cases h with
  | done => cases hm
  | keep h =>
    cases hm
    exact ⟨_, rfl, h⟩
  | skip hc =>
    cases hm
    rcases hk with hk | hk
    · rw [hc] at hk
      cases hk
    · cases hk
  | feed hf =>
    subst hm
    rcases hf with hf | hf
    · cases hf
    · cases hf
      rcases hk with hk | hk <;> cases hk
  | shift =>
    cases hm
    rcases hk with hk | hk <;> cases hk

theorem Moved.kept_append {v : List (Char × Bool)} (h : Moved stop (v ++ R) X) (hk : ∀ p ∈ v, Kept p) :
    ∃ t, X = v.map Prod.fst ++ t ∧ Moved stop R t := by
  induction v generalizing X with
  | nil => exact ⟨X, rfl, h⟩
  | cons p v ih =>
    obtain ⟨t, rfl, ht⟩ := h.kept (hk p List.mem_cons_self)
    obtain ⟨s, rfl, hs⟩ := ih ht fun q hq => hk q (List.mem_cons_of_mem p hq)
    exact ⟨s, rfl, hs⟩

/-- Moved code keeps its first character, or both texts begin with something that ends tokens. -/
theorem Moved.first (h : Moved stop m X) (hs : Stopped stop) :
    Stopped (m.map Prod.fst) ∧ Stopped X ∨
      ∃ c b n t, m = (c, b) :: n ∧ X = c :: t ∧ Moved stop n t := by
  have hn : ∀ t, Stopped ('\n' :: t) := by
    rintro t c ⟨⟩
    rfl
  have hr : ∀ t, Stopped ('\r' :: t) := by
    rintro t c ⟨⟩
    rfl
  cases h with
  | done => exact .inl ⟨nofun, hs⟩
  | keep h => exact .inr ⟨_, _, _, _, rfl, rfl, h⟩
  | @skip c m t hc _ hb =>
    refine .inl ⟨?_, ?_⟩
    · rintro d ⟨⟩
      exact isStop_of_isLayout hc
    · rcases hb with ⟨r, rfl⟩ | ⟨r, rfl⟩
      · exact hn r
      · exact hr _
  | feed hf =>
    refine .inl ⟨?_, hr _⟩
    cases m with
    | nil => nofun
    | cons p m =>
      rcases hf with hf | hf
      · cases hf
      · cases hf
        exact hn _
  | shift => exact .inl ⟨hn _, hn _⟩

theorem Moved.head (h : Moved stop m X) (hs : Stopped stop) :
    Stopped (m.map Prod.fst) ∧ Stopped X ∨ (m.map Prod.fst).head? = X.head? := by
  rcases h.first hs with h | ⟨c, b, n, t, rfl, rfl, -⟩
  · exact .inl h
  · exact .inr rfl

theorem Moved.similar (h : Moved stop m X) (hs : Stopped stop) : Similar (m.map Prod.fst) X := by
  rcases h.first hs with ⟨hm, hX⟩ | ⟨c, b, n, t, rfl, rfl, hn⟩
  · exact .stop hm hX
  · exact .cons fun _ => hn.head hs

/-- What the moved code ends with, if that is kept. -/
theorem Moved.last (h : Moved stop (m ++ [(c, b)]) X) (hk : Kept (c, b)) :
    ∃ w Z, X = w ++ c :: Z ∧ Moved stop [] Z := by
  generalize hn : m ++ [(c, b)] = n at h
  induction h generalizing m with
  | done => cases m <;> cases hn
  | @keep d b' n t h ih =>
    cases m with
    | nil =>
      cases hn
      exact ⟨[], t, rfl, h⟩
    | cons p m =>
      obtain ⟨-, hn⟩ := List.cons.inj hn
      obtain ⟨w, Z, rfl, hZ⟩ := ih hn
      exact ⟨d :: w, Z, rfl, hZ⟩
  | skip hl _ _ _ ih =>
    cases m with
    | nil =>
      cases hn
      rcases hk with hk | hk
      · rw [hl] at hk
        cases hk
      · cases hk
    | cons p m => exact ih (List.cons.inj hn).2
  | feed _ _ ih =>
    obtain ⟨w, Z, hw, hZ⟩ := ih hn
    exact ⟨'\r' :: w, Z, by rw [hw]; rfl, hZ⟩
  | @shift i i' t n hi hi' h ih =>
    cases m with
    | nil =>
      obtain ⟨hc, -⟩ := List.cons.inj hn
      cases hc
      rcases hk with hk | hk <;> cases hk
    | cons p m =>
      obtain ⟨-, hn⟩ := List.cons.inj hn
      cases hlast : n.getLast? with
      | none =>
        rw [List.getLast?_eq_none_iff.1 hlast, List.append_nil] at hn
        have hmem : (c, b) ∈ i.map fun c => (c, false) := hn ▸ List.mem_append_right _ List.mem_cons_self
        obtain ⟨d, he, heq⟩ := List.mem_map.1 hmem
        cases heq
        rcases hk with hk | hk
        · rw [isLayout_of_isIndent (hi c he)] at hk
          cases hk
        · cases hk
      | some q =>
        obtain ⟨n', rfl⟩ := List.getLast?_eq_some_iff.1 hlast
        rw [← List.append_assoc] at hn
        have hq : [(c, b)] = [q] := (List.append_inj' hn rfl).2
        obtain ⟨w, Z, rfl, hZ⟩ := ih (m := n') (by rw [hq])
        exact ⟨'\n' :: (i' ++ w), Z, by simp, hZ⟩

/-! Where moved code can be cut: behind or in front of a character that is no layout. -/

/-- The code of a single token, none of it quoted. -/
def plain (v : Text) : List (Char × Bool) := v.map (·, false)

def Cut (v t : Text) : Prop :=
  (∃ c, v.getLast? = some c ∧ isLayout c = false) ∨ ∃ c, t.head? = some c ∧ isLayout c = false

theorem Cut.of_cons {v : Text} (h : Cut (c :: v) t) : Cut v t ∨ v = [] ∧ isLayout c = false := by
  obtain ⟨d, hd, hk⟩ | h := h
  · cases v with
    | nil =>
      obtain rfl : c = d := Option.some.inj hd
      exact .inr ⟨rfl, hk⟩
    | cons e v =>
      rw [List.getLast?_cons_cons] at hd
      exact .inl (.inl ⟨d, hd, hk⟩)
  · exact .inl (.inr h)

theorem Cut.of_layout {v : Text} (h : Cut (c :: v) t) (hc : isLayout c = true) : Cut v t := by
  rcases h.of_cons with h | ⟨-, hk⟩
  · exact h
  · rw [hc] at hk
    cases hk

theorem Cut.cons {v : Text} (h : Cut v t) (c : Char) : Cut (c :: v) t := by
  refine h.imp_left fun ⟨d, hd, hk⟩ => ⟨d, ?_, hk⟩
  rw [List.getLast?_cons, hd]
  rfl

theorem Cut.breaks {w : Text} (h : Cut w t) (hb : Breaks (w ++ t)) : Breaks w := by
  match w with
  | [] =>
    obtain ⟨c, hc, -⟩ | ⟨c, hc, hk⟩ := h
    · cases hc
    · rcases hb with ⟨r, rfl⟩ | ⟨r, rfl⟩ <;> cases hc <;> cases hk
  | [d] =>
    rcases hb with ⟨r, hr⟩ | ⟨r, hr⟩
    · cases hr
      exact .inl ⟨[], rfl⟩
    · cases hr
      obtain ⟨c, hc, hk⟩ | ⟨c, hc, hk⟩ := h <;> cases hc <;> cases hk
  | d :: e :: w =>
    rcases hb with ⟨r, hr⟩ | ⟨r, hr⟩
    · cases hr
      exact .inl ⟨_, rfl⟩
    · cases hr
      exact .inr ⟨_, rfl⟩

theorem plain_append (v w : Text) : plain (v ++ w) = plain v ++ plain w := List.map_append

theorem plain_fst (v : Text) : (plain v).map Prod.fst = v := by
  rw [plain, List.map_map, show Prod.fst ∘ (fun c : Char => (c, false)) = id from rfl, List.map_id]

theorem Moved.of_cut_nil (h : Moved stop R X) (hv : Cut [] (R.map Prod.fst)) : Cut [] X := by
  obtain ⟨c, hc, -⟩ | ⟨c, hc, hk⟩ := hv
  · cases hc
  · cases R with
    | nil => cases hc
    | cons p R =>
      cases hc
      obtain ⟨t, rfl, -⟩ := h.kept (.inl hk)
      exact .inr ⟨_, rfl, hk⟩

theorem Moved.cut_nil (h : Moved stop m X) (hm : m = plain [] ++ R) (hv : Cut [] (R.map Prod.fst)) :
    ∃ w t, X = w ++ t ∧ Moved stop R t ∧ Moved [] (plain []) w ∧ Cut w t := by
  obtain rfl : m = R := hm
  exact ⟨[], X, rfl, h, .done, h.of_cut_nil hv⟩

theorem Cut.indent {v i : Text} (hi : ∀ c ∈ i, isIndent c = true) (hv : Cut v (R.map Prod.fst))
    (h : plain i ++ m = plain v ++ R) :
    ∃ u, v = i ++ u ∧ m = plain u ++ R ∧ Cut u (R.map Prod.fst) := by
  induction i generalizing v with
  | nil => exact ⟨v, rfl, h, hv⟩
  | cons c i ih =>
    have hc := isLayout_of_isIndent (hi c List.mem_cons_self)
    cases v with
    | nil =>
      obtain ⟨d, hd, -⟩ | ⟨d, hd, hk⟩ := hv
      · cases hd
      · rw [← (show plain (c :: i) ++ m = R from h)] at hd
        obtain rfl : c = d := Option.some.inj hd
        rw [hc] at hk
        cases hk
    | cons d v =>
      obtain ⟨hd, htail⟩ := List.cons.inj h
      cases hd
      obtain ⟨u, rfl, hu⟩ :=
        ih (fun e he => hi e (List.mem_cons_of_mem c he)) (hv.of_layout hc) htail
      exact ⟨u, rfl, hu⟩

theorem Cut.append {w : Text} (h : Cut w t) (v : Text) : Cut (v ++ w) t := by
  induction v with
  | nil => exact h
  | cons c v ih => exact ih.cons c

/-- What is moved in front of a cut is moved by itself. -/
theorem Moved.cut (h : Moved stop m X) {v : Text} (hm : m = plain v ++ R)
    (hv : Cut v (R.map Prod.fst)) :
    ∃ w t, X = w ++ t ∧ Moved stop R t ∧ Moved [] (plain v) w ∧ Cut w t := by
  induction h generalizing v with
  | done =>
    obtain rfl : v = [] := List.map_eq_nil_iff.1 (List.append_eq_nil_iff.1 hm.symm).1
    exact Moved.done.cut_nil hm hv
  | @keep c b m t h ih =>
    cases v with
    | nil => exact h.keep.cut_nil hm hv
    | cons d v =>
      obtain ⟨hd, rfl⟩ := List.cons.inj hm
      cases hd
      rcases hv.of_cons with hv | ⟨rfl, hc⟩
      · obtain ⟨w, t, rfl, ht, hw, hcut⟩ := ih rfl hv
        exact ⟨c :: w, t, rfl, ht, hw.keep, hcut.cons c⟩
      · exact ⟨[c], t, rfl, h, Moved.done.keep, .inl ⟨c, rfl, hc⟩⟩
  | @skip c m t hc hn hb h ih =>
    cases v with
    | nil => exact (h.skip hc hn hb).cut_nil hm hv
    | cons d v =>
      obtain ⟨hd, rfl⟩ := List.cons.inj hm
      cases hd
      obtain ⟨w, t, rfl, ht, hw, hcut⟩ := ih rfl (hv.of_layout hc)
      exact ⟨w, t, rfl, ht, hw.skip hc hn (hcut.breaks hb), hcut⟩
  | @feed m t hf h ih =>
    cases v with
    | nil => exact (h.feed hf).cut_nil hm hv
    | cons d v =>
      obtain ⟨w, s, hws, ht, hw, hcut⟩ := ih hm hv
      rcases hcut.breaks (hws ▸ .inl ⟨t, rfl⟩) with ⟨r, rfl⟩ | ⟨r, rfl⟩
      · obtain ⟨-, rfl⟩ := List.cons.inj hws
        subst hm
        exact ⟨'\r' :: '\n' :: r, s, rfl, ht, hw.feed (.inr (hf.resolve_left nofun)), hcut.cons _⟩
      · cases hws
  | @shift i i' t m hi hi' h ih =>
    cases v with
    | nil => exact (h.shift hi hi').cut_nil hm hv
    | cons d v =>
      obtain ⟨hd, htail⟩ := List.cons.inj hm
      cases hd
      obtain ⟨u, rfl, rfl, hu⟩ := (hv.of_layout rfl).indent hi htail
      obtain ⟨w, s, rfl, ht, hw, hcut⟩ := ih rfl hu
      refine ⟨'\n' :: (i' ++ w), s, by simp, ht, ?_, (hcut.append i').cons _⟩
      rw [plain, List.map_cons, List.map_append]
      exact hw.shift hi hi'

/-! Each rule reads a moved token as it read the token. -/

theorem isSpace_of_isLayout (h : isLayout c = true) : isSpace c = true := by
  simp only [isLayout, Bool.or_eq_true, beq_iff_eq] at h
  rcases h with ((rfl | rfl) | rfl) | rfl <;> rfl

theorem not_isLayout_of_not_isSpace (h : isSpace c = false) : isLayout c = false :=
  Bool.eq_false_iff.2 fun hl => by
    rw [isSpace_of_isLayout hl] at h
    cases h

theorem Moved.of_nil (h : Moved [] [] X) : X = [] := by
  generalize hm : ([] : List (Char × Bool)) = m at h
  generalize hs : ([] : Text) = stop at h
  induction h with
  | done => rfl
  | keep => cases hm
  | skip => cases hm
  | feed _ _ ih =>
    rw [← hs] at ih
    cases ih hm
  | shift => cases hm

/-- The first character is kept, or it is layout as is what comes in its place. -/
theorem Moved.cons_cases (h : Moved stop ((c, b) :: m) X) :
    (∃ t, X = c :: t ∧ Moved stop m t) ∨
      isLayout c = true ∧ ∃ d t, X = d :: t ∧ isLayout d = true := by
  generalize hm : (c, b) :: m = n at h
  cases h with
  | done => cases hm
  | keep h =>
    cases hm
    exact .inl ⟨_, rfl, h⟩
  | skip hc _ hb =>
    cases hm
    rcases hb with ⟨r, rfl⟩ | ⟨r, rfl⟩
    · exact .inr ⟨hc, _, _, rfl, rfl⟩
    · exact .inr ⟨hc, _, _, rfl, rfl⟩
  | feed hf =>
    subst hm
    rcases hf with hf | hf
    · cases hf
    · cases hf
      exact .inr ⟨rfl, _, _, rfl, rfl⟩
  | shift =>
    cases hm
    exact .inr ⟨rfl, _, _, rfl, rfl⟩

theorem Moved.nonempty (h : Moved stop (p :: m) X) : X ≠ [] := by
  rintro rfl
  obtain ⟨t, ht, -⟩ | ⟨-, d, t, ht, -⟩ := h.cons_cases <;> cases ht

theorem Moved.space (h : Moved [] m X) (hs : ∀ p ∈ m, isSpace p.1 = true) :
    (∀ c ∈ X, isSpace c = true) ∧ ('\n' ∈ X ↔ '\n' ∈ m.map Prod.fst) := by
  induction h with
  | done => exact ⟨nofun, Iff.rfl⟩
  | keep h ih =>
    obtain ⟨hX, hn⟩ := ih fun p hp => hs p (List.mem_cons_of_mem _ hp)
    exact ⟨List.forall_mem_cons.2 ⟨hs _ List.mem_cons_self, hX⟩, by simp [hn]⟩
  | skip hc hne hb h ih =>
    obtain ⟨hX, hn⟩ := ih fun p hp => hs p (List.mem_cons_of_mem _ hp)
    exact ⟨hX, by simp [hn, Ne.symm hne]⟩
  | feed hf h ih =>
    obtain ⟨hX, hn⟩ := ih hs
    exact ⟨List.forall_mem_cons.2 ⟨rfl, hX⟩, by simpa using hn⟩
  | shift hi hi' h ih =>
    obtain ⟨hX, -⟩ := ih fun p hp => hs p (by simp [hp])
    refine ⟨fun c hc => ?_, by simp⟩
    rcases List.mem_cons.1 hc with rfl | hc
    · rfl
    · rcases List.mem_append.1 hc with hc | hc
      · exact isSpace_of_isLayout (isLayout_of_isIndent (hi' c hc))
      · exact hX c hc

/-- Moving changes white space alone. -/
theorem Moved.solid (h : Moved stop m X) :
    X.solid = Text.solid (m.map Prod.fst) ++ stop.solid := by
  have hwhite : ∀ {c : Char} {t : Text}, isLayout c = true → Text.solid (c :: t) = t.solid :=
    fun hc => Text.solid_cons_white (isWhite_of_isSpace (isSpace_of_isLayout hc))
  have hindent : ∀ {i : Text}, (∀ c ∈ i, isIndent c = true) → i.solid = [] := by
    intro i hi
    refine Text.solid_eq_nil.2 (List.all_eq_true.2 fun c hc => ?_)
    exact isWhite_of_isSpace (isSpace_of_isLayout (isLayout_of_isIndent (hi c hc)))
  induction h with
  | done => rfl
  | @keep c b m t _ ih =>
    rw [← List.singleton_append, Text.solid_append, ih, ← List.append_assoc, ← Text.solid_append]
    rfl
  | skip hc _ _ _ ih => rw [List.map_cons, hwhite hc, ih]
  | feed _ _ ih => rw [hwhite rfl, ih]
  | @shift i i' t m hi hi' _ ih =>
    rw [List.map_cons, List.map_append, hwhite rfl, hwhite rfl, Text.solid_append, Text.solid_append,
      ← plain, plain_fst, hindent hi, hindent hi', ih]
    rfl

/-- What is moved in front of other moved code. -/
theorem Moved.solid_left {v : List (Char × Bool)} {w Y : Text} (h : Moved stop (v ++ R) (w ++ Y))
    (hY : Moved stop R Y) : w.solid = Text.solid (v.map Prod.fst) := by
  have hall := h.solid
  rw [Text.solid_append, hY.solid, List.map_append, Text.solid_append, List.append_assoc] at hall
  exact List.append_cancel_right hall

theorem commentSize?_of_ne (h : c ≠ '*') (t : Text) :
    commentSize? (c :: t) = (commentSize? t).map (· + 1) :=
  commentSize?_cons fun _ hc => absurd hc h

theorem commentSize?_indent {i : Text} (hi : ∀ c ∈ i, isIndent c = true) (t : Text) :
    commentSize? (i ++ t) = (commentSize? t).map (· + i.length) := by
  induction i with
  | nil => simp
  | cons c i ih =>
    have hc : c ≠ '*' := by
      rintro rfl
      exact absurd (hi '*' List.mem_cons_self) (by decide)
    rw [List.cons_append, commentSize?_of_ne hc,
      ih fun d hd => hi d (List.mem_cons_of_mem c hd), Option.map_map]
    rfl

theorem Moved.commentSize?_eq (h : Moved [] m X)
    (hm : commentSize? (m.map Prod.fst) = some m.length) : commentSize? X = some X.length := by
  induction h with
  | done => cases hm
  | @keep c b m t h ih =>
    by_cases hend : c = '*' ∧ (m.map Prod.fst).head? = some '/'
    · obtain ⟨rfl, hd⟩ := hend
      cases m with
      | nil => cases hd
      | cons p m =>
        obtain ⟨d, b⟩ := p
        cases hd
        obtain ⟨t, rfl, ht⟩ := h.kept (.inl rfl)
        have hlen : 2 = m.length + 1 + 1 := Option.some.inj hm
        obtain rfl : m = [] := List.length_eq_zero_iff.1 (by omega)
        rw [ht.of_nil]
        rfl
    · exact commentSize?_step hend (h.head nofun) hm ih
  | skip hc hne hb h ih =>
    rename_i c m t
    have hstar : c ≠ '*' := by
      rintro rfl
      cases hc
    rw [List.map_cons, commentSize?_of_ne hstar] at hm
    obtain ⟨n, hn, hlen⟩ := Option.map_eq_some_iff.1 hm
    exact ih (hn.trans (congrArg some (Nat.succ.inj hlen)))
  | feed hf h ih =>
    rw [commentSize?_of_ne (by decide), ih hm]
    rfl
  | shift hi hi' h ih =>
    rename_i i i' t m
    rw [List.map_cons, commentSize?_of_ne (by decide), List.map_append, List.map_map,
      show Prod.fst ∘ (fun c : Char => (c, false)) = id from rfl, List.map_id,
      commentSize?_indent hi, Option.map_map] at hm
    obtain ⟨n, hn, hlen⟩ := Option.map_eq_some_iff.1 hm
    have hn := ih (hn.trans (congrArg some (by simp at hlen; omega)))
    rw [commentSize?_of_ne (by decide), commentSize?_indent hi', hn]
    simp [Nat.add_comm]


section

variable {label i v : Text}

theorem closesHeredoc_indent (hi : ∀ c ∈ i, isIndent c = true) (t : Text) :
    closesHeredoc label (i ++ t) = closesHeredoc label t := by
  rw [closesHeredoc, closesHeredoc, List.dropWhile_append_of_pos hi]

theorem heredocBody?_of_not_closes (h : closesHeredoc label t = false) :
    heredocBody? label true t = heredocBody? label false t := by
  rw [heredocBody?.eq_def, heredocBody?.eq_def label false, h]
  rfl

theorem heredocBody?_of_closes (h : closesHeredoc label t = true) :
    heredocBody? label true t = some ((t.takeWhile isIndent).length + label.length) := by
  rw [heredocBody?.eq_def, h]
  rfl

theorem heredocBody?_next (hc : c ≠ '\n') (t : Text) :
    heredocBody? label false (c :: t) = (heredocBody? label false t).map (· + 1) := by
  rw [heredocBody?_cons, beq_eq_false_iff_ne.2 hc]
  rfl

theorem heredocBody?_newline (t : Text) :
    heredocBody? label false ('\n' :: t) = (heredocBody? label true t).map (· + 1) := by
  rw [heredocBody?_cons]
  rfl

theorem ne_newline_of_isIndent (h : isIndent c = true) : c ≠ '\n' := by
  rintro rfl
  cases h

theorem heredocBody?_indent (hi : ∀ c ∈ i, isIndent c = true) (t : Text) :
    heredocBody? label false (i ++ t) = (heredocBody? label false t).map (· + i.length) := by
  induction i with
  | nil => simp
  | cons c i ih =>
    rw [List.cons_append, heredocBody?_next (ne_newline_of_isIndent (hi c List.mem_cons_self)),
      ih fun d hd => hi d (List.mem_cons_of_mem c hd), Option.map_map]
    rfl

theorem Moved.of_cons (h : Moved stop ((c, b) :: m) X) (hc : c ≠ '\n') :
    (∃ t, X = c :: t ∧ Moved stop m t) ∨ isLayout c = true ∧ Breaks X ∧ Moved stop m X := by
  generalize hm : (c, b) :: m = n at h
  cases h with
  | done => cases hm
  | keep h =>
    cases hm
    exact .inl ⟨_, rfl, h⟩
  | skip hl _ hb h =>
    cases hm
    exact .inr ⟨hl, hb, h⟩
  | feed hf =>
    subst hm
    rcases hf with hf | hf
    · cases hf
    · cases hf
      exact absurd rfl hc
  | shift =>
    cases hm
    exact absurd rfl hc

/-- Indentation in front of a character that is no layout is kept. -/
theorem Moved.indent (h : Moved stop m X) (hi : ∀ c ∈ i, isIndent c = true) {d : Char}
    (hm : m.map Prod.fst = i ++ d :: v) (hd : isLayout d = false) :
    ∃ n t, n.map Prod.fst = d :: v ∧ X = i ++ t ∧ Moved stop n t ∧ ¬Breaks X := by
  induction i generalizing m X with
  | nil =>
    refine ⟨m, X, hm, rfl, h, ?_⟩
    cases m with
    | nil => cases hm
    | cons p m =>
      obtain ⟨rfl, -⟩ := List.cons.inj hm
      obtain ⟨t, rfl, -⟩ := h.kept (.inl hd)
      rintro (⟨r, hr⟩ | ⟨r, hr⟩) <;> rw [(List.cons.inj hr).1] at hd <;> cases hd
  | cons c i ih =>
    have hi' : ∀ d ∈ i, isIndent d = true := fun d hd => hi d (List.mem_cons_of_mem c hd)
    cases m with
    | nil => cases hm
    | cons p m =>
      obtain ⟨e, b⟩ := p
      obtain ⟨he, htail⟩ := List.cons.inj hm
      obtain rfl : e = c := he
      have hne := hi e List.mem_cons_self
      rcases h.of_cons (ne_newline_of_isIndent hne) with ⟨t, rfl, ht⟩ | ⟨-, hb, ht⟩
      · obtain ⟨n, s, hn, rfl, hs, -⟩ := ih ht hi' htail
        refine ⟨n, s, hn, rfl, hs, ?_⟩
        rintro (⟨r, hr⟩ | ⟨r, hr⟩) <;> rw [(List.cons.inj hr).1] at hne <;> cases hne
      · obtain ⟨n, s, -, -, -, hnot⟩ := ih ht hi' htail
        exact absurd hb hnot

theorem isLayout_of_isNameChar (h : isNameChar c = true) : isLayout c = false :=
  not_isLayout_of_not_isSpace (not_isSpace_of_isNameChar h)

/-- What holds no line break was there before. -/
theorem Moved.of_append {v t : Text} (h : Moved [] m (v ++ t))
    (hv : ∀ c ∈ v, c ≠ '\n' ∧ c ≠ '\r') : ∃ n, m.map Prod.fst = v ++ n.map Prod.fst ∧ Moved [] n t := by
  induction v generalizing m with
  | nil => exact ⟨m, rfl, h⟩
  | cons c v ih =>
    obtain ⟨hn, hr⟩ := hv c List.mem_cons_self
    generalize hX : c :: v ++ t = X at h
    cases h with
    | done => cases hX
    | keep h =>
      obtain ⟨rfl, rfl⟩ := List.cons.inj hX
      obtain ⟨n, hm, ht⟩ := ih h fun d hd => hv d (List.mem_cons_of_mem _ hd)
      exact ⟨n, congrArg _ hm, ht⟩
    | skip _ _ hb =>
      rcases hb with ⟨r, rfl⟩ | ⟨r, rfl⟩
      · exact absurd (List.cons.inj hX).1 hn
      · exact absurd (List.cons.inj hX).1 hr
    | feed => exact absurd (List.cons.inj hX).1 hr
    | shift => exact absurd (List.cons.inj hX).1 hn

/-- Lines that close a heredoc did so before. -/
theorem Moved.closes (h : Moved [] m X) (hne : label ≠ [])
    (hname : ∀ c ∈ label, isNameChar c = true) (hc : closesHeredoc label X = true) :
    closesHeredoc label (m.map Prod.fst) = true := by
  obtain ⟨r, hr, hhead⟩ := closesHeredoc_split hc
  have hi : ∀ c ∈ X.takeWhile isIndent, isIndent c = true :=
    fun c hc => List.all_eq_true.1 List.all_takeWhile c hc
  generalize X.takeWhile isIndent = i at hr hi
  subst hr
  obtain ⟨n, hn, ht⟩ := h.of_append fun c hc => by
    rcases List.mem_append.1 hc with hc | hc
    · refine ⟨ne_newline_of_isIndent (hi c hc), ?_⟩
      rintro rfl
      cases hi _ hc
    · exact ⟨ne_of_isNameChar (hname c hc) (by decide), ne_of_isNameChar (hname c hc) (by decide)⟩
  rw [hn]
  refine closesHeredoc_append hi hne hname ?_
  rw [← (ht.similar nofun).any_head not_isNameChar_of_isStop, hhead]

/-- One line of a heredoc and what follows. -/
theorem Moved.heredocLine {i' : Text} (h : Moved [] m X) (hne : label ≠ [])
    (hname : ∀ c ∈ label, isNameChar c = true) (hi : ∀ c ∈ i, isIndent c = true)
    (hi' : ∀ c ∈ i', isIndent c = true)
    (ih : heredocBody? label false (m.map Prod.fst) = some m.length →
      heredocBody? label false X = some X.length)
    (hm : heredocBody? label true (i ++ m.map Prod.fst) = some (i.length + m.length)) :
    heredocBody? label true (i' ++ X) = some (i'.length + X.length) := by
  by_cases hc : closesHeredoc label (m.map Prod.fst) = true
  · have hj : ∀ c ∈ (m.map Prod.fst).takeWhile isIndent, isIndent c = true :=
      fun c hc => List.all_eq_true.1 List.all_takeWhile c hc
    rw [heredocBody?_of_closes ((closesHeredoc_indent hi _).trans hc),
      List.takeWhile_append_of_pos hi, List.length_append, Option.some.injEq] at hm
    obtain ⟨hv, -⟩ := eq_of_closesHeredoc (w := m.map Prod.fst) (r := [])
      (by rwa [List.append_nil]) (by rw [List.append_nil, List.length_map]; omega)
    rw [List.append_nil] at hv
    generalize (m.map Prod.fst).takeWhile isIndent = j at hv hj
    obtain ⟨d, l, rfl⟩ := List.exists_cons_of_ne_nil hne
    obtain ⟨n, t, hn, rfl, ht, -⟩ := h.indent hj hv
      (isLayout_of_isNameChar (hname d List.mem_cons_self))
    have hkept : ∀ p ∈ n, Kept p := fun p hp =>
      .inl (isLayout_of_isNameChar (hname p.1 (hn ▸ List.mem_map_of_mem hp)))
    rw [← List.append_nil n] at ht
    obtain ⟨s, rfl, hs⟩ := ht.kept_append hkept
    rw [hs.of_nil, hn]
    have hclose : closesHeredoc (d :: l) (j ++ (d :: l) ++ []) = true :=
      closesHeredoc_append hj hne hname rfl
    have htake := (takeWhile_isIndent hj hne hname []).1
    rw [List.append_assoc] at hclose htake
    rw [heredocBody?_of_closes ((closesHeredoc_indent hi' _).trans hclose),
      List.takeWhile_append_of_pos hi', htake]
    simp [Nat.add_assoc]
  · have hcX : closesHeredoc label X = false :=
      Bool.eq_false_iff.2 fun h' => hc (h.closes hne hname h')
    rw [heredocBody?_of_not_closes
      ((closesHeredoc_indent hi _).trans (Bool.eq_false_iff.2 hc)), heredocBody?_indent hi] at hm
    rw [heredocBody?_of_not_closes ((closesHeredoc_indent hi' _).trans hcX),
      heredocBody?_indent hi']
    obtain ⟨n, hn, hlen⟩ := Option.map_eq_some_iff.1 hm
    rw [ih (hn.trans (congrArg some (by omega))), Option.map_some, Nat.add_comm]

theorem Moved.heredocBody?_eq (h : Moved [] m X) (hne : label ≠ [])
    (hname : ∀ c ∈ label, isNameChar c = true)
    (hm : heredocBody? label false (m.map Prod.fst) = some m.length) :
    heredocBody? label false X = some X.length := by
  induction h with
  | done => 
    rw [List.map_nil, heredocBody?.eq_def] at hm
    cases hm
  | @keep c b m t h ih =>
    rw [List.map_cons] at hm
    by_cases hc : c = '\n'
    · subst hc
      rw [heredocBody?_newline] at hm ⊢
      obtain ⟨n, hn, hlen⟩ := Option.map_eq_some_iff.1 hm
      have hnil : ∀ c ∈ ([] : Text), isIndent c = true := List.forall_mem_nil _
      have := h.heredocLine hne hname hnil hnil ih (by rw [List.nil_append, hn]; simp at hlen ⊢; omega)
      rw [List.nil_append] at this
      rw [this]
      simp
    · rw [heredocBody?_next hc] at hm ⊢
      obtain ⟨n, hn, hlen⟩ := Option.map_eq_some_iff.1 hm
      rw [ih (hn.trans (congrArg some (Nat.succ.inj hlen)))]
      rfl
  | @skip c m t hc hn hb h ih =>
    rw [List.map_cons, heredocBody?_next hn] at hm
    obtain ⟨n, hn, hlen⟩ := Option.map_eq_some_iff.1 hm
    exact ih (hn.trans (congrArg some (Nat.succ.inj hlen)))
  | feed hf h ih =>
    rw [heredocBody?_next (by decide), ih hm]
    rfl
  | @shift i i' t m hi hi' h ih =>
    rw [List.map_cons, heredocBody?_newline, List.map_append, List.map_map,
      show Prod.fst ∘ (fun c : Char => (c, false)) = id from rfl, List.map_id] at hm
    obtain ⟨n, hn, hlen⟩ := Option.map_eq_some_iff.1 hm
    rw [heredocBody?_newline, h.heredocLine hne hname hi hi' ih (by rw [hn]; simp at hlen ⊢; omega)]
    simp

theorem Moved.heredocSize_eq (h : Moved [] m X)
    (hm : heredocSize (m.map Prod.fst) = .ok m.length) : heredocSize X = .ok X.length := by
  obtain ⟨i, q, label, rest, k, hsplit, hopens, hk, hlen⟩ := opens_of_heredocSize hm
  have hquotes : ∀ c ∈ q, isLayout c = false := by
    rcases hopens.quotes with rfl | rfl | rfl <;> simp [isLayout]
  have hfront : ∀ c ∈ q ++ label, isLayout c = false := by
    intro c hc
    rcases List.mem_append.1 hc with hc | hc
    · exact hquotes c hc
    · exact isLayout_of_isNameChar (hopens.name c hc)
  have hne : q ++ label ≠ [] := fun hnil => hopens.nonempty (List.append_eq_nil_iff.1 hnil).2
  rw [← List.append_assoc q] at hsplit
  have hrest : rest.length = k := by
    have := congrArg List.length hsplit
    simp at this
    omega
  generalize hf : q ++ label = front at hsplit hfront hne
  obtain ⟨d, l, rfl⟩ := List.exists_cons_of_ne_nil hne
  obtain ⟨n, t, hn, rfl, ht, -⟩ :=
    h.indent hopens.blank hsplit (hfront d List.mem_cons_self)
  obtain ⟨n₁, n₂, rfl, hn₁, rfl⟩ := List.map_eq_append_iff.1 (hn.trans List.cons_append.symm)
  obtain ⟨s, rfl, hs⟩ := ht.kept_append fun p hp =>
    .inl (hfront p.1 (hn₁ ▸ List.mem_map_of_mem hp))
  rw [List.length_map] at hrest
  subst hrest
  have hbody := hs.heredocBody?_eq hopens.nonempty hopens.name hk
  have hpos := heredocBody?_pos hopens.nonempty hk
  have hopens' : Opens i q label s := by
    cases n₂ with
    | nil => exact absurd hpos (Nat.lt_irrefl 0)
    | cons p n₂ =>
      refine ⟨hopens.blank, hopens.quotes, hopens.nonempty, hopens.name, ?_, fun hq => ?_⟩
      · rcases hs.cons_cases with ⟨t, rfl, -⟩ | ⟨-, e, t, rfl, he⟩
        · exact hopens.stops
        · refine Bool.eq_false_iff.2 fun hname => ?_
          rw [isLayout_of_isNameChar hname] at he
          cases he
      · rcases hs.cons_cases with ⟨t, rfl, -⟩ | ⟨hp, -⟩
        · exact hopens.closed hq
        · have := hquotes p.1 (List.mem_of_head? (hopens.closed hq).symm)
          rw [hp] at this
          cases this
  have := hopens'.heredocSize_eq
  rw [hbody] at this
  rw [hn₁, ← hf, List.append_assoc, this]
  simp [Nat.add_assoc]

end

theorem Moved.lineEnd {r : Text} (h : Moved stop R X) (hs : stop = '\n' :: r)
    (hR : R = [] ∨ R.head? = some ('\n', false)) :
    (∃ t, X = '\n' :: t) ∨ ∃ t, X = '\r' :: '\n' :: t ∧ Moved stop R ('\n' :: t) := by
  cases h with
  | done => exact .inl ⟨r, hs⟩
  | keep =>
    rcases hR with hR | hR
    · cases hR
    · cases hR
      exact .inl ⟨_, rfl⟩
  | skip _ hn =>
    rcases hR with hR | hR
    · cases hR
    · cases hR
      exact absurd rfl hn
  | feed _ h => exact .inr ⟨_, rfl, h⟩
  | shift => exact .inl ⟨_, rfl⟩

/-- A line comment loses the blanks at its end, and may get a carriage return there. -/
theorem Moved.lineComment {u r : Text} (h : Moved stop m X) (hm : m = plain u ++ R)
    (hs : stop = '\n' :: r) (hR : R = [] ∨ R.head? = some ('\n', false))
    (hu : lineCommentSize (m.map Prod.fst) = u.length) :
    ∃ w t, X = w ++ '\n' :: t ∧ Moved stop R ('\n' :: t) ∧
      lineCommentSize (w ++ '\n' :: t) = w.length := by
  have hnil : ∀ {m X}, Moved stop m X → m = plain [] ++ R → ∃ w t, X = w ++ '\n' :: t ∧
      Moved stop R ('\n' :: t) ∧ lineCommentSize (w ++ '\n' :: t) = w.length := by
    intro m X h hm
    obtain rfl : m = R := hm
    rcases h.lineEnd hs hR with ⟨t, rfl⟩ | ⟨t, rfl, ht⟩
    · exact ⟨[], t, rfl, h, rfl⟩
    · exact ⟨['\r'], t, rfl, ht, rfl⟩
  induction h generalizing u with
  | done =>
    obtain ⟨-, rfl⟩ := List.append_eq_nil_iff.1 hm.symm
    exact hnil .done rfl
  | @keep c b m t h ih =>
    cases u with
    | nil => exact hnil h.keep hm
    | cons d u =>
      obtain ⟨hd, rfl⟩ := List.cons.inj hm
      cases hd
      obtain ⟨hn, hc, hu⟩ := of_lineCommentSize_succ hu
      obtain ⟨w, t, rfl, ht, hw⟩ := ih rfl hu
      refine ⟨c :: w, t, rfl, ht, ?_⟩
      rw [List.cons_append, lineCommentSize_cons hn, hw]
      · rfl
      · intro s hq hX
        have hstop : Stopped stop := by
          subst hs
          rintro e ⟨⟩
          rfl
        rcases h.head hstop with ⟨-, hXs⟩ | hhead
        · exact absurd (hXs '>' (by rw [hX]; rfl)) (by decide)
        · rw [hX] at hhead
          obtain ⟨v, hv⟩ := List.head?_eq_some_iff.1 hhead
          exact hc v hq hv
  | skip hc hn hb h ih =>
    cases u with
    | nil => exact hnil (h.skip hc hn hb) hm
    | cons d u =>
      obtain ⟨hd, rfl⟩ := List.cons.inj hm
      cases hd
      exact ih rfl (of_lineCommentSize_succ hu).2.2
  | feed hf h ih =>
    cases u with
    | nil => exact hnil (h.feed hf) hm
    | cons d u =>
      subst hm
      rcases hf with hf | hf
      · cases hf
      · cases hf
        cases hu
  | shift hi hi' h ih =>
    cases u with
    | nil => exact hnil (h.shift hi hi') hm
    | cons d u => cases hu


/-! Tokens. -/

/-- The characters of tokens, each with whether it belongs to a string. -/
def flags (ts : List Token) : List (Char × Bool) :=
  ts.flatMap fun t => t.text.map (·, t.kind == .string)

theorem flags_fst (ts : List Token) : (flags ts).map Prod.fst = Token.spell ts := by
  simp [flags, Token.spell, List.map_flatMap, Function.comp_def]

section

variable {k : TokenKind} {u r : Text} {ts : List Token}

theorem takeWhile_append_eq {p : Char → Bool} (h : u.length = ((u ++ t).takeWhile p).length) :
    (∀ c ∈ u, p c = true) ∧ t.head?.any p = false := by
  have hu : (u ++ t).takeWhile p = u := by
    have := List.prefix_iff_eq_take.1 (List.takeWhile_prefix (l := u ++ t) p)
    rw [← h, List.take_left] at this
    exact this
  refine ⟨fun c hc => ?_, any_head_takeWhile (t := u ++ t) (by rw [hu])⟩
  rw [← hu] at hc
  exact List.all_eq_true.1 List.all_takeWhile c hc

theorem numberSize_eq (h : u.length = numberSize (u ++ t)) : ∀ c ∈ u, isSpace c = false := by
  induction u with
  | nil => nofun
  | cons c u ih =>
    rw [List.cons_append, numberSize] at h
    split at h
    · rename_i hc
      refine List.forall_mem_cons.2 ⟨?_, ih (Nat.succ.inj h)⟩
      simp only [Bool.or_eq_true, Bool.and_eq_true, beq_iff_eq] at hc
      rcases hc with (hc | rfl) | ⟨rfl, -⟩
      · refine not_isSpace_of_isNameChar ?_
        rcases Bool.or_eq_true_iff.1 hc with hc | hc <;> simp [isNameChar, isNameStart, hc]
      · rfl
      · rfl
    · cases h

theorem nameSize_eq (h : u.length = nameSize (u ++ t)) : ∀ c ∈ u, isSpace c = false := by
  induction u with
  | nil => nofun
  | cons c u ih =>
    rw [List.cons_append, nameSize] at h
    split at h
    · rename_i hc
      refine List.forall_mem_cons.2 ⟨?_, ih (Nat.succ.inj h)⟩
      rcases Bool.or_eq_true_iff.1 hc with hc | hc
      · exact not_isSpace_of_isNameChar hc
      · rw [beq_iff_eq.1 (Bool.and_eq_true_iff.1 hc).1]
        rfl
    · cases h

/-- Code holds white space in strings and heredocs alone. -/
theorem Rule.unspaced (h : Rule c (u ++ t) k u.length) (hw : k ≠ .whitespace) (hc : k.isComment = false)
    (hh : k ≠ .heredoc) (ht : k ≠ .closeTag) :
    ∀ p ∈ (c :: u).map (·, k == .string), isSpace p.1 = false ∨ p.2 = true := by
  have hall : (∀ d ∈ c :: u, isSpace d = false) →
      ∀ p ∈ (c :: u).map (·, k == .string), isSpace p.1 = false ∨ p.2 = true := by
    intro hd p hp
    obtain ⟨d, hmem, rfl⟩ := List.mem_map.1 hp
    exact .inl (hd d hmem)
  generalize hn : u.length = n at h
  cases h with
  | closeTag => exact absurd rfl ht
  | whitespace => exact absurd rfl hw
  | comment => split at hc <;> cases hc
  | lineComment => cases hc
  | var h =>
    refine hall (List.forall_mem_cons.2 ⟨?_, fun d hd => ?_⟩)
    · rw [h.1]
      rfl
    · exact not_isSpace_of_isNameChar ((takeWhile_append_eq hn).1 d hd)
  | heredoc => exact absurd rfl hh
  | string =>
    intro p hp
    obtain ⟨d, -, rfl⟩ := List.mem_map.1 hp
    exact .inr rfl
  | number h =>
    exact hall (List.forall_mem_cons.2
      ⟨not_isSpace_of_isNameChar (Bool.or_eq_true_iff.2 (.inr h)), numberSize_eq hn⟩)
  | name h =>
    refine hall (List.forall_mem_cons.2 ⟨?_, nameSize_eq hn⟩)
    rcases h with h | ⟨rfl, -⟩
    · exact not_isSpace_of_isNameChar (Bool.or_eq_true_iff.2 (.inl h))
    · rfl
  | punct _ h =>
    obtain rfl : u = [] := List.length_eq_zero_iff.1 hn
    exact hall (List.forall_mem_singleton.2 h)

theorem Rule.kept (h : Rule c (u ++ t) k u.length) (hw : k ≠ .whitespace) (hc : k.isComment = false)
    (hh : k ≠ .heredoc) (ht : k ≠ .closeTag) : ∀ p ∈ (c :: u).map (·, k == .string), Kept p :=
  fun p hp => (h.unspaced hw hc hh ht p hp).imp_left not_isLayout_of_not_isSpace

theorem flags_cons (x : Token) (ts : List Token) :
    flags (x :: ts) = x.text.map (·, x.kind == .string) ++ flags ts := rfl

theorem Rule.newline {n : Nat} (h : Rule '\n' t k n) : k = .whitespace := by
  have := h.scanCode_eq.symm.trans (Rule.whitespace (c := '\n') (t := t) rfl).scanCode_eq
  exact (Prod.mk.inj (Except.ok.inj this)).1

theorem Reads.head_newline {s : Text} (h : Reads .code ts ('\n' :: s)) :
    (flags ts).head? = some ('\n', false) := by
  cases h with
  | cons hs hr =>
    rw [flags_cons, (rule_of_scanCode hs).newline]
    rfl

theorem Rule.closeTag_eq {n : Nat} (h : Rule '?' ('>' :: t) k n) : k = .closeTag := by
  have := h.scanCode_eq.symm.trans (Rule.closeTag (t := '>' :: t) ⟨rfl, rfl⟩).scanCode_eq
  exact (Prod.mk.inj (Except.ok.inj this)).1

theorem Reads.head_closeTag {s : Text} (h : Reads .code ts ('?' :: '>' :: s)) :
    ∃ x ∈ ts, x.kind = .closeTag := by
  generalize ht : '?' :: '>' :: s = t at h
  cases h with
  | nil => cases ht
  | cons hs hr =>
    obtain ⟨rfl, htail⟩ := List.cons.inj ht
    rw [← htail] at hs
    exact ⟨_, List.mem_cons_self, (rule_of_scanCode hs).closeTag_eq⟩

theorem Rule.after {n : Nat} (h : Rule c t k n) (hk : k ≠ .closeTag) : Mode.after .code k = .code := by
  cases h with
  | closeTag => exact absurd rfl hk
  | comment => split <;> rfl
  | _ => rfl

theorem Moved.kept_plain {v : Text} (h : Moved stop (plain (v ++ u)) X)
    (hv : v.any isLayout = false) : ∃ w, X = v ++ w ∧ Moved stop (plain u) w := by
  rw [plain_append] at h
  obtain ⟨w, hX, hw⟩ := h.kept_append fun p hp => by
    obtain ⟨d, hd, rfl⟩ := List.mem_map.1 hp
    exact .inl (Bool.eq_false_iff.2 (List.any_eq_false.1 hv d hd))
  exact ⟨w, by rw [hX, plain_fst], hw⟩

/-- Where a token was moved, one like it is read, with what follows moved. -/
def Reread (stop : Text) (R : List (Char × Bool)) (k : TokenKind) (v X : Text) : Prop :=
  ∃ d w Y, X = d :: (w ++ Y) ∧ Moved stop R Y ∧ scanCode d (w ++ Y) = .ok (k, w.length) ∧
    Token.Like ⟨k, v⟩ ⟨k, d :: w⟩

/-- White space in front of a character of another token. -/
theorem Moved.whitespace {v : Text} (hm : Moved stop (plain (c :: v) ++ R) X)
    (hv : ∀ d ∈ c :: v, isSpace d = true)
    (hR : ∃ d, (R.map Prod.fst).head? = some d ∧ isSpace d = false) :
    Reread stop R .whitespace (c :: v) X := by
  obtain ⟨d, hd, hds⟩ := hR
  have hkept := not_isLayout_of_not_isSpace hds
  obtain ⟨w, Y, rfl, hY, hw, -⟩ := hm.cut rfl (.inr ⟨d, hd, hkept⟩)
  have hsolid := hm.solid_left hY
  rw [plain_fst] at hsolid
  obtain ⟨hspace, hnl⟩ := hw.space fun p hp => by
    obtain ⟨e, he, rfl⟩ := List.mem_map.1 hp
    exact hv e he
  rw [plain_fst] at hnl
  have hYhead : Y.head?.any isSpace = false := by
    cases R with
    | nil => cases hd
    | cons p R =>
      cases hd
      obtain ⟨t, rfl, -⟩ := hY.kept (.inl hkept)
      exact hds
  obtain ⟨e, w, rfl⟩ := List.exists_cons_of_ne_nil hw.nonempty
  obtain ⟨he, hw⟩ := List.forall_mem_cons.1 hspace
  refine ⟨e, w, Y, rfl, hY, ?_, rfl, nofun, fun _ => ?_, hsolid, nofun⟩
  · rw [(Rule.whitespace he).scanCode_eq, takeWhile_append_of_head hw hYhead]
  · rw [Bool.eq_iff_iff, List.contains_iff_mem, List.contains_iff_mem, hnl]

/-- Whether a comment that starts with a slash and `t` is documentation. -/
def isDoc (t : Text) : Bool := t.startsWith ['*', '*'] && (t.drop 2).head?.any isSpace

theorem isDoc_append {v : Text} (hv : 2 ≤ v.length) (t : Text) :
    isDoc ('*' :: (v ++ t)) = isDoc ('*' :: v) := by
  match v with
  | [] => simp at hv
  | [_] => simp at hv
  | _ :: _ :: _ => simp [isDoc, Text.startsWith, List.isPrefixOf]

theorem Moved.isDoc_eq {v w : Text} (h : Moved [] (plain v) w) (hv : 2 ≤ v.length) :
    isDoc ('*' :: w) = isDoc ('*' :: v) := by
  have hne : ∀ f, isLayout f = true → f ≠ '*' := by
    rintro f hf rfl
    cases hf
  match v with
  | [] => simp at hv
  | [_] => simp at hv
  | d :: e :: v =>
    rw [isDoc, isDoc, startsWith_cons, startsWith_cons]
    rcases h.cons_cases with ⟨t, rfl, ht⟩ | ⟨hl, f, t, rfl, hf⟩
    · rw [startsWith_singleton, startsWith_singleton]
      rcases ht.cons_cases with ⟨s, rfl, -⟩ | ⟨hl, f, s, rfl, hf⟩
      · rfl
      · simp [isSpace_of_isLayout hl, isSpace_of_isLayout hf]
    · rw [startsWith_cons_of_ne _ _ (hne d hl), startsWith_cons_of_ne _ _ (hne f hf)]
      rfl

/-- A comment up to its end. -/
theorem Moved.comment {v t : Text} (hm : Moved stop (plain ('/' :: '*' :: v) ++ R) X)
    (hv : commentSize? (v ++ t) = some v.length) :
    Reread stop R (if isDoc ('*' :: (v ++ t)) then .docComment else .blockComment)
      ('/' :: '*' :: v) X := by
  have hlast : v.getLast? = some '/' := by
    have := getLast?_commentSize? hv
    rwa [List.take_left] at this
  have hcut : Cut ('/' :: '*' :: v) (R.map Prod.fst) := by
    refine .inl ⟨'/', ?_, rfl⟩
    rw [List.getLast?_cons, List.getLast?_cons, hlast]
    rfl
  obtain ⟨W, Y, rfl, hY, hW, -⟩ := hm.cut rfl hcut
  have hsolid := hm.solid_left hY
  rw [plain_fst] at hsolid
  obtain ⟨w, rfl, hw⟩ := hW.kept_plain (v := ['/', '*']) rfl
  have hsize := hw.commentSize?_eq
  rw [plain_fst, plain, List.length_map] at hsize
  have halone := commentSize?_append hv []
  rw [List.append_nil] at halone
  have hwalone := hsize halone
  have hdoc : isDoc ('*' :: (w ++ Y)) = isDoc ('*' :: (v ++ t)) := by
    rw [isDoc_append (two_le_commentSize? hwalone), isDoc_append (two_le_commentSize? halone),
      hw.isDoc_eq (two_le_commentSize? halone)]
  have hwY := commentSize?_append (r := []) (by rwa [List.append_nil]) Y
  have := (Rule.comment (c := '/') (t := '*' :: (w ++ Y)) ⟨rfl, rfl⟩ hwY).scanCode_eq
  rw [← isDoc, hdoc, Nat.add_comm] at this
  refine ⟨'/', '*' :: w, Y, rfl, hY, this, rfl, fun hk => ?_, fun hk => ?_, hsolid, fun hk => ?_⟩
  · dsimp only at hk
    split at hk <;> cases hk
  · dsimp only at hk
    split at hk <;> cases hk
  · dsimp only at hk
    split at hk <;> cases hk

theorem Moved.heredoc {v : Text} (hm : Moved stop (plain ('<' :: '<' :: '<' :: v) ++ R) X)
    (hs : Stopped stop) (hv : heredocSize (v ++ R.map Prod.fst) = .ok v.length) :
    Reread stop R .heredoc ('<' :: '<' :: '<' :: v) X := by
  obtain ⟨⟨c, hlast, hc⟩, hhead⟩ := heredocSize_last hv
  have hcut : Cut ('<' :: '<' :: '<' :: v) (R.map Prod.fst) := by
    refine .inl ⟨c, ?_, isLayout_of_isNameChar hc⟩
    rw [List.getLast?_cons, List.getLast?_cons, List.getLast?_cons, hlast]
    rfl
  obtain ⟨W, Y, rfl, hY, hW, -⟩ := hm.cut rfl hcut
  have hsolid := hm.solid_left hY
  rw [plain_fst] at hsolid
  obtain ⟨w, rfl, hw⟩ := hW.kept_plain (v := ['<', '<', '<']) rfl
  have hends : ('<' :: '<' :: '<' :: w : Text).getLast? = ('<' :: '<' :: '<' :: v : Text).getLast? := by
    obtain ⟨m, rfl⟩ := List.getLast?_eq_some_iff.1 hlast
    have hm := hw
    rw [plain_append] at hm
    obtain ⟨x, Z, rfl, hZ⟩ := hm.last (.inl (isLayout_of_isNameChar hc))
    rw [hZ.of_nil]
    simp [List.getLast?_cons, List.getLast?_append]
  have hsize := hw.heredocSize_eq
  rw [plain_fst, plain, List.length_map] at hsize
  have halone := heredocSize_append hv (show ([] : Text).head?.any isNameChar = _ from hhead.symm)
  rw [List.append_nil] at halone
  have hY' : Y.head?.any isNameChar = ([] : Text).head?.any isNameChar := by
    rw [(hY.similar hs).any_head not_isNameChar_of_isStop, hhead]
    rfl
  have hwsize := heredocSize_append (by rw [List.append_nil]; exact hsize halone) hY'
  have := (Rule.heredoc (c := '<') (t := '<' :: '<' :: (w ++ Y)) ⟨rfl, rfl⟩ hwsize).scanCode_eq
  rw [Nat.add_comm] at this
  exact ⟨'<', '<' :: '<' :: w, Y, rfl, hY, this, rfl, fun _ h => absurd rfl h, nofun, hsolid,
    fun _ => ⟨rfl, hends⟩⟩

theorem Moved.line {u : Text} (hm : Moved ('\n' :: r) (plain (c :: u) ++ R) X)
    (hc : (c = '/' ∧ (u ++ R.map Prod.fst).startsWith ['/']) ∨
      (c = '#' ∧ !(u ++ R.map Prod.fst).startsWith ['[']))
    (hR : R = [] ∨ R.head? = some ('\n', false))
    (hu : lineCommentSize (u ++ R.map Prod.fst) = u.length) :
    Reread ('\n' :: r) R .lineComment (c :: u) X := by
  have hstop : Stopped ('\n' :: r) := by
    rintro d ⟨⟩
    rfl
  have hcl : isLayout c = false := by rcases hc with ⟨rfl, -⟩ | ⟨rfl, -⟩ <;> rfl
  obtain ⟨t, rfl, ht⟩ : ∃ t, X = c :: t ∧ Moved _ (plain u ++ R) t := hm.kept (.inl hcl)
  have hfst : (plain u ++ R).map Prod.fst = u ++ R.map Prod.fst := by
    rw [List.map_append, plain_fst]
  have hsim := ht.similar hstop
  rw [hfst] at hsim
  obtain ⟨w, s, rfl, hs, hsize⟩ := ht.lineComment rfl rfl hR (by rw [hfst, hu])
  have hstart : ∀ q, isStop q = false →
      (w ++ '\n' :: s).startsWith [q] = (u ++ R.map Prod.fst).startsWith [q] :=
    fun q hq => hsim.startsWith hq []
  rw [← hstart '/' rfl, ← hstart '[' rfl] at hc
  have := (Rule.lineComment hc).scanCode_eq
  rw [hsize] at this
  have hsolid := hm.solid_left (w := c :: w) hs
  rw [plain_fst] at hsolid
  exact ⟨c, w, '\n' :: s, rfl, hs, this, rfl, nofun, nofun, hsolid, nofun⟩

/-- A token of moved code is read as it was, with what follows moved. -/
theorem Rule.moved (h : Rule c (u ++ Token.spell ts) k u.length)
    (hts : Reads .code ts (Token.spell ts)) (hm : Moved ('\n' :: r) (flags (⟨k, c :: u⟩ :: ts)) X)
    (hk : k ≠ .closeTag) (hclose : ∀ x ∈ ts, x.kind ≠ .closeTag)
    (hlast : k = .whitespace → ts ≠ []) : Reread ('\n' :: r) (flags ts) k (c :: u) X := by
  have hstop : Stopped ('\n' :: r) := by
    rintro d ⟨⟩
    rfl
  rw [flags_cons] at hm
  by_cases hplain : k ≠ .whitespace ∧ k.isComment = false ∧ k ≠ .heredoc
  · obtain ⟨hw, hc, hh⟩ := hplain
    obtain ⟨Y, rfl, hY⟩ := hm.kept_append (h.kept hw hc hh hk)
    rw [List.map_map, show Prod.fst ∘ (fun c : Char => (c, k == .string)) = id from rfl, List.map_id]
    refine ⟨c, u, Y, rfl, hY, ?_, rfl, fun _ _ => rfl, fun _ => rfl, rfl,
      fun _ => ⟨rfl, rfl⟩⟩
    refine (h.similar (flags_fst ts ▸ hY.similar hstop) (fun hk => absurd hk hw) ?_
      (fun h => absurd h hk)).scanCode_eq
    rintro rfl
    cases hc
  · have hend := h.endsLine
    rw [← flags_fst] at h hend
    generalize hn : u.length = n at h
    cases h with
    | whitespace hs =>
      obtain ⟨hu, hhead⟩ := takeWhile_append_eq hn
      refine Moved.whitespace hm (List.forall_mem_cons.2 ⟨hs, hu⟩) ?_
      obtain ⟨x, ts, rfl⟩ := List.exists_cons_of_ne_nil (hlast rfl)
      obtain ⟨d, v, hd⟩ := List.exists_cons_of_ne_nil (hts.text_ne_nil x List.mem_cons_self)
      refine ⟨d, ?_, ?_⟩
      · rw [flags_cons, hd]
        rfl
      · rw [flags_cons, hd] at hhead
        exact hhead
    | @comment m hc hsize =>
      obtain ⟨rfl, hstar⟩ := hc
      cases u with
      | nil =>
        rw [List.length_nil] at hn
        omega
      | cons d v =>
        obtain ⟨_, hv⟩ := List.isPrefixOf_iff_prefix.1 hstar
        obtain rfl : '*' = d := (List.cons.inj hv).1
        have hm' : Moved ('\n' :: r) (plain ('/' :: '*' :: v) ++ flags ts) X := by
          split at hm <;> exact hm
        refine Moved.comment hm' ?_
        rw [List.length_cons] at hn
        exact hsize.trans (congrArg some (by omega))
    | lineComment hc =>
      refine Moved.line hm hc ?_ hn.symm
      rcases hend rfl with hnil | ⟨s, hs⟩ | ⟨s, hs⟩
      · exact .inl (List.map_eq_nil_iff.1 hnil)
      · rw [flags_fst] at hs
        exact .inr (Reads.head_newline (hs ▸ hts))
      · rw [flags_fst] at hs
        obtain ⟨x, hx, hkind⟩ := Reads.head_closeTag (hs ▸ hts)
        exact absurd hkind (hclose x hx)
    | @heredoc m hc hsize =>
      obtain ⟨rfl, hstart⟩ := hc
      match u with
      | [] => simp at hn; omega
      | [_] => simp at hn; omega
      | d :: e :: v =>
        obtain ⟨_, hv⟩ := List.isPrefixOf_iff_prefix.1 hstart
        obtain rfl : '<' = d := (List.cons.inj hv).1
        obtain rfl : '<' = e := (List.cons.inj (List.cons.inj hv).2).1
        refine Moved.heredoc hm hstop (hsize.trans (congrArg _ ?_))
        simp only [List.length_cons] at hn
        omega
    | _ => exact absurd (by decide) hplain

/-- Moved code is read into tokens that are like those it was read into, whatever is behind it. -/
theorem Reads.moved {s : Text} (h : Reads .code ts s) (hm : Moved ('\n' :: r) (flags ts) X)
    (hclose : ∀ x ∈ ts, x.kind ≠ .closeTag) (hlast : ∀ x, ts.getLast? = some x → x.kind ≠ .whitespace) :
    ∃ us Y, X = Token.spell us ++ Y ∧ List.Forall₂ Token.Like ts us ∧
      Moved ('\n' :: r) [] Y ∧ ∀ zs, Reads .code zs Y → Reads .code (us ++ zs) X := by
  induction ts generalizing s X with
  | nil => exact ⟨[], X, rfl, .nil, hm, fun zs h => h⟩
  | cons x ts ih =>
    obtain ⟨hx, hts⟩ := List.forall_mem_cons.1 hclose
    cases h with
    | @cons _ c u t k _ hs hr =>
      obtain rfl : t = Token.spell ts := hr.spell.symm
      have hrule := rule_of_scanCode hs
      have hmode := hrule.after hx
      rw [hmode] at hr
      have hne : k = .whitespace → ts ≠ [] := by
        rintro hk rfl
        exact hlast _ rfl hk
      have hlast' : ∀ x, ts.getLast? = some x → x.kind ≠ .whitespace := by
        intro x hx
        refine hlast x ?_
        rw [List.getLast?_cons, hx]
        rfl
      obtain ⟨d, w, Z, rfl, hZ, hscan, hlike⟩ := hrule.moved hr hm hx hts hne
      obtain ⟨us, Y, rfl, hus, hY, hreads⟩ := ih hr hZ hts hlast'
      refine ⟨⟨k, d :: w⟩ :: us, Y, ?_, .cons hlike hus, hY, fun zs hzs => ?_⟩
      · simp [Token.spell]
      · exact .cons hscan (hmode.symm ▸ hreads zs hzs)

end

end Lexer
end PhpGraft
