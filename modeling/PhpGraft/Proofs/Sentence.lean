import PhpGraft.Proofs.Cutting

/-!
A statement by itself: its tokens, without white space around them. Moved to another indentation and
set off by a line break, it is read into tokens like these.
-/
namespace PhpGraft

open Lexer

namespace Text

variable {c : Char} {s t w : Text}

/-- Starts and ends with characters that are not white space. -/
structure Solid (t : Text) : Prop where
  first : ∃ c u, t = c :: u ∧ isWhite c = false
  last : ∃ c, t.getLast? = some c ∧ isWhite c = false

theorem Solid.trim_append (h : Solid t) (hw : ∀ c ∈ w, isWhite c = true) : trim (t ++ w) = t := by
  obtain ⟨c, u, rfl, hc⟩ := h.first
  obtain ⟨d, hd, hdw⟩ := h.last
  have hstart : trimStart (c :: u ++ w) = c :: u ++ w := trimStart_append_cons (s := []) hc
  obtain ⟨v, hv⟩ := List.getLast?_eq_some_iff.1 hd
  rw [trim, hstart, hv, List.append_assoc, List.singleton_append, trimEnd_append_cons hdw,
    trimEnd_eq_nil hw]

theorem Solid.trim_eq (h : Solid t) : trim t = t := by
  have htrim := h.trim_append (w := []) nofun
  rwa [List.append_nil] at htrim

theorem Solid.ne_nil (h : Solid t) : t ≠ [] := by
  obtain ⟨c, u, rfl, -⟩ := h.first
  exact List.cons_ne_nil c u

theorem isTidy_left (h : isTidy (s ++ t) = true)
    (hlast : ∀ c, s.getLast? = some c → isWhite c = false) : isTidy s = true := by
  induction s with
  | nil => rfl
  | cons c s ih =>
    obtain ⟨hc, ht⟩ := isTidy_cons.1 h
    refine isTidy_cons.2 ⟨fun hw => ?_, ih ht fun d hd => hlast d ?_⟩
    · refine (hc hw).imp_right (Or.imp_right fun ⟨hr, hnext⟩ => ⟨hr, ?_⟩)
      cases s with
      | nil =>
        have hfalse := hlast c rfl
        rw [hw] at hfalse
        cases hfalse
      | cons d s => exact hnext
    · rw [List.getLast?_cons, hd]
      rfl

end Text

namespace Lexer

variable {stop X Y r : Text} {m : List (Char × Bool)} {d : Char} {b : Bool}

/-- A line break that follows moved code may lose its carriage return to a comment, or get one. -/
theorem Moved.newline (h : Moved ('\n' :: r) [] Y) : Y = '\n' :: r ∨ Y = '\r' :: '\n' :: r := by
  generalize hm : ([] : List (Char × Bool)) = m at h
  cases h with
  | done => exact .inl rfl
  | keep => cases hm
  | skip => cases hm
  | shift => cases hm
  | @feed m t _ h =>
    subst hm
    generalize hm : ([] : List (Char × Bool)) = m at h
    generalize hX : '\n' :: t = X at h
    cases h with
    | done => exact .inr rfl
    | keep => cases hm
    | skip => cases hm
    | shift => cases hm
    | feed => cases hX

/-- In tidy code a token that is not white space does not start with any. -/
theorem Reads.head_not_isWhite {x : Token} {zs : List Token} {s : Text} (h : Reads .code (x :: zs) s)
    (ht : s.isTidy = true) (hx : x.kind ≠ .whitespace) : ∃ c u, x.text = c :: u ∧ isWhite c = false := by
  cases h with
  | @cons _ c u t k _ hs hr =>
    refine ⟨c, u, rfl, Bool.eq_false_iff.2 fun hw => hx ?_⟩
    have hlayout := Text.isLayout_of_isTidy ht List.mem_cons_self hw
    exact ((rule_of_scanCode hs).space (isSpace_of_isLayout hlayout)).1

end Lexer

/-- The tokens of a statement in tidy code. -/
structure Sentence (xs : List Token) : Prop where
  reads : Reads .code xs (Token.spell xs)
  tidy : (Token.spell xs).isTidy = true
  solid : (Token.spell xs).Solid
  ends : ∀ x, xs.getLast? = some x → x.kind ≠ .whitespace
  closed : ∀ x ∈ xs, x.kind ≠ .closeTag

variable {xs : List Token} {indent : Text}

/-- Code from a token that is not white space up to a semicolon, a brace or a comment is a statement
when it is cut out and trimmed. -/
theorem Sentence.of_reads {A L R : List Token} {x : Token} {code : Text}
    (h : Reads .code (A ++ (L ++ x :: R)) code) (ht : code.isTidy = true)
    (hclose : ∀ t ∈ A ++ (L ++ x :: R), t.kind ≠ .closeTag)
    (hx : (∃ z, isBarrier z = true ∧ x = ⟨.punct, [z]⟩) ∨ x.kind.isComment = true)
    (hhead : ∀ y, (L ++ [x]).head? = some y → y.kind ≠ .whitespace) :
    ∃ y, x.Like y ∧ Sentence (L ++ [y]) ∧ ∀ w : Text, (∀ c ∈ w, isWhite c = true) →
      Text.trim (Token.spell (L ++ [x]) ++ w) = Token.spell (L ++ [y]) := by
  obtain ⟨hA, hrest⟩ := List.forall_mem_append.1 hclose
  obtain ⟨hL, hxR⟩ := List.forall_mem_append.1 hrest
  have hreads := h.of_append
  rw [afterAll_code hA] at hreads
  obtain ⟨y, hlike, htext, -, hcut⟩ := hreads.cut hx hL
  obtain ⟨w', hw', hwhite'⟩ := Text.trimEnd_append_white x.text
  have hspell : Token.spell (L ++ [y]) = Token.spell L ++ y.text := by
    rw [spell_append, spell_singleton]
  have hcode : code = Token.spell A ++ (Token.spell (L ++ [y]) ++ (w' ++ Token.spell R)) := by
    rw [← h.spell, spell_append, spell_append, hspell, htext, List.append_assoc,
      ← List.append_assoc (Text.trimEnd x.text), ← hw']
    rfl
  have htidy := Text.isTidy_of_append (hcode ▸ ht)
  have hne : y.text ≠ [] := hcut.text_ne_nil y (by simp)
  obtain ⟨c, hc⟩ : ∃ c, y.text.getLast? = some c :=
    ⟨_, List.getLast?_eq_some_getLast hne⟩
  have hcw : isWhite c = false := Text.getLast_trimEnd (htext ▸ hc)
  have hlast : (Token.spell (L ++ [y])).getLast? = some c := by
    rw [hspell, List.getLast?_append, hc]
    rfl
  have htidy' : (Token.spell (L ++ [y])).isTidy = true :=
    Text.isTidy_left htidy fun d hd => by
      rw [hlast] at hd
      cases hd
      exact hcw
  have hfirst : ∃ c u, Token.spell (L ++ [y]) = c :: u ∧ isWhite c = false := by
    rw [hspell] at htidy' ⊢
    have hhead' : ∀ z, (L ++ [y]).head? = some z → z.kind ≠ .whitespace := by
      intro z hz
      cases L with
      | nil =>
        cases hz
        rw [hlike.kind]
        exact hhead x rfl
      | cons => exact hhead z hz
    obtain ⟨z, zs, hzs⟩ := List.exists_cons_of_ne_nil
      (List.append_ne_nil_of_right_ne_nil L (List.cons_ne_nil y []))
    rw [hzs] at hcut hhead'
    obtain ⟨d, u, hd, hdw⟩ := hcut.head_not_isWhite htidy' (hhead' z rfl)
    refine ⟨d, u ++ Token.spell zs, ?_, hdw⟩
    rw [← hcut.spell, Token.spell, List.flatMap_cons, hd]
    rfl
  have hsolid : (Token.spell (L ++ [y])).Solid := ⟨hfirst, c, hlast, hcw⟩
  refine ⟨y, hlike, ⟨hspell ▸ hcut, htidy', hsolid, fun z hz => ?_, ?_⟩, fun w hw => ?_⟩
  · rw [List.getLast?_append, List.getLast?_singleton, Option.some_or, Option.some.injEq] at hz
    rw [← hz, hlike.kind]
    rcases hx with ⟨z, -, rfl⟩ | hx
    · exact fun hk => by cases hk
    · intro hk
      rw [hk] at hx
      cases hx
  · refine List.forall_mem_append.2 ⟨hL, List.forall_mem_singleton.2 ?_⟩
    rw [hlike.kind]
    exact hxR x List.mem_cons_self
  · rw [spell_append, spell_singleton, hw', ← htext, ← List.append_assoc, ← hspell, List.append_assoc]
    exact hsolid.trim_append (List.forall_mem_append.2 ⟨hwhite', hw⟩)

theorem Sentence.moved (h : Sentence xs) (e : LineEnding) (hi : ∀ c ∈ indent, isIndent c = true)
    {stop z : Text} (hz : Moved stop [] z) :
    Moved stop (flags xs) (reindent (Token.spell xs) indent e.text ++ z) :=
  moved_reindent (h.reads.run _) h.tidy h.solid.trim_eq e hi hz

theorem not_isLayout_of_not_isWhite {c : Char} (h : isWhite c = false) : isLayout c = false := by
  refine not_isLayout_of_not_isSpace (Bool.eq_false_iff.2 fun hs => ?_)
  rw [isWhite_of_isSpace hs] at h
  cases h

theorem Sentence.solid_reindent (h : Sentence xs) (e : LineEnding)
    (hi : ∀ c ∈ indent, isIndent c = true) :
    (reindent (Token.spell xs) indent e.text).Solid := by
  have hm := h.moved e hi (.done : Moved [] [] [])
  rw [List.append_nil] at hm
  have hfst := flags_fst xs
  refine ⟨?_, ?_⟩
  · obtain ⟨c, u, hc, hw⟩ := h.solid.first
    rw [hc] at hfst
    obtain ⟨⟨d, b⟩, m, hflags, hd, -⟩ := List.map_eq_cons_iff.1 hfst
    obtain rfl : d = c := hd
    rw [hflags] at hm
    obtain ⟨t, ht, -⟩ := hm.kept (.inl (not_isLayout_of_not_isWhite hw))
    exact ⟨d, t, ht, hw⟩
  · obtain ⟨c, hc, hw⟩ := h.solid.last
    rw [← hfst, List.getLast?_map] at hc
    obtain ⟨⟨d, b⟩, hd, rfl⟩ := Option.map_eq_some_iff.1 hc
    obtain ⟨m, hflags⟩ := List.getLast?_eq_some_iff.1 hd
    rw [hflags] at hm
    obtain ⟨w, Z, ht, hZ⟩ := hm.last (.inl (not_isLayout_of_not_isWhite hw))
    rw [hZ.of_nil] at ht
    exact ⟨d, by rw [ht, List.getLast?_append]; rfl, hw⟩

/-- A moved statement in front of a line break and other code. -/
theorem Sentence.reads_reindent (h : Sentence xs) (e : LineEnding)
    (hi : ∀ c ∈ indent, isIndent c = true) {X : List Token} {w t : Text}
    (hw : ∀ c ∈ w, isIndent c = true) (ht : t.head?.any isSpace = false) (hX : Reads .code X t) :
    ∃ us v, List.Forall₂ Token.Like xs us ∧
      (∀ s : Text, (∀ c ∈ s, isWhite c = true) →
        Text.trim (Token.spell us ++ s) = reindent (Token.spell xs) indent e.text) ∧
      (∀ c ∈ v, isSpace c = true) ∧ v.contains '\n' = true ∧
      Reads .code (us ++ ⟨.whitespace, v⟩ :: X)
        (reindent (Token.spell xs) indent e.text ++ (e.text ++ (w ++ t))) := by
  have hsolid := h.solid_reindent e hi
  have hz : Moved ('\n' :: (w ++ t)) [] (e.text ++ (w ++ t)) := by
    cases e with
    | lf => exact .done
    | crlf => exact .feed (.inl rfl) .done
  obtain ⟨us, Y, hspell, hlike, hY, hreads⟩ := h.reads.moved (h.moved e hi hz) h.closed h.ends
  have hspace : ∀ c ∈ w, isSpace c = true :=
    fun c hc => isSpace_of_isLayout (isLayout_of_isIndent (hw c hc))
  have hbreak : ∃ v, Y = v ++ t ∧ v ≠ [] ∧ (∀ c ∈ v, isSpace c = true) ∧ v.contains '\n' = true ∧
      (v = '\n' :: w ∨ v = '\r' :: '\n' :: w) := by
    rcases hY.newline with rfl | rfl
    · exact ⟨'\n' :: w, rfl, List.cons_ne_nil _ _, List.forall_mem_cons.2 ⟨rfl, hspace⟩, by simp,
        .inl rfl⟩
    · exact ⟨'\r' :: '\n' :: w, rfl, List.cons_ne_nil _ _,
        List.forall_mem_cons.2 ⟨rfl, List.forall_mem_cons.2 ⟨rfl, hspace⟩⟩, by simp, .inr rfl⟩
  obtain ⟨v, rfl, hne, hv, hline, hcases⟩ := hbreak
  refine ⟨us, v, hlike, fun s hs => ?_, hv, hline, ?_⟩
  · -- A comment at the end may have taken the carriage return of the line break.
    have hend : Token.spell us = reindent (Token.spell xs) indent e.text ∨
        Token.spell us = reindent (Token.spell xs) indent e.text ++ ['\r'] := by
      cases e with
      | lf =>
        rcases hcases with rfl | rfl
        · exact .inl (List.append_cancel_right hspell).symm
        · have hcr : reindent (Token.spell xs) indent LineEnding.lf.text =
              Token.spell us ++ ['\r'] := by
            have hend : _ ++ '\n' :: (w ++ t) = Token.spell us ++ ['\r'] ++ '\n' :: (w ++ t) :=
              hspell.trans (by simp)
            exact List.append_cancel_right hend
          obtain ⟨c, hc, hcw⟩ := hsolid.last
          rw [hcr, List.getLast?_append] at hc
          cases hc
          cases hcw
      | crlf =>
        rcases hcases with rfl | rfl
        · have hend : Token.spell us ++ '\n' :: (w ++ t) =
              reindent (Token.spell xs) indent LineEnding.crlf.text ++ ['\r'] ++ '\n' :: (w ++ t) :=
            hspell.symm.trans (by simp [LineEnding.text])
          exact .inr (List.append_cancel_right hend)
        · exact .inl (List.append_cancel_right hspell).symm
    rcases hend with hend | hend
    · rw [hend, hsolid.trim_append hs]
    · rw [hend, List.append_assoc]
      exact hsolid.trim_append (List.forall_mem_cons.2 ⟨rfl, hs⟩)
  · have hblank := hX.blank hv ht
    obtain ⟨c, v, rfl⟩ := List.exists_cons_of_ne_nil hne
    exact hreads _ hblank

end PhpGraft
