import PhpGraft.Proofs.Excerpt
import PhpGraft.Proofs.Joining

/-!
Other code behind tokens. What stands behind tokens that end with code or a comment may be exchanged
for other code, if either begins with a character that ends tokens; so a semicolon in front of a
close tag may be left out.
-/
namespace PhpGraft.Lexer

variable {c : Char} {u w y r r' t t' : Text} {k : TokenKind} {m : Mode} {xs zs zs' : List Token}

/-! Outside of code. -/

/-- An open tag does not go on behind another `<`. -/
theorem openTag?_back (hw : '<' ∈ w) (h : (openTag? c (w ++ r)).isSome = true) :
    (openTag? c w).isSome = true := by
  obtain ⟨n, hn⟩ := Option.isSome_iff_exists.1 h
  obtain ⟨rfl, ⟨-, v, hv⟩ | ⟨a, v, ht, ha, hv⟩⟩ := openTag?_cases hn
  · match w, hw with
    | [d], hw =>
      obtain ⟨rfl, -⟩ := List.cons.inj hv
      cases List.mem_singleton.1 hw
    | d :: e :: w, _ =>
      obtain ⟨rfl, htail⟩ := List.cons.inj hv
      obtain ⟨rfl, -⟩ : e = '=' ∧ w ++ r = v := List.cons.inj htail
      rfl
  · have hno : '<' ∉ a := by
      intro hmem
      have hmem := List.mem_map_of_mem (f := Char.toLower) hmem
      rw [show a.map Char.toLower = "?php".toList from ha] at hmem
      revert hmem
      decide
    obtain ⟨b, rfl, rfl⟩ : ∃ b, w = a ++ b ∧ v = b ++ r := by
      rcases List.append_eq_append_iff.1 ht with ⟨b, rfl, -⟩ | ⟨b, rfl, rfl⟩
      · exact absurd (List.mem_append_left b hw) hno
      · exact ⟨b, rfl, rfl⟩
    obtain ⟨d, b, rfl⟩ : ∃ d b', b = d :: b' := by
      refine List.exists_cons_of_ne_nil ?_
      rintro rfl
      rw [List.append_nil] at hw
      exact hno hw
    rcases hv with ⟨-, hv⟩ | ⟨-, s, hv⟩ | ⟨-, e, s, hv, he, -⟩
    · cases hv
    · obtain ⟨rfl, -⟩ := List.cons.inj hv
      exact openTag?_space ha rfl b
    · obtain ⟨rfl, -⟩ := List.cons.inj hv
      exact openTag?_space ha he b

theorem htmlSize_append (hw : '<' ∈ w) (hopen : htmlSize (w ++ r) = 0)
    (h : htmlSize (u ++ w) = u.length) : htmlSize (u ++ (w ++ r)) = u.length := by
  induction u with
  | nil => exact hopen
  | cons d u ih =>
    rw [List.cons_append, htmlSize] at h ⊢
    split at h
    · cases h
    · rename_i hnone
      rw [ih (Nat.succ.inj h), if_neg, List.length_cons]
      rw [← List.append_assoc]
      exact fun hsome => hnone (openTag?_back (List.mem_append_right u hw) hsome)

theorem scanHtml_append (hw : w ≠ []) (h : scanHtml c (u ++ w) = (k, u.length)) (r : Text)
    (hk : k = .inlineHtml → '<' ∈ w ∧ htmlSize (w ++ r) = 0) :
    scanHtml c (u ++ (w ++ r)) = (k, u.length) := by
  rcases kind_scanHtml c (u ++ w) with ⟨n, hopen, he⟩ | ⟨hnone, he⟩
  · obtain ⟨rfl, rfl⟩ := Prod.mk.inj (h.symm.trans he)
    rw [scanHtml, openTag?_congr hopen (.inl (List.head?_append_of_ne_nil w hw))]
  · obtain ⟨rfl, hsize⟩ := Prod.mk.inj (h.symm.trans he)
    obtain ⟨hmem, hzero⟩ := hk rfl
    have hnone' : openTag? c (u ++ (w ++ r)) = none := by
      rw [← List.append_assoc, ← Option.not_isSome_iff_eq_none]
      intro hsome
      have hback := openTag?_back (List.mem_append_right u hmem) hsome
      rw [hnone] at hback
      cases hback
    rw [scanHtml, hnone', htmlSize_append hmem hzero hsize.symm]

/-! In code. -/

theorem lineBreakSize_append (h : 2 ≤ y.length) (r : Text) :
    lineBreakSize (y ++ r) = lineBreakSize y := by
  match y, h with
  | d :: e :: y, _ => simp only [List.cons_append, lineBreakSize]; grind

/-- The end of a line is told by the character behind it, or by two that are no stop. -/
theorem endsLine_behind (hne : y ≠ []) (hr : Stopped r) (h : EndsLine (y ++ r)) (r' : Text) :
    EndsLine (y ++ r') := by
  rcases h with h | ⟨s, h⟩ | ⟨s, h⟩
  · exact absurd (List.append_eq_nil_iff.1 h).1 hne
  · match y with
    | d :: y =>
      obtain ⟨rfl, -⟩ := List.cons.inj h
      exact .inr (.inl ⟨_, rfl⟩)
  · match y with
    | [d] =>
      obtain ⟨-, rfl⟩ := List.cons.inj h
      exact absurd (hr '>' rfl) (by decide)
    | d :: e :: y =>
      obtain ⟨rfl, htail⟩ := List.cons.inj h
      obtain ⟨rfl, -⟩ : e = '>' ∧ y ++ r = s := List.cons.inj htail
      exact .inr (.inr ⟨_, rfl⟩)

/-- The last of these tokens is code or a comment, one that ends in front of `t` if it goes to the
end of its line. -/
def Joins (xs : List Token) (t : Text) : Prop :=
  ∀ x, xs.getLast? = some x →
    x.kind.isOutside = false ∧ x.kind ≠ .whitespace ∧ (x.kind = .lineComment → EndsLine t)

theorem Joins.tail {x : Token} (h : Joins (x :: xs) t) : Joins xs t := fun y hy => by
  refine h y ?_
  rw [List.getLast?_cons, hy]
  rfl

theorem Joins.ne_nil {x : Token} (h : Joins (x :: xs) t) (hx : x.kind.isOutside = true) :
    xs ≠ [] := by
  rintro rfl
  rw [(h x rfl).1] at hx
  cases hx

theorem spell_append_ne (h : Reads m (xs ++ zs) t) (hne : xs ≠ []) : Token.spell xs ≠ [] := by
  obtain ⟨x, xs, rfl⟩ := List.exists_cons_of_ne_nil hne
  have hx := h.text_ne_nil x (List.mem_append_left zs List.mem_cons_self)
  exact fun h => hx (List.append_eq_nil_iff.1 h).1

/-- Between a close tag and code stand two tokens at least. -/
theorem two_le_spell (h : Reads .html (xs ++ zs) t) (hne : xs ≠ []) (hj : Joins xs t') :
    2 ≤ (Token.spell xs).length := by
  obtain ⟨x, xs, rfl⟩ := List.exists_cons_of_ne_nil hne
  obtain ⟨y, ys, rfl⟩ := List.exists_cons_of_ne_nil (hj.ne_nil (isOutside_html h))
  have hx := h.text_ne_nil x (List.mem_append_left zs List.mem_cons_self)
  have hy := h.text_ne_nil y (List.mem_append_left zs (.tail _ List.mem_cons_self))
  have := List.length_pos_iff.2 hx
  have := List.length_pos_iff.2 hy
  simp only [Token.spell, List.flatMap_cons, List.length_append]
  omega

/-- Text from an open tag on, up to some token behind it. -/
theorem Reads.opens_cut {x : Token} (h : Reads .html (x :: (xs ++ zs)) t) (hx : x.kind = .openTag) :
    '<' ∈ Token.spell (x :: xs) ∧ htmlSize (Token.spell (x :: xs)) = 0 := by
  cases h with
  | @cons _ c u t k _ hs hr =>
    obtain rfl : k = .openTag := hx
    rcases kind_scanHtml c (u ++ t) with ⟨n, hopen, he⟩ | ⟨-, he⟩
    · obtain ⟨rfl, -⟩ := openTag?_cases hopen
      obtain rfl : u.length = n := congrArg Prod.snd ((Except.ok.inj hs).symm.trans he)
      refine ⟨List.mem_append_left _ List.mem_cons_self, ?_⟩
      have ht : t = Token.spell xs ++ Token.spell zs := hr.spell.symm.trans (spell_append xs zs)
      have hcut := openTag?_congr (t := Token.spell xs) hopen
        (by rw [ht]; cases Token.spell xs <;> simp)
      rw [Token.spell, List.flatMap_cons, List.cons_append, htmlSize]
      exact if_pos (by rw [show List.flatMap Token.text xs = Token.spell xs from rfl, hcut]; rfl)
    · cases (Except.ok.inj hs).symm.trans he

/-- What is read outside of code does not depend on the code behind that. -/
theorem scanHtml_junction (hs : scan .html c (u ++ (Token.spell xs ++ Token.spell zs)) =
      .ok (k, u.length)) (hr : Reads (Mode.html.after k) (xs ++ zs) t)
    (hrest : Reads (Mode.html.after k) (xs ++ zs') (Token.spell xs ++ t')) (hne : xs ≠ [])
    (hnext : ∀ y ∈ xs.head?, k = .inlineHtml → y.kind = .openTag) :
    scan .html c (u ++ (Token.spell xs ++ t')) = .ok (k, u.length) := by
  have hopens : k = .inlineHtml → ∃ y ys, xs = y :: ys ∧ y.kind = .openTag := by
    intro hk
    obtain ⟨y, ys, rfl⟩ := List.exists_cons_of_ne_nil hne
    exact ⟨y, ys, rfl, hnext y rfl hk⟩
  have hcut := scanHtml_excerpt (Except.ok.inj hs) fun hk => by
    obtain ⟨y, ys, rfl, hy⟩ := hopens hk
    subst hk
    exact hr.opens_cut hy
  refine congrArg Except.ok (scanHtml_append (spell_append_ne hr hne) hcut t' fun hk => ?_)
  obtain ⟨y, ys, rfl, hy⟩ := hopens hk
  subst hk
  exact ⟨(hr.opens_cut hy).1, (hrest.opens hy).2⟩

/-- Behind code or a comment other code may stand, if either begins with a character that ends
tokens. -/
theorem Reads.junction (h : Reads m (xs ++ zs) t) (h' : Reads .code zs' t')
    (hr : Stopped (Token.spell zs)) (hr' : Stopped t') (hj : Joins xs t')
    (hm : xs = [] → m = .code) : Reads m (xs ++ zs') (Token.spell xs ++ t') := by
  induction xs generalizing m t with
  | nil =>
    obtain rfl := hm rfl
    exact h'
  | cons x xs ih =>
    have hchain := h.precedes
    have hout : m = .html → x.kind.isOutside = true := by
      rintro rfl
      exact isOutside_html h
    cases h with
    | @cons _ c u t k _ hs hreads =>
      have ht : t = Token.spell xs ++ Token.spell zs := hreads.spell.symm.trans (spell_append xs zs)
      have hne : k.isOutside = true → xs ≠ [] := fun hk => hj.ne_nil hk
      have hrest := ih hreads hj.tail <| by
        rintro rfl
        have hk : k.isOutside = false := (hj _ rfl).1
        cases m with
        | html =>
          rw [show k.isOutside = true from hout rfl] at hk
          cases hk
        | code => cases k <;> first | rfl | cases hk
      rw [ht] at hs
      have hscan : scan m c (u ++ (Token.spell xs ++ t')) = .ok (k, u.length) := by
        cases m with
        | html =>
          refine scanHtml_junction hs hreads hrest (hne (hout rfl)) fun y hy hk => ?_
          obtain ⟨ys, rfl⟩ := List.head?_eq_some_iff.1 hy
          exact (List.isChain_cons_cons.1 hchain).1.2.1 hk
        | code =>
          have hrule := rule_of_scanCode hs
          refine (hrule.similar (similar_of_stopped hr hr' _) (fun hk => ?_) (fun hk => ?_)
            fun hk => ?_).scanCode_eq
          · have hxs : xs ≠ [] := by
              rintro rfl
              exact (hj _ rfl).2.1 hk
            have hspell := spell_append_ne hreads hxs
            rw [List.head?_append_of_ne_nil _ hspell, List.head?_append_of_ne_nil _ hspell]
          · by_cases hxs : xs = []
            · subst hxs
              exact (hj _ rfl).2.2 hk
            · exact endsLine_behind (spell_append_ne hreads hxs) hr (hrule.endsLine hk) t'
          · subst hk
            have htwo := two_le_spell hreads (hne rfl) hj.tail
            have hsize : ∀ r, lineBreakSize (u.drop 1 ++ (Token.spell xs ++ r)) =
                lineBreakSize (u.drop 1 ++ Token.spell xs) := fun r => by
              rw [← List.append_assoc, lineBreakSize_append]
              rw [List.length_append]
              omega
            rw [hsize, hsize]
      have hcons := Reads.cons hscan hrest
      simpa only [Token.spell, List.flatMap_cons, List.cons_append, List.append_assoc] using hcons

/-! A semicolon in front of a close tag. -/

theorem Reads.space_of_mem {x : Token} (h : Reads m xs t) (hx : x ∈ xs) (hk : x.kind = .whitespace) :
    ∀ c ∈ x.text, isSpace c = true := by
  obtain ⟨i, hi⟩ := List.mem_iff_getElem?.1 hx
  obtain ⟨m', c, u, hu, hs⟩ := h.get hi
  rw [hk] at hs
  cases m' with
  | html => cases isOutside_scan hs
  | code =>
    rw [hu]
    exact (rule_of_scanCode hs).whitespace_space

theorem stopped_append (hw : ∀ c ∈ w, isSpace c = true) (hr : Stopped r) : Stopped (w ++ r) := by
  cases w with
  | nil => exact hr
  | cons c w =>
    rintro d ⟨⟩
    rw [isStop, hw c List.mem_cons_self]
    rfl

theorem Reads.endsLine_behind {x : Token} (h : Reads m (xs ++ x :: zs) t)
    (hx : x.kind = .lineComment) : EndsLine (Token.spell zs) := by
  have hr := h.of_append
  generalize Token.spell (x :: zs) = t' at hr
  cases hr with
  | @cons _ c u t' k _ hs hr =>
    obtain rfl : k = .lineComment := hx
    rw [hr.spell]
    generalize m.afterAll xs = m' at hs
    cases m' with
    | html => cases isOutside_scan hs
    | code => exact (rule_of_scanCode hs).endsLine rfl

/-- White space in front of a semicolon ends a line with its own line break. -/
theorem endsLine_semicolon (hw : ∀ c ∈ w, isSpace c = true) (h : EndsLine (w ++ ';' :: r)) (r' : Text) :
    EndsLine (w ++ r') := by
  cases w with
  | nil => rcases h with h | ⟨s, h⟩ | ⟨s, h⟩ <;> cases h
  | cons c w =>
    rcases h with h | ⟨s, h⟩ | ⟨s, h⟩
    · cases h
    · obtain ⟨rfl, -⟩ := List.cons.inj h
      exact .inr (.inl ⟨_, rfl⟩)
    · obtain ⟨rfl, -⟩ := List.cons.inj h
      cases hw '?' List.mem_cons_self

/-- A close tag, and that reading goes on in code up to it. -/
theorem Reads.code_closeTag {x : Token} (h : Reads m (xs ++ x :: zs) t) (hx : x.kind = .closeTag) :
    Reads .code (x :: zs) (Token.spell (x :: zs)) ∧ ∃ r, Token.spell (x :: zs) = '?' :: r := by
  have hr := h.of_append
  cases hm : m.afterAll xs with
  | html =>
    rw [hm] at hr
    rcases hr.head_html with hk | hk <;> rw [hx] at hk <;> cases hk
  | code =>
    rw [hm] at hr
    refine ⟨hr, ?_⟩
    generalize Token.spell (x :: zs) = t' at hr
    cases hr with
    | @cons _ c u t' k _ hs _ =>
      obtain rfl : k = .closeTag := hx
      exact ⟨_, congrArg (· :: (u ++ t')) (rule_of_scanCode hs).closeTag_bounds.1⟩

/-- Code in front of a semicolon and a close tag is read alike without the semicolon. -/
theorem Reads.closeTag_junction {W W' : List Token} {x : Token}
    (h : Reads m (xs ++ (W ++ ⟨.punct, [';']⟩ :: (W' ++ x :: zs))) t) (hx : x.kind = .closeTag)
    (hW : ∀ w ∈ W ++ W', w.kind = .whitespace) (hne : xs ≠ [])
    (hlast : ∀ y, xs.getLast? = some y → y.kind.isOutside = false ∧ y.kind ≠ .whitespace) :
    Reads m (xs ++ (Lexer.blank (Token.spell W ++ Token.spell W') ++ x :: zs))
      (Token.spell xs ++ (Token.spell W ++ Token.spell W' ++ Token.spell (x :: zs))) := by
  have hspace : ∀ c ∈ Token.spell W ++ Token.spell W', isSpace c = true := by
    intro c hc
    rw [← spell_append] at hc
    obtain ⟨w, hw, hcw⟩ := List.mem_flatMap.1 hc
    refine h.space_of_mem ?_ (hW w hw) c hcw
    rcases List.mem_append.1 hw with hw | hw <;> simp [hw]
  have hfront : ∀ c ∈ Token.spell W, isSpace c = true := fun c hc => hspace c (List.mem_append_left _ hc)
  have hassoc : xs ++ (W ++ ⟨.punct, [';']⟩ :: (W' ++ x :: zs)) =
      (xs ++ (W ++ ⟨.punct, [';']⟩ :: W')) ++ x :: zs := by simp
  obtain ⟨hback, r, hr⟩ := (hassoc ▸ h).code_closeTag hx
  have hold : Token.spell (W ++ ⟨.punct, [';']⟩ :: (W' ++ x :: zs)) =
      Token.spell W ++ ';' :: (Token.spell W' ++ Token.spell (x :: zs)) := by
    simp [Token.spell]
  have hblank := hback.blank hspace (by rw [hr]; rfl)
  refine h.junction hblank ?_ ?_ ?_ fun hnil => absurd hnil hne
  · rw [hold]
    exact stopped_append hfront (by rintro c ⟨⟩; rfl)
  · exact stopped_append hspace (by rw [hr]; rintro c ⟨⟩; rfl)
  · intro y hy
    refine ⟨(hlast y hy).1, (hlast y hy).2, fun hk => ?_⟩
    obtain ⟨ys, rfl⟩ := List.getLast?_eq_some_iff.1 hy
    rw [List.append_assoc, List.singleton_append] at h
    have hend := h.endsLine_behind hk
    rw [hold] at hend
    rw [List.append_assoc]
    exact endsLine_semicolon hfront hend _

end PhpGraft.Lexer
