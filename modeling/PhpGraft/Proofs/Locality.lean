import PhpGraft.Proofs.Reading

/-!
What a lexing rule sees behind its token: the next character and, behind a backslash, a dot or a
less-than sign, the one after it. Texts that look alike there may replace each other.
-/
namespace PhpGraft.Lexer

/-- White space, semicolon, question mark and curly braces end every token that does not enclose
them. -/
def isStop (c : Char) : Bool := isSpace c || c == ';' || c == '\x7b' || c == '\x7d' || c == '?'

/-- At its end, or in front of a character that ends a token. -/
def Stopped (t : Text) : Prop := ∀ c, t.head? = some c → isStop c = true

/-- Alike for the rule of a token in front. -/
inductive Similar : Text → Text → Prop
  | stop {r r'} : Stopped r → Stopped r' → Similar r r'
  | cons {c t t'} : (c = '\\' ∨ c = '.' ∨ c = '<' → Stopped t ∧ Stopped t' ∨ t.head? = t'.head?) →
      Similar (c :: t) (c :: t')

variable {c q : Char} {u r r' t t' : Text} {k : TokenKind}

theorem similar_of_stopped (hr : Stopped r) (hr' : Stopped r') (y : Text) :
    Similar (y ++ r) (y ++ r') :=
  match y with
  | [] => .stop hr hr'
  | [_] => .cons fun _ => .inl ⟨hr, hr'⟩
  | _ :: _ :: _ => .cons fun _ => .inr rfl

theorem any_head_of_stopped {p : Char → Bool} (hp : ∀ c, isStop c = true → p c = false)
    (h : Stopped r) : r.head?.any p = false := by
  cases r with
  | nil => rfl
  | cons c t => exact hp c (h c rfl)

/-- Predicates that no stop satisfies see no difference. -/
theorem Similar.any_head {p : Char → Bool} (hp : ∀ c, isStop c = true → p c = false)
    (h : Similar r r') : r'.head?.any p = r.head?.any p := by
  cases h with
  | stop hr hr' => rw [any_head_of_stopped hp hr, any_head_of_stopped hp hr']
  | cons => rfl

theorem Similar.any_head_append {p : Char → Bool} (hp : ∀ c, isStop c = true → p c = false)
    (h : Similar r r') (u : Text) : (u ++ r').head?.any p = (u ++ r).head?.any p := by
  cases u with
  | nil => exact h.any_head hp
  | cons => rfl

theorem isStop_cases (h : isStop c = true) :
    c = ' ' ∨ c = '\t' ∨ c = '\n' ∨ c = '\x0c' ∨ c = '\r' ∨ c = ';' ∨ c = '\x7b' ∨ c = '\x7d' ∨
      c = '?' := by
  simpa [isStop, isSpace, or_assoc] using h

theorem not_isNameChar_of_isStop (c : Char) (h : isStop c = true) : isNameChar c = false := by
  rcases isStop_cases h with rfl | rfl | rfl | rfl | rfl | rfl | rfl | rfl | rfl <;> decide

theorem not_isNameStart_of_isStop (c : Char) (h : isStop c = true) : isNameStart c = false := by
  rcases isStop_cases h with rfl | rfl | rfl | rfl | rfl | rfl | rfl | rfl | rfl <;> decide

theorem not_isDigit_of_isStop (c : Char) (h : isStop c = true) : c.isDigit = false := by
  rcases isStop_cases h with rfl | rfl | rfl | rfl | rfl | rfl | rfl | rfl | rfl <;> decide

theorem Similar.startsName (h : Similar r r') (u : Text) :
    startsName (u ++ r') = startsName (u ++ r) :=
  h.any_head_append not_isNameStart_of_isStop u

theorem startsWith_singleton (t : Text) (q : Char) : t.startsWith [q] = t.head?.any (q == ·) := by
  cases t <;> simp [Text.startsWith, List.isPrefixOf]

theorem Similar.startsWith (h : Similar r r') (hq : isStop q = false) (u : Text) :
    (u ++ r').startsWith [q] = (u ++ r).startsWith [q] := by
  rw [startsWith_singleton, startsWith_singleton]
  refine h.any_head_append (fun c hc => ?_) u
  rw [beq_eq_false_iff_ne]
  rintro rfl
  rw [hc] at hq
  cases hq

theorem startsWith_cons (t : Text) (p q : Char) :
    Text.startsWith (p :: t) [p, q] = t.startsWith [q] := by
  simp [Text.startsWith, List.isPrefixOf]

theorem startsWith_cons_of_ne (t s : Text) {p : Char} (h : c ≠ p) :
    Text.startsWith (c :: t) (p :: s) = false := by
  simp [Text.startsWith, List.isPrefixOf, Ne.symm h]

theorem Similar.startsWith_pair (h : Similar r r') (u : Text) :
    (u ++ r').startsWith ['<', '<'] = (u ++ r).startsWith ['<', '<'] := by
  have hstop : ∀ r : Text, Stopped r → ∀ s, r.startsWith ('<' :: s) = false := by
    intro r hr s
    cases r with
    | nil => rfl
    | cons c t =>
      refine startsWith_cons_of_ne t s ?_
      rintro rfl
      exact absurd (hr '<' rfl) (by decide)
  match u with
  | [] =>
    cases h with
    | stop hr hr' => exact (hstop _ hr' _).trans (hstop _ hr _).symm
    | @cons c t t' ht =>
      by_cases hc : c = '<'
      · subst hc
        rw [List.nil_append, List.nil_append, startsWith_cons, startsWith_cons]
        rcases ht (.inr (.inr rfl)) with ⟨ht, ht'⟩ | ht
        · rw [hstop t ht, hstop t' ht']
        · rw [startsWith_singleton, startsWith_singleton, ht]
      · rw [List.nil_append, List.nil_append, startsWith_cons_of_ne _ _ hc,
          startsWith_cons_of_ne _ _ hc]
  | [c] =>
    by_cases hc : c = '<'
    · subst hc
      exact (startsWith_cons _ _ _).trans
        ((h.startsWith (by decide) []).trans (startsWith_cons _ _ _).symm)
    · exact (startsWith_cons_of_ne _ _ hc).trans (startsWith_cons_of_ne _ _ hc).symm
  | c :: d :: u => simp [Text.startsWith, List.isPrefixOf]

/-! Each rule stops at the same place. -/

theorem takeWhile_length_append {p : Char → Bool} {u r r' : Text}
    (h : ((u ++ r).takeWhile p).length = u.length) (hr : r'.head?.any p = r.head?.any p) :
    ((u ++ r').takeWhile p).length = u.length := by
  have hnil : ∀ r : Text, r.head?.any p = false → r.takeWhile p = [] := by
    intro r hr
    cases r with
    | nil => rfl
    | cons c t => exact List.takeWhile_cons_of_neg (by simpa using hr)
  induction u with
  | nil =>
    have hnone : r.head?.any p = false := by
      cases r with
      | nil => rfl
      | cons c t =>
        rw [List.nil_append, List.takeWhile_cons] at h
        split at h
        · cases h
        · exact Bool.eq_false_iff.2 ‹¬_›
    rw [List.nil_append, hnil r' (hr.trans hnone)]
  | cons c u ih =>
    rw [List.cons_append, List.takeWhile_cons] at h ⊢
    split at h
    · rw [if_pos ‹_›, List.length_cons, ih (Nat.succ.inj h), List.length_cons]
    · cases h

theorem commentSize?_cons (h : ∀ s, c = '*' → t ≠ '/' :: s) :
    commentSize? (c :: t) = (commentSize? t).map (· + 1) := by
  rw [commentSize?]
  exact fun s hc ht => h s hc ht

/-- One more character in front of two comments, where it does not end the first. -/
theorem commentSize?_step {s : Text} {n : Nat} (hend : ¬(c = '*' ∧ s.head? = some '/'))
    (hhead : Stopped s ∧ Stopped t ∨ s.head? = t.head?)
    (hs : commentSize? (c :: s) = some (n + 1))
    (h : commentSize? s = some n → commentSize? t = some t.length) :
    commentSize? (c :: t) = some (t.length + 1) := by
  rw [commentSize?_cons fun u hc hs => hend ⟨hc, by rw [hs]; rfl⟩] at hs
  obtain ⟨m, hm, hlen⟩ := Option.map_eq_some_iff.1 hs
  have ht := h (hm.trans (congrArg some (Nat.succ.inj hlen)))
  rw [commentSize?_cons, ht]
  · rfl
  · rintro u hc rfl
    rcases hhead with ⟨-, hstop⟩ | hhead
    · exact absurd (hstop '/' rfl) (by decide)
    · exact hend ⟨hc, hhead⟩

theorem two_le_commentSize? {n : Nat} (h : commentSize? t = some n) : 2 ≤ n := by
  fun_induction commentSize? t generalizing n with
  | case1 => cases h
  | case2 =>
    cases h
    exact Nat.le_refl 2
  | case3 _ _ _ ih =>
    obtain ⟨m, hm, rfl⟩ := Option.map_eq_some_iff.1 h
    exact Nat.le_succ_of_le (ih hm)

/-- A comment ends at its `*/`, whatever follows. -/
theorem commentSize?_append (h : commentSize? (u ++ r) = some u.length) (r' : Text) :
    commentSize? (u ++ r') = some u.length := by
  induction u with
  | nil => exact absurd (two_le_commentSize? h) (by decide)
  | cons c u ih =>
    cases u with
    | nil => exact absurd (two_le_commentSize? h) (by simp)
    | cons d u =>
      by_cases hend : c = '*' ∧ d = '/'
      · obtain ⟨rfl, rfl⟩ := hend
        simp only [List.cons_append, commentSize?] at h ⊢
        exact h
      · have hne : ∀ r s, c = '*' → d :: u ++ r ≠ '/' :: s :=
          fun r s hc hd => hend ⟨hc, (List.cons.inj hd).1⟩
        rw [List.cons_append, commentSize?_cons (hne r)] at h
        rw [List.cons_append, commentSize?_cons (hne r')]
        obtain ⟨n, hn, hlen⟩ := Option.map_eq_some_iff.1 h
        rw [ih (hn.trans (congrArg some (Nat.succ.inj hlen)))]
        rfl

theorem quotedSize?_pos {n : Nat} (h : quotedSize? q t = some n) : 0 < n := by
  fun_induction quotedSize? q t generalizing n with
  | case1 => cases h
  | case2 => cases h
  | case3 =>
    obtain ⟨m, -, rfl⟩ := Option.map_eq_some_iff.1 h
    exact Nat.succ_pos _
  | case4 =>
    cases h
    exact Nat.zero_lt_one
  | case5 =>
    obtain ⟨m, -, rfl⟩ := Option.map_eq_some_iff.1 h
    exact Nat.succ_pos _

theorem quotedSize?_cons (h : c ≠ '\\') (t : Text) :
    quotedSize? q (c :: t) = if c = q then some 1 else (quotedSize? q t).map (· + 1) := by
  rw [quotedSize?]
  · exact fun hc => absurd hc h
  · exact fun _ _ hc => absurd hc h

/-- A string ends at its quote, whatever follows. -/
theorem quotedSize?_append (h : quotedSize? q (u ++ r) = some u.length) (r' : Text) :
    quotedSize? q (u ++ r') = some u.length := by
  induction u using quotedSize?.induct q with
  | case1 => exact absurd (quotedSize?_pos h) (Nat.lt_irrefl 0)
  | case2 =>
    cases r with
    | nil => cases h
    | cons d r =>
      obtain ⟨m, -, hm⟩ := Option.map_eq_some_iff.1 h
      cases hm
  | case3 d u ih =>
    obtain ⟨m, hm, hlen⟩ := Option.map_eq_some_iff.1 h
    simp only [List.cons_append, quotedSize?]
    rw [ih (hm.trans (congrArg some (Nat.add_right_cancel hlen)))]
    rfl
  | case4 u hnil hcons =>
    have hq : q ≠ '\\' := by
      cases u with
      | nil => exact fun hq => hnil hq rfl
      | cons d u => exact fun hq => hcons d u hq rfl
    rw [List.cons_append, quotedSize?_cons hq, if_pos rfl] at h ⊢
    exact h
  | case5 d u hnil hcons hne ih =>
    have hd : d ≠ '\\' := by
      cases u with
      | nil => exact fun hd => hnil hd rfl
      | cons e u => exact fun hd => hcons e u hd rfl
    rw [List.cons_append, quotedSize?_cons hd, if_neg hne] at h ⊢
    obtain ⟨m, hm, hlen⟩ := Option.map_eq_some_iff.1 h
    rw [ih (hm.trans (congrArg some (Nat.succ.inj hlen)))]
    rfl

theorem numberSize_append (h : numberSize (u ++ r) = u.length) (hr : Similar r r') :
    numberSize (u ++ r') = u.length := by
  have hhead : ∀ u : Text, (u ++ r').head?.any Char.isDigit = (u ++ r).head?.any Char.isDigit :=
    hr.any_head_append not_isDigit_of_isStop
  induction u with
  | nil =>
    cases hr with
    | stop _ hr' =>
      cases r' with
      | nil => rfl
      | cons c t =>
        rw [List.nil_append, numberSize]
        rcases isStop_cases (hr' c rfl) with rfl | rfl | rfl | rfl | rfl | rfl | rfl | rfl | rfl <;>
          rfl
    | @cons c t t' ht =>
      rw [List.nil_append, numberSize] at h ⊢
      by_cases hc : c = '.'
      · have hdot : t'.head?.any Char.isDigit = t.head?.any Char.isDigit := by
          rcases ht (.inr (.inl hc)) with ⟨ht, ht'⟩ | ht
          · rw [any_head_of_stopped not_isDigit_of_isStop ht,
              any_head_of_stopped not_isDigit_of_isStop ht']
          · rw [ht]
        rw [hdot]
        split at h
        · cases h
        · rw [if_neg ‹_›]
          rfl
      · split at h
        · cases h
        · rename_i hno
          rw [if_neg]
          · rfl
          · simpa [hc] using hno
  | cons c u ih =>
    rw [List.cons_append, numberSize] at h ⊢
    rw [hhead]
    split at h
    · rw [if_pos ‹_›, ih (Nat.succ.inj h)]
      rfl
    · cases h

theorem nameSize_append (h : nameSize (u ++ r) = u.length) (hr : Similar r r') :
    nameSize (u ++ r') = u.length := by
  induction u with
  | nil =>
    cases hr with
    | stop _ hr' =>
      cases r' with
      | nil => rfl
      | cons c t =>
        rw [List.nil_append, nameSize]
        rcases isStop_cases (hr' c rfl) with rfl | rfl | rfl | rfl | rfl | rfl | rfl | rfl | rfl <;>
          rfl
    | @cons c t t' ht =>
      rw [List.nil_append, nameSize] at h ⊢
      by_cases hc : c = '\\'
      · have hstart : startsName t' = startsName t := by
          rcases ht (.inl hc) with ⟨ht, ht'⟩ | ht
          · rw [startsName, startsName, any_head_of_stopped not_isNameStart_of_isStop ht,
              any_head_of_stopped not_isNameStart_of_isStop ht']
          · rw [startsName, startsName, ht]
        rw [hstart]
        split at h
        · cases h
        · rw [if_neg ‹_›]
          rfl
      · split at h
        · cases h
        · rename_i hno
          rw [if_neg]
          · rfl
          · simpa [hc] using hno
  | cons c u ih =>
    rw [List.cons_append, nameSize] at h ⊢
    rw [hr.startsName]
    split at h
    · rw [if_pos ‹_›, ih (Nat.succ.inj h)]
      rfl
    · cases h

/-! Heredocs. -/

section

variable {label w : Text} {b : Bool} {n : Nat}

theorem not_isIndent_of_isNameChar {c : Char} (h : isNameChar c = true) : isIndent c = false := by
  refine Bool.eq_false_iff.2 fun hi => ?_
  rcases Bool.or_eq_true_iff.1 hi with hi | hi <;> rw [beq_iff_eq.1 hi] at h <;>
    revert h <;> decide

/-- Indentation and the label stand in front of something that is no part of a name. -/
theorem closesHeredoc_split (h : closesHeredoc label t = true) :
    ∃ r, t = t.takeWhile isIndent ++ label ++ r ∧ r.head?.any isNameChar = false := by
  unfold closesHeredoc Text.dropPrefix? at h
  split at h
  · rename_i rest hrest
    split at hrest
    · rename_i hprefix
      obtain ⟨s, hs⟩ := List.isPrefixOf_iff_prefix.1 hprefix
      cases hrest
      refine ⟨s, ?_, ?_⟩
      · rw [List.append_assoc, hs, List.takeWhile_append_dropWhile]
      · rw [← hs, List.drop_left] at h
        simpa using h
    · cases hrest
  · cases h

theorem takeWhile_isIndent {i : Text} (hi : ∀ c ∈ i, isIndent c = true) (hne : label ≠ [])
    (hname : ∀ c ∈ label, isNameChar c = true) (r : Text) :
    (i ++ label ++ r).takeWhile isIndent = i ∧ (i ++ label ++ r).dropWhile isIndent = label ++ r := by
  cases label with
  | nil => exact absurd rfl hne
  | cons c l =>
    have hc := not_isIndent_of_isNameChar (hname c List.mem_cons_self)
    rw [List.append_assoc, List.takeWhile_append_of_pos hi, List.dropWhile_append_of_pos hi,
      List.cons_append, List.takeWhile_cons_of_neg (by simp [hc]),
      List.dropWhile_cons_of_neg (by simp [hc]), List.append_nil]
    exact ⟨rfl, rfl⟩

theorem closesHeredoc_append {i r : Text} (hi : ∀ c ∈ i, isIndent c = true) (hne : label ≠ [])
    (hname : ∀ c ∈ label, isNameChar c = true) (hr : r.head?.any isNameChar = false) :
    closesHeredoc label (i ++ label ++ r) = true := by
  unfold closesHeredoc Text.dropPrefix?
  rw [(takeWhile_isIndent hi hne hname r).2,
    if_pos (List.isPrefixOf_iff_prefix.2 (List.prefix_append _ _))]
  simp [hr]

theorem heredocBody?_cons (c : Char) :
    heredocBody? label b (c :: t) =
      if b && closesHeredoc label (c :: t) then
        some (((c :: t).takeWhile isIndent).length + label.length)
      else (heredocBody? label (c == '\n') t).map (· + 1) := by
  rw [heredocBody?]

theorem heredocBody?_pos (hne : label ≠ []) (h : heredocBody? label b t = some n) : 0 < n := by
  unfold heredocBody? at h
  split at h
  · cases h
    exact Nat.add_pos_right _ (List.length_pos_iff.2 hne)
  · split at h
    · cases h
    · obtain ⟨m, -, rfl⟩ := Option.map_eq_some_iff.1 h
      exact Nat.succ_pos m

/-- Where the label closes the heredoc, all in front of it on its line is indentation. -/
theorem eq_of_closesHeredoc (hc : closesHeredoc label (w ++ r) = true)
    (hlen : ((w ++ r).takeWhile isIndent).length + label.length = w.length) :
    w = (w ++ r).takeWhile isIndent ++ label ∧ r.head?.any isNameChar = false := by
  obtain ⟨s, hs, hhead⟩ := closesHeredoc_split hc
  obtain ⟨hw, rfl⟩ := List.append_inj hs (by rw [List.length_append, hlen])
  exact ⟨hw, hhead⟩

/-- What is read ends with the label. -/
theorem heredocBody?_suffix (hne : label ≠ []) (h : heredocBody? label b (w ++ r) = some w.length) :
    label <:+ w ∧ r.head?.any isNameChar = false := by
  induction w generalizing b with
  | nil => exact absurd (heredocBody?_pos hne h) (Nat.lt_irrefl 0)
  | cons c w ih =>
    rw [List.cons_append, heredocBody?_cons] at h
    split at h
    · rename_i hclose
      obtain ⟨hw, hhead⟩ := eq_of_closesHeredoc (w := c :: w) (Bool.and_eq_true_iff.1 hclose).2
        (Option.some.inj h)
      exact ⟨⟨_, hw.symm⟩, hhead⟩
    · obtain ⟨m, hm, hlen⟩ := Option.map_eq_some_iff.1 h
      obtain ⟨hsuffix, hhead⟩ := ih (hm.trans (congrArg some (Nat.succ.inj hlen)))
      exact ⟨hsuffix.trans (List.suffix_cons c w), hhead⟩

/-- The same lines close a heredoc, whatever follows its label. -/
theorem closesHeredoc_congr (hne : label ≠ []) (hname : ∀ c ∈ label, isNameChar c = true)
    (hw : label <:+ w) (hr : r.head?.any isNameChar = false)
    (h : closesHeredoc label (w ++ r') = true) : closesHeredoc label (w ++ r) = true := by
  obtain ⟨s, hs, hhead⟩ := closesHeredoc_split h
  have hind : ∀ c ∈ (w ++ r').takeWhile isIndent, isIndent c = true :=
    fun c hc => List.all_eq_true.1 List.all_takeWhile c hc
  generalize (w ++ r').takeWhile isIndent = i at hs hind
  obtain ⟨v, rfl⟩ := hw
  rw [List.append_assoc, List.append_assoc] at hs
  rcases List.append_eq_append_iff.1 hs with ⟨x, rfl, hx⟩ | ⟨x, rfl, hx⟩
  · cases x with
    | nil =>
      rw [List.append_nil] at hind
      exact closesHeredoc_append hind hne hname hr
    | cons c x =>
      cases label with
      | nil => exact absurd rfl hne
      | cons d l =>
        obtain ⟨rfl, -⟩ := List.cons.inj hx
        have := not_isIndent_of_isNameChar (hname d List.mem_cons_self)
        rw [hind d (by simp)] at this
        cases this
  · rw [← List.append_assoc] at hx
    obtain ⟨y, hy⟩ : label <+: x ++ label :=
      List.prefix_of_prefix_length_le ⟨s, hx⟩ ⟨r', rfl⟩ (by simp)
    rw [show i ++ x ++ label ++ r = i ++ label ++ (y ++ r) by simp [← hy]]
    refine closesHeredoc_append hind hne hname ?_
    cases y with
    | nil => exact hr
    | cons c y =>
      rw [← hy, List.append_assoc] at hx
      rw [List.append_cancel_left hx] at hhead
      exact hhead

/-- A heredoc ends at its label, if no part of a name follows. -/
theorem heredocBody?_append (hne : label ≠ []) (hname : ∀ c ∈ label, isNameChar c = true)
    (h : heredocBody? label b (w ++ r) = some w.length) (hr' : r'.head?.any isNameChar = false) :
    heredocBody? label b (w ++ r') = some w.length := by
  induction w generalizing b with
  | nil => exact absurd (heredocBody?_pos hne h) (Nat.lt_irrefl 0)
  | cons c w ih =>
    obtain ⟨hsuffix, hr⟩ := heredocBody?_suffix hne h
    rw [List.cons_append, heredocBody?_cons] at h ⊢
    split at h
    · rename_i hclose
      obtain ⟨hb, hclose⟩ := Bool.and_eq_true_iff.1 hclose
      have hind : ∀ d ∈ (c :: w ++ r).takeWhile isIndent, isIndent d = true :=
        fun d hd => List.all_eq_true.1 List.all_takeWhile d hd
      obtain ⟨hw, -⟩ := eq_of_closesHeredoc (w := c :: w) hclose (Option.some.inj h)
      generalize (c :: w ++ r).takeWhile isIndent = i at hw hind
      rw [show c :: (w ++ r') = i ++ label ++ r' by rw [← hw, List.cons_append],
        (takeWhile_isIndent hind hne hname r').1, closesHeredoc_append hind hne hname hr', hb, hw,
        List.length_append]
      rfl
    · rename_i hopen
      rw [if_neg]
      · obtain ⟨m, hm, hlen⟩ := Option.map_eq_some_iff.1 h
        rw [ih (hm.trans (congrArg some (Nat.succ.inj hlen)))]
        rfl
      · intro hclose
        obtain ⟨hb, hclose⟩ := Bool.and_eq_true_iff.1 hclose
        exact hopen (Bool.and_eq_true_iff.2
          ⟨hb, closesHeredoc_congr hne hname hsuffix hr hclose⟩)

/-- What stands in front of the lines of a heredoc: indentation, a quote or none, and the label. -/
structure Opens (indent quote label rest : Text) : Prop where
  blank : ∀ c ∈ indent, isIndent c = true
  quotes : quote = [] ∨ quote = ['\''] ∨ quote = ['"']
  nonempty : label ≠ []
  name : ∀ c ∈ label, isNameChar c = true
  stops : rest.head?.any isNameChar = false
  closed : quote ≠ [] → rest.head? = quote.head?

theorem takeWhile_append_of_head {p : Char → Bool} {u r : Text} (hu : ∀ c ∈ u, p c = true)
    (hr : r.head?.any p = false) : (u ++ r).takeWhile p = u := by
  rw [List.takeWhile_append_of_pos hu]
  cases r with
  | nil => exact List.append_nil u
  | cons c r => rw [List.takeWhile_cons_of_neg (by simpa using hr), List.append_nil]

theorem any_head_takeWhile {p : Char → Bool} {r t : Text} (h : t.takeWhile p ++ r = t) :
    r.head?.any p = false := by
  obtain rfl : r = t.dropWhile p :=
    List.append_cancel_left (h.trans List.takeWhile_append_dropWhile.symm)
  have := List.head?_dropWhile_not p t
  cases hd : (t.dropWhile p).head? with
  | none => rfl
  | some c =>
    rw [hd] at this
    exact this

theorem Opens.heredocSize_eq {i q rest : Text} (h : Opens i q label rest) :
    heredocSize (i ++ (q ++ (label ++ rest))) =
      match heredocBody? label false rest with
      | some n => .ok (i.length + q.length + label.length + n)
      | none => .error .unterminatedHeredoc := by
  obtain ⟨d, l, hl⟩ := List.exists_cons_of_ne_nil h.nonempty
  have hd : isNameChar d = true := h.name d (by simp [hl])
  have hquote : isNameChar '\'' = false ∧ isNameChar '"' = false := by decide
  have hindent : (i ++ (q ++ (label ++ rest))).takeWhile isIndent = i := by
    refine takeWhile_append_of_head h.blank ?_
    rcases h.quotes with rfl | rfl | rfl
    · simpa [hl] using not_isIndent_of_isNameChar hd
    · rfl
    · rfl
  have hq : ((q ++ (label ++ rest)).head?.filter fun c => c == '\'' || c == '"') = q.head? := by
    rcases h.quotes with rfl | rfl | rfl
    · have : (d == '\'' || d == '"') = false := by
        rw [Bool.or_eq_false_iff, beq_eq_false_iff_ne, beq_eq_false_iff_ne]
        constructor <;> rintro rfl
        · rw [hquote.1] at hd
          cases hd
        · rw [hquote.2] at hd
          cases hd
      simp [hl, Option.filter, this]
    · rfl
    · rfl
  have hlen : q.head?.toList.length = q.length := by
    rcases h.quotes with rfl | rfl | rfl <;> rfl
  have hdrop : (i ++ (q ++ (label ++ rest))).drop (i.length + q.length) = label ++ rest := by
    rw [← List.append_assoc, List.drop_left' (List.length_append ..)]
  have hrest : (i ++ (q ++ (label ++ rest))).drop (i.length + q.length + label.length) = rest := by
    rw [← List.drop_drop, hdrop, List.drop_left]
  have hlabel := takeWhile_append_of_head h.name h.stops
  have hclosed : (q.head?.isSome && rest.head? != q.head?) = false := by
    rcases h.quotes with rfl | rfl | rfl
    · rfl
    · simp [h.closed nofun]
    · simp [h.closed nofun]
  simp only [heredocSize, hindent, List.drop_left, hq, hlen, hdrop, hlabel, hrest, hclosed]
  have hne : ¬ label.isEmpty = true := by simp [hl]
  exact (if_neg hne).trans (if_neg Bool.false_ne_true)

theorem opens_of_heredocSize (h : heredocSize t = .ok n) :
    ∃ i q label rest m, t = i ++ (q ++ (label ++ rest)) ∧ Opens i q label rest ∧
      heredocBody? label false rest = some m ∧
      n = i.length + q.length + label.length + m := by
  have hopens : ∃ i q label rest, t = i ++ (q ++ (label ++ rest)) ∧ Opens i q label rest := by
    unfold heredocSize at h
    extract_lets indent quote opening label rest at h
    split at h
    · cases h
    rename_i hne
    split at h
    · cases h
    rename_i hclosed
    have hlabel : label ++ rest = t.drop opening := by
      rw [← List.take_append_drop label.length (t.drop opening), List.drop_drop,
        ← List.prefix_iff_eq_take.1 (List.takeWhile_prefix isNameChar)]
    have hquote : quote.toList ++ t.drop opening = t.drop indent ∧
        (quote.toList = [] ∨ quote.toList = ['\''] ∨ quote.toList = ['"']) := by
      rw [show opening = indent + quote.toList.length from rfl, ← List.drop_drop]
      simp only [quote]
      cases t.drop indent with
      | nil => exact ⟨rfl, .inl rfl⟩
      | cons c x =>
        simp only [List.head?_cons, Option.filter]
        split
        · rename_i hc
          rcases Bool.or_eq_true_iff.1 hc with hc | hc <;> rw [beq_iff_eq.1 hc] <;> simp
        · exact ⟨rfl, .inl rfl⟩
    refine ⟨t.take indent, quote.toList, label, rest, ?_, fun c hc => ?_, hquote.2, ?_,
      fun c hc => List.all_eq_true.1 List.all_takeWhile c hc, ?_, fun hq => ?_⟩
    · rw [hlabel, hquote.1, List.take_append_drop]
    · rw [← List.prefix_iff_eq_take.1 (List.takeWhile_prefix isIndent)] at hc
      exact List.all_eq_true.1 List.all_takeWhile c hc
    · rintro hnil
      rw [hnil] at hne
      exact hne rfl
    · exact any_head_takeWhile hlabel
    · cases hx : quote with
      | none =>
        rw [hx] at hq
        exact absurd rfl hq
      | some c =>
        rw [hx] at hclosed
        simpa using hclosed
  obtain ⟨i, q, label, rest, rfl, hopens⟩ := hopens
  rw [hopens.heredocSize_eq] at h
  split at h
  · rename_i m hm
    cases h
    exact ⟨i, q, label, rest, m, rfl, hopens, hm, rfl⟩
  · cases h

theorem heredocSize_split {u : Text} (h : heredocSize (u ++ r) = .ok u.length) :
    ∃ i q label w, u = i ++ (q ++ (label ++ w)) ∧ Opens i q label (w ++ r) ∧
      heredocBody? label false (w ++ r) = some w.length := by
  obtain ⟨i, q, label, rest, m, ht, hopens, hm, hlen⟩ := opens_of_heredocSize h
  have hbody := heredocBody?_le hm
  have hu : u = i ++ (q ++ (label ++ rest.take m)) ∧ r = rest.drop m := by
    refine List.append_inj (ht.trans ?_) ?_
    · simp
    · simp only [List.length_append, List.length_take]
      omega
  obtain ⟨rfl, rfl⟩ := hu
  refine ⟨i, q, label, rest.take m, rfl, ?_, ?_⟩
  · rwa [List.take_append_drop]
  · rw [List.take_append_drop, hm, List.length_take, Nat.min_eq_left hbody]

theorem heredocSize_append {u : Text} (h : heredocSize (u ++ r) = .ok u.length)
    (hr : r'.head?.any isNameChar = r.head?.any isNameChar) :
    heredocSize (u ++ r') = .ok u.length := by
  obtain ⟨i, q, label, w, rfl, hopens, hbody⟩ := heredocSize_split h
  have hpos := heredocBody?_pos hopens.nonempty hbody
  have hopens' : Opens i q label (w ++ r') := by
    cases w with
    | nil => cases hpos
    | cons c w =>
      exact ⟨hopens.blank, hopens.quotes, hopens.nonempty, hopens.name, hopens.stops, hopens.closed⟩
  have hr' := hr.trans (heredocBody?_suffix hopens.nonempty hbody).2
  have := hopens'.heredocSize_eq
  rw [heredocBody?_append hopens.nonempty hopens.name hbody hr'] at this
  simp only [List.append_assoc] at this ⊢
  rw [this]
  simp [Nat.add_assoc]

/-- A heredoc ends with its label, and no part of a name follows. -/
theorem heredocSize_last {u : Text} (h : heredocSize (u ++ r) = .ok u.length) :
    (∃ c, u.getLast? = some c ∧ isNameChar c = true) ∧ r.head?.any isNameChar = false := by
  obtain ⟨i, q, label, w, rfl, hopens, hbody⟩ := heredocSize_split h
  obtain ⟨⟨v, rfl⟩, hr⟩ := heredocBody?_suffix hopens.nonempty hbody
  refine ⟨⟨label.getLast hopens.nonempty, ?_, hopens.name _ (List.getLast_mem _)⟩, hr⟩
  rw [← List.append_assoc, ← List.append_assoc, ← List.append_assoc, List.getLast?_append,
    List.getLast?_eq_some_getLast hopens.nonempty]
  rfl

end

/-! Any token. -/

theorem lineCommentSize_cons (hn : c ≠ '\n') (hc : ∀ s, c = '?' → t ≠ '>' :: s) :
    lineCommentSize (c :: t) = lineCommentSize t + 1 := by
  rw [lineCommentSize]
  · exact hn
  · exact fun s h ht => hc s h ht

theorem EndsLine.lineCommentSize (h : EndsLine t) : lineCommentSize t = 0 := by
  rcases h with rfl | ⟨r, rfl⟩ | ⟨r, rfl⟩ <;> simp [Lexer.lineCommentSize]

theorem of_lineCommentSize_succ {n : Nat} (h : lineCommentSize (c :: t) = n + 1) :
    c ≠ '\n' ∧ (∀ s, c = '?' → t ≠ '>' :: s) ∧ lineCommentSize t = n := by
  have hn : c ≠ '\n' := by
    rintro rfl
    cases h
  have hc : ∀ s, c = '?' → t ≠ '>' :: s := by
    rintro s rfl rfl
    cases h
  rw [lineCommentSize_cons hn hc] at h
  exact ⟨hn, hc, Nat.succ.inj h⟩

theorem lineCommentSize_append (h : lineCommentSize (u ++ r) = u.length) (hr' : EndsLine r') :
    lineCommentSize (u ++ r') = u.length := by
  induction u with
  | nil => exact hr'.lineCommentSize
  | cons c u ih =>
    obtain ⟨hn, hc, h⟩ := of_lineCommentSize_succ h
    have hc' : ∀ s, c = '?' → u ++ r' ≠ '>' :: s := by
      intro s hq hu
      cases u with
      | nil => rcases hr' with rfl | ⟨_, rfl⟩ | ⟨_, rfl⟩ <;> cases hu
      | cons d u => exact hc (u ++ r) hq (congrArg (· :: (u ++ r)) (List.cons.inj hu).1)
    rw [List.cons_append, lineCommentSize_cons hn hc', ih h]
    rfl

theorem Rule.endsLine (h : Rule c (u ++ r) k u.length) (hk : k = .lineComment) : EndsLine r := by
  have hsize : u.length = lineCommentSize (u ++ r) := by
    generalize u.length = n at h
    cases h with
    | lineComment => rfl
    | comment => split at hk <;> cases hk
    | _ => cases hk
  have := endsLine_drop (u ++ r)
  rw [← hsize, List.drop_left] at this
  exact this

/-- A token is read alike in front of texts that look alike. -/
theorem Rule.similar (h : Rule c (u ++ r) k u.length) (hr : Similar r r')
    (hw : k = .whitespace → r'.head?.any isSpace = r.head?.any isSpace)
    (hl : k = .lineComment → EndsLine r')
    (hc : k = .closeTag → lineBreakSize (u.drop 1 ++ r') = lineBreakSize (u.drop 1 ++ r)) :
    Rule c (u ++ r') k u.length := by
  generalize hn : u.length = n at h
  cases h with
  | closeTag h =>
    rw [← hr.startsWith (by decide)] at h
    cases u with
    | nil =>
      rw [List.length_nil] at hn
      omega
    | cons d u =>
      have hsize : lineBreakSize (u ++ r') = lineBreakSize (u ++ r) := hc rfl
      have := Rule.closeTag h
      rw [show (d :: u ++ r').drop 1 = u ++ r' from rfl, hsize] at this
      exact this
  | whitespace h =>
    rw [← hn, ← takeWhile_length_append hn.symm (hw rfl)]
    exact .whitespace h
  | comment h hm =>
    rw [← hr.startsWith (by decide)] at h
    rename_i m
    have h2 := two_le_commentSize? hm
    match u with
    | [] => simp at hn; omega
    | [_] => simp at hn; omega
    | [_, _] => simp at hn; omega
    | d :: e :: f :: u =>
      have hm : commentSize? (e :: f :: u ++ r) = some (e :: f :: u).length := by
        refine hm.trans (congrArg some ?_)
        simp only [List.length_cons] at hn ⊢
        omega
      have := Rule.comment h (commentSize?_append hm r')
      simp only [List.length_cons] at hn this
      rw [show 1 + (u.length + 1 + 1) = 1 + m by omega] at this
      exact this
  | lineComment h =>
    rw [← hr.startsWith (q := '/') (by decide), ← hr.startsWith (q := '[') (by decide)] at h
    rw [← hn, ← lineCommentSize_append hn.symm (hl rfl)]
    exact .lineComment h
  | var h =>
    rw [← hr.startsName] at h
    rw [← hn, ← takeWhile_length_append hn.symm (hr.any_head not_isNameChar_of_isStop)]
    exact .var h
  | heredoc h hm =>
    rw [← hr.startsWith_pair] at h
    rename_i m
    match u with
    | [] => simp at hn; omega
    | [_] => simp at hn; omega
    | d :: e :: u =>
      have hm : heredocSize (u ++ r) = .ok u.length := by
        refine hm.trans (congrArg _ ?_)
        simp only [List.length_cons] at hn
        omega
      have := Rule.heredoc h (heredocSize_append hm (hr.any_head not_isNameChar_of_isStop))
      simp only [List.length_cons] at hn this
      rw [show 2 + u.length = 2 + m by omega] at this
      exact this
  | string h hm =>
    rw [← hn] at hm ⊢
    exact .string h (quotedSize?_append hm r')
  | number h =>
    rw [← hn, ← numberSize_append hn.symm hr]
    exact .number h
  | name h =>
    rw [← hr.startsName] at h
    rw [← hn, ← nameSize_append hn.symm hr]
    exact .name h
  | punct h₁ h₂ h₃ h₄ h₅ h₆ h₇ h₈ h₉ =>
    rw [← hr.startsWith (by decide)] at h₁ h₃
    rw [← hr.startsWith (q := '/') (by decide), ← hr.startsWith (q := '[') (by decide)] at h₄
    rw [← hr.startsName] at h₅ h₉
    rw [← hr.startsWith_pair] at h₆
    exact .punct h₁ h₂ h₃ h₄ h₅ h₆ h₇ h₈ h₉


/-! Semicolons and curly braces keep tokens apart: those in front of one do not depend on what is
behind it. -/

def isBarrier (c : Char) : Bool := c == ';' || c == '\x7b' || c == '\x7d'

section

variable {z : Char} {y : Text} {m : Mode}

theorem isBarrier_cases (hz : isBarrier z = true) : z = ';' ∨ z = '\x7b' ∨ z = '\x7d' := by
  simpa [isBarrier, or_assoc] using hz

/-- What stands in front of such a character is read alike whatever stands behind it. -/
def isEdge (c : Char) : Bool := isBarrier c || c == '/' || c == '#'

theorem isEdge_cases (hz : isEdge z = true) :
    z = ';' ∨ z = '\x7b' ∨ z = '\x7d' ∨ z = '/' ∨ z = '#' := by
  simpa [isEdge, isBarrier, or_assoc] using hz

theorem isEdge_of_isBarrier (hz : isBarrier z = true) : isEdge z = true := by
  rw [isEdge, hz, Bool.true_or, Bool.true_or]

theorem similar_edge (hz : isEdge z = true) (y r r' : Text) : Similar (y ++ z :: r) (y ++ z :: r') := by
  match y with
  | [] =>
    refine .cons fun h => ?_
    rcases isEdge_cases hz with rfl | rfl | rfl | rfl | rfl <;> rcases h with h | h | h <;> cases h
  | [_] => exact .cons fun _ => .inr rfl
  | _ :: _ :: _ => exact .cons fun _ => .inr rfl

theorem lineBreakSize_edge (hz : isEdge z = true) (y r r' : Text) :
    lineBreakSize (y ++ z :: r') = lineBreakSize (y ++ z :: r) := by
  match y with
  | [] => rcases isEdge_cases hz with rfl | rfl | rfl | rfl | rfl <;> rfl
  | [c] =>
    rcases isEdge_cases hz with rfl | rfl | rfl | rfl | rfl <;> unfold lineBreakSize <;> grind
  | c :: d :: y => unfold lineBreakSize; grind

theorem endsLine_edge (hz : isEdge z = true) {r : Text} (h : EndsLine (y ++ z :: r)) (r' : Text) :
    EndsLine (y ++ z :: r') := by
  match y with
  | [] => rcases isEdge_cases hz with rfl | rfl | rfl | rfl | rfl <;> simp [EndsLine] at h
  | [c] =>
    rcases h with h | ⟨s, h⟩ | ⟨s, h⟩
    · cases h
    · cases h
      exact .inr (.inl ⟨_, rfl⟩)
    · cases h
      cases hz
  | c :: d :: y =>
    rcases h with h | ⟨s, h⟩ | ⟨s, h⟩
    · cases h
    · cases h
      exact .inr (.inl ⟨_, rfl⟩)
    · cases h
      exact .inr (.inr ⟨_, rfl⟩)

theorem openTag?_of_ne (h : ∀ s, t ≠ '?' :: '=' :: s) : openTag? '<' t =
    if Text.lower (t.take 4) = "?php" then
      match t.drop 4 with
      | [] => some 4
      | '\r' :: '\n' :: _ => some 6
      | c :: _ => if isSpace c then some 5 else none
    else none :=
  openTag?.eq_2 t h

theorem lower_take_edge (hz : isEdge z = true) (hy : y.length < 4) (r : Text) :
    Text.lower ((y ++ z :: r).take 4) ≠ "?php" := by
  intro h
  have h := congrArg (fun t : Text => t[y.length]?) h
  have hget : (Text.lower ((y ++ z :: r).take 4))[y.length]? = some z.toLower := by
    simp [Text.lower, hy]
  simp only [hget] at h
  have hmem := List.mem_of_getElem? h.symm
  rcases isEdge_cases hz with rfl | rfl | rfl | rfl | rfl <;> revert hmem <;> decide

theorem openTag?_edge (hz : isEdge z = true) (c : Char) (y r r' : Text) :
    openTag? c (y ++ z :: r') = openTag? c (y ++ z :: r) := by
  by_cases hc : c = '<'
  · subst hc
    by_cases he : ∃ s, y = '?' :: '=' :: s
    · obtain ⟨s, rfl⟩ := he
      rfl
    · have hne : ∀ r s, y ++ z :: r ≠ '?' :: '=' :: s := by
        intro r s h
        match y with
        | [] =>
          obtain ⟨rfl, -⟩ := List.cons.inj h
          cases hz
        | [c] =>
          obtain ⟨rfl, -⟩ := List.cons.inj (List.cons.inj h).2
          cases hz
        | c :: d :: y =>
          obtain ⟨hc, h⟩ := List.cons.inj h
          obtain ⟨hd, -⟩ := List.cons.inj h
          exact he ⟨y, by rw [hc, hd]⟩
      rw [openTag?_of_ne (hne r), openTag?_of_ne (hne r')]
      by_cases hy : y.length < 4
      · rw [if_neg (lower_take_edge hz hy r), if_neg (lower_take_edge hz hy r')]
      · rw [List.take_append_of_le_length (by omega), List.take_append_of_le_length (by omega),
          List.drop_append_of_le_length (by omega), List.drop_append_of_le_length (by omega)]
        congr 1
        match y.drop 4 with
        | [] => rcases isEdge_cases hz with rfl | rfl | rfl | rfl | rfl <;> rfl
        | [c] =>
          rcases isEdge_cases hz with rfl | rfl | rfl | rfl | rfl <;> grind
        | c :: d :: y => grind
  · rw [openTag?, openTag?] <;> intros <;> contradiction

theorem htmlSize_edge (hz : isEdge z = true) (h : htmlSize (u ++ (y ++ z :: r)) = u.length)
    (r' : Text) : htmlSize (u ++ (y ++ z :: r')) = u.length := by
  induction u with
  | nil =>
    cases y with
    | nil =>
      rcases isEdge_cases hz with rfl | rfl | rfl | rfl | rfl <;> simp [htmlSize, openTag?] at h
    | cons c y =>
      simp only [List.nil_append, List.cons_append, htmlSize] at h ⊢
      rw [openTag?_edge hz c y r]
      split at h
      · rw [if_pos ‹_›]
        rfl
      · cases h
  | cons c u ih =>
    simp only [List.cons_append, htmlSize] at h ⊢
    rw [← List.append_assoc, openTag?_edge hz c (u ++ y) r, List.append_assoc]
    split at h
    · cases h
    · rw [if_neg ‹_›, List.append_assoc, ih (Nat.succ.inj h)]
      rfl

theorem scan_edge (hz : isEdge z = true)
    (h : scan m c (u ++ (y ++ z :: r)) = .ok (k, u.length)) (r' : Text) :
    scan m c (u ++ (y ++ z :: r')) = .ok (k, u.length) := by
  cases m with
  | html =>
    simp only [scan, scanHtml, Except.ok.injEq] at h ⊢
    rw [← List.append_assoc, openTag?_edge hz c (u ++ y) r, List.append_assoc]
    rw [List.append_assoc]
    cases ho : openTag? c (u ++ (y ++ z :: r)) with
    | some n =>
      rw [ho] at h
      exact h
    | none =>
      simp only [ho, Prod.mk.injEq] at h ⊢
      exact ⟨h.1, htmlSize_edge hz h.2 r'⟩
  | code =>
    refine ((rule_of_scanCode h).similar (similar_edge hz y r r') (fun _ => ?_)
      (fun hk => ?_) (fun _ => ?_)).scanCode_eq
    · cases y <;> rfl
    · exact endsLine_edge hz ((rule_of_scanCode h).endsLine hk) r'
    · rw [← List.append_assoc, ← List.append_assoc]
      exact lineBreakSize_edge hz _ r r'

theorem scanCode_barrier (hz : isBarrier z = true) (t : Text) : scanCode z t = .ok (.punct, 0) := by
  rcases isBarrier_cases hz with rfl | rfl | rfl <;> rfl

theorem isOutside_scan {n : Nat} (h : scan .html c t = .ok (k, n)) : k.isOutside = true := by
  simp only [scan, scanHtml, Except.ok.injEq] at h
  split at h <;> cases h <;> rfl

theorem isOutside_html {x : Token} {xs : List Token} (h : Reads .html (x :: xs) t) :
    x.kind.isOutside = true := by
  cases h with
  | cons hs _ => exact isOutside_scan hs

/-- Behind a semicolon or a curly brace other code may stand. -/
theorem Reads.barrier (hz : isBarrier z = true) {xs zs zs' : List Token} {t t' : Text}
    (h : Reads m (xs ++ ⟨.punct, [z]⟩ :: zs) t) (h' : Reads .code zs' t') :
    Reads m (xs ++ ⟨.punct, [z]⟩ :: zs') (Token.spell xs ++ z :: t') := by
  induction xs generalizing m t with
  | nil =>
    cases m with
    | html => cases isOutside_html h
    | code => exact Reads.cons (u := []) (scanCode_barrier hz t') h'
  | cons x xs ih =>
    cases h with
    | @cons _ c u t k _ hs hr =>
      have ht : t = Token.spell xs ++ z :: Token.spell zs := by
        rw [← hr.spell]
        simp [Token.spell]
      rw [ht] at hs
      have := Reads.cons (scan_edge (isEdge_of_isBarrier hz) hs t') (ih hr)
      simp only [Token.spell, List.flatMap_cons, List.cons_append, List.append_assoc] at this ⊢
      exact this

end

end PhpGraft.Lexer
