import PhpGraft.Token.Lexer

/-!
Lexing as a relation between a text and its tokens. Each token takes the characters its rule
counts, so tokens spell the text they were read from, and from any token on reading goes as it
would from the start.
-/
namespace PhpGraft.Lexer

/-- The rules of code: the kind of the token that starts with `c` in front of `t`, and how many
characters of `t` belong to it. -/
inductive Rule (c : Char) (t : Text) : TokenKind → Nat → Prop
  | closeTag : c = '?' ∧ t.startsWith ['>'] → Rule c t .closeTag (1 + lineBreakSize (t.drop 1))
  | whitespace : isSpace c = true → Rule c t .whitespace (t.takeWhile isSpace).length
  | comment {n} : c = '/' ∧ t.startsWith ['*'] → commentSize? (t.drop 1) = some n →
      Rule c t (if t.startsWith ['*', '*'] && (t.drop 2).head?.any isSpace then .docComment
        else .blockComment) (1 + n)
  | lineComment : (c = '/' ∧ t.startsWith ['/']) ∨ (c = '#' ∧ !t.startsWith ['[']) →
      Rule c t .lineComment (lineCommentSize t)
  | var : c = '$' ∧ startsName t → Rule c t .var (t.takeWhile isNameChar).length
  | heredoc {n} : c = '<' ∧ t.startsWith ['<', '<'] → heredocSize (t.drop 2) = .ok n →
      Rule c t .heredoc (2 + n)
  | string {n} : c = '\'' ∨ c = '"' ∨ c = '\x60' → quotedSize? c t = some n → Rule c t .string n
  | number : c.isDigit = true → Rule c t .number (numberSize t)
  | name : isNameStart c ∨ (c = '\\' ∧ startsName t) → Rule c t .name (nameSize t)
  | punct : ¬(c = '?' ∧ t.startsWith ['>']) → isSpace c = false → ¬(c = '/' ∧ t.startsWith ['*']) →
      ¬((c = '/' ∧ t.startsWith ['/']) ∨ (c = '#' ∧ !t.startsWith ['['])) →
      ¬(c = '$' ∧ startsName t) → ¬(c = '<' ∧ t.startsWith ['<', '<']) →
      ¬(c = '\'' ∨ c = '"' ∨ c = '\x60') → c.isDigit = false →
      ¬(isNameStart c ∨ (c = '\\' ∧ startsName t)) → Rule c t .punct 0

theorem rule_of_scanCode {c : Char} {t : Text} {k : TokenKind} {n : Nat}
    (h : scanCode c t = .ok (k, n)) : Rule c t k n := by
  unfold scanCode at h
  split at h
  · cases h
    exact .closeTag ‹_›
  split at h
  · cases h
    exact .whitespace ‹_›
  split at h
  · split at h
    · cases h
      exact .comment ‹_› ‹_›
    · cases h
  split at h
  · cases h
    exact .lineComment ‹_›
  split at h
  · cases h
    exact .var ‹_›
  split at h
  · cases hh : heredocSize (t.drop 2) <;> rw [hh] at h <;> cases h
    exact .heredoc ‹_› hh
  split at h
  · split at h <;> cases h
    exact .string ‹_› ‹_›
  split at h
  · cases h
    exact .number ‹_›
  split at h
  · cases h
    exact .name ‹_›
  · cases h
    exact .punct ‹_› (Bool.eq_false_iff.2 ‹_›) ‹_› ‹_› ‹_› ‹_› ‹_› (Bool.eq_false_iff.2 ‹_›) ‹_›

theorem startsWith_iff {t : Text} {q : Char} : t.startsWith [q] = true ↔ t.head? = some q := by
  cases t with
  | nil => simp [Text.startsWith, List.isPrefixOf]
  | cons c t =>
    simp only [Text.startsWith, List.isPrefixOf, Bool.and_true, beq_iff_eq, List.head?_cons,
      Option.some.injEq]
    exact eq_comm

theorem ne_of_isNameChar {c d : Char} (h : isNameChar c = true) (hd : isNameChar d = false) :
    c ≠ d := by
  rintro rfl
  rw [h] at hd
  cases hd

theorem not_isSpace_of_isNameChar {c : Char} (h : isNameChar c = true) : isSpace c = false := by
  simp only [isSpace, Bool.or_eq_false_iff, beq_eq_false_iff_ne]
  exact ⟨⟨⟨⟨ne_of_isNameChar h (by decide), ne_of_isNameChar h (by decide)⟩,
    ne_of_isNameChar h (by decide)⟩, ne_of_isNameChar h (by decide)⟩, ne_of_isNameChar h (by decide)⟩

theorem isDigit_of_isNameStart {c : Char} (h : isNameStart c = true) : c.isDigit = false := by
  have hupper (h : c.isUpper = true) : 65 ≤ c.toNat :=
    UInt32.le_iff_toNat_le.1 (of_decide_eq_true h).1
  have hlower (h : c.isLower = true) : 97 ≤ c.toNat :=
    UInt32.le_iff_toNat_le.1 (of_decide_eq_true (Bool.and_eq_true_iff.1 h).1)
  refine Bool.eq_false_iff.2 fun hd => ?_
  have hdigit : c.toNat ≤ 57 := UInt32.le_iff_toNat_le.1 (of_decide_eq_true (Bool.and_eq_true_iff.1 hd).2)
  rcases Bool.or_eq_true_iff.1 h with h | h
  · rcases Bool.or_eq_true_iff.1 h with h | h
    · rw [beq_iff_eq.1 h] at hd
      cases hd
    · rcases Bool.or_eq_true_iff.1 h with h | h
      · exact absurd (Nat.le_trans (hupper h) hdigit) (by decide)
      · exact absurd (Nat.le_trans (hlower h) hdigit) (by decide)
  · exact absurd (Nat.le_trans (of_decide_eq_true h) hdigit) (by decide)

/-- None of the rules in front of those of numbers and names. -/
theorem scanCode_word {c : Char} {t : Text} (h : isNameChar c = true ∨ c = '\\') : scanCode c t =
    if c.isDigit then .ok (.number, numberSize t)
    else if isNameStart c ∨ (c = '\\' ∧ startsName t) then .ok (.name, nameSize t)
    else .ok (.punct, 0) := by
  have hne : ∀ d, isNameChar d = false → d ≠ '\\' → c ≠ d := by
    intro d hd hdne
    rcases h with h | rfl
    · exact ne_of_isNameChar h hd
    · exact hdne.symm
  have hspace : isSpace c = false := by
    rcases h with h | rfl
    · exact not_isSpace_of_isNameChar h
    · rfl
  simp [scanCode, hspace, hne '?' (by decide) (by decide), hne '/' (by decide) (by decide),
    hne '#' (by decide) (by decide), hne '$' (by decide) (by decide),
    hne '<' (by decide) (by decide), hne '\'' (by decide) (by decide),
    hne '"' (by decide) (by decide), hne '\x60' (by decide) (by decide)]

theorem Rule.scanCode_eq {c : Char} {t : Text} {k : TokenKind} {n : Nat} (h : Rule c t k n) :
    scanCode c t = .ok (k, n) := by
  unfold scanCode
  cases h with
  | closeTag h => rw [if_pos h]
  | whitespace h =>
    rw [if_neg, if_pos h]
    rintro ⟨rfl, -⟩
    revert h
    decide
  | comment h hn =>
    rw [if_neg, if_neg, if_pos h, hn]
    · rw [h.1]; decide
    · rw [h.1]; simp
  | lineComment h =>
    rw [if_neg, if_neg, if_neg, if_pos h]
    · rcases h with ⟨rfl, h⟩ | ⟨rfl, -⟩
      · rw [startsWith_iff] at h; simp [startsWith_iff, h]
      · simp
    · rcases h with ⟨rfl, h⟩ | ⟨rfl, -⟩ <;> decide
    · rcases h with ⟨rfl, h⟩ | ⟨rfl, -⟩ <;> simp
  | var h => 
    obtain ⟨rfl, h⟩ := h
    simp [h, isSpace]
  | heredoc h hn => 
    obtain ⟨rfl, h⟩ := h
    simp [h, isSpace, hn, Except.map]
  | string h hn => 
    rcases h with rfl | rfl | rfl <;> simp [isSpace, hn]
  | number h => 
    exact (scanCode_word (.inl (Bool.or_eq_true_iff.2 (.inr h)))).trans (if_pos h)
  | name h =>
    have hdigit : c.isDigit = false := by
      rcases h with h | ⟨rfl, -⟩
      · exact isDigit_of_isNameStart h
      · rfl
    refine (scanCode_word (h.imp (fun h => Bool.or_eq_true_iff.2 (.inl h)) And.left)).trans ?_
    rw [hdigit, if_neg Bool.false_ne_true, if_pos h]
  | punct h₁ h₂ h₃ h₄ h₅ h₆ h₇ h₈ h₉ =>
    rw [if_neg h₁, if_neg (by simp [h₂]), if_neg h₃, if_neg h₄, if_neg h₅, if_neg h₆, if_neg h₇,
      if_neg (by simp [h₈]), if_neg h₉]

/-! No rule counts more characters than there are. -/

theorem openTag?_le {c : Char} {t : Text} {n : Nat} (h : openTag? c t = some n) :
    n ≤ t.length := by
  unfold openTag? at h
  split at h
  · cases h
    simp
  · split at h
    · rename_i hp
      have hl : min 4 t.length = 4 := by
        simpa [Text.lower] using congrArg List.length hp
      split at h
      · cases h
        omega
      · rename_i heq
        have := congrArg List.length heq
        simp only [List.length_drop, List.length_cons] at this
        cases h
        omega
      · rename_i heq
        have := congrArg List.length heq
        simp only [List.length_drop, List.length_cons] at this
        split at h <;> cases h
        omega
    · cases h
  · cases h

theorem htmlSize_le (t : Text) : htmlSize t ≤ t.length := by
  fun_induction htmlSize t <;> simp_all

theorem lineBreakSize_le (t : Text) : lineBreakSize t ≤ t.length := by
  fun_cases lineBreakSize t <;> simp

theorem lineCommentSize_le (t : Text) : lineCommentSize t ≤ t.length := by
  fun_induction lineCommentSize t <;> simp_all

theorem commentSize?_le {t : Text} {n : Nat} (h : commentSize? t = some n) : n ≤ t.length := by
  fun_induction commentSize? t generalizing n <;> grind [Option.map_eq_some_iff]

theorem quotedSize?_le {quote : Char} {t : Text} {n : Nat} (h : quotedSize? quote t = some n) :
    n ≤ t.length := by
  fun_induction quotedSize? quote t generalizing n <;> grind [Option.map_eq_some_iff]

theorem numberSize_le (t : Text) : numberSize t ≤ t.length := by
  fun_induction numberSize t <;> simp_all

theorem nameSize_le (t : Text) : nameSize t ≤ t.length := by
  fun_induction nameSize t <;> simp_all

theorem takeWhile_length_le (p : Char → Bool) (t : Text) : (t.takeWhile p).length ≤ t.length :=
  (List.takeWhile_prefix p).length_le

theorem closesHeredoc_le {label t : Text} (h : closesHeredoc label t = true) :
    (t.takeWhile isIndent).length + label.length ≤ t.length := by
  have hd : (t.takeWhile isIndent).length + (t.dropWhile isIndent).length = t.length := by
    rw [← List.length_append, List.takeWhile_append_dropWhile]
  unfold closesHeredoc Text.dropPrefix? at h
  split at h
  · rename_i hp
    split at hp
    · rename_i hl
      have := (List.isPrefixOf_iff_prefix.1 hl).length_le
      omega
    · cases hp
  · cases h

theorem heredocBody?_le {label t : Text} {lineStart : Bool} {n : Nat}
    (h : heredocBody? label lineStart t = some n) : n ≤ t.length := by
  fun_induction heredocBody? label lineStart t generalizing n with
  | case1 lineStart t hc =>
    cases h
    exact closesHeredoc_le (Bool.and_eq_true_iff.1 hc).2
  | case2 => cases h
  | case3 lineStart c t hc ih =>
    obtain ⟨m, hm, rfl⟩ := Option.map_eq_some_iff.1 h
    simpa using ih hm

theorem heredocSize_le {t : Text} {n : Nat} (h : heredocSize t = .ok n) : n ≤ t.length := by
  unfold heredocSize at h
  extract_lets indent quote opening label rest at h
  split at h
  · cases h
  rename_i hne
  split at h
  · cases h
  split at h
  · rename_i hb
    have hb : _ ≤ (t.drop (opening + label.length)).length := heredocBody?_le hb
    have hl : label.length ≤ (t.drop opening).length := takeWhile_length_le ..
    have : 0 < label.length := by simpa [List.length_pos_iff] using hne
    simp only [List.length_drop] at hb hl
    cases h
    omega
  · cases h

theorem length_le_of_startsWith {s t : Text} (h : t.startsWith s = true) : s.length ≤ t.length :=
  (List.isPrefixOf_iff_prefix.1 h).length_le

theorem Rule.le {c : Char} {t : Text} {k : TokenKind} {n : Nat} (h : Rule c t k n) :
    n ≤ t.length := by
  cases h with
  | closeTag h =>
    have := length_le_of_startsWith h.2
    have hb := lineBreakSize_le (t.drop 1)
    simp only [List.length_drop, List.length_cons, List.length_nil] at hb this
    omega
  | whitespace => exact takeWhile_length_le ..
  | comment h hn =>
    have := length_le_of_startsWith h.2
    have hn := commentSize?_le hn
    simp only [List.length_drop, List.length_cons, List.length_nil] at hn this
    omega
  | lineComment => exact lineCommentSize_le t
  | var => exact takeWhile_length_le ..
  | heredoc h hn =>
    have := length_le_of_startsWith h.2
    have hn := heredocSize_le hn
    simp only [List.length_drop, List.length_cons, List.length_nil] at hn this
    omega
  | string _ hn => exact quotedSize?_le hn
  | number => exact numberSize_le t
  | name => exact nameSize_le t
  | punct => exact Nat.zero_le _

theorem scan_le {m : Mode} {c : Char} {t : Text} {k : TokenKind} {n : Nat}
    (h : scan m c t = .ok (k, n)) : n ≤ t.length := by
  cases m with
  | html =>
    simp only [scan, scanHtml, Except.ok.injEq] at h
    split at h <;> cases h
    · exact openTag?_le ‹_›
    · exact htmlSize_le t
  | code => exact (rule_of_scanCode h).le

/-! The relation. -/

/-- Reading `t` gives the tokens `ts`. -/
inductive Reads : Mode → List Token → Text → Prop
  | nil {m} : Reads m [] []
  | cons {m c u t k ts} : scan m c (u ++ t) = .ok (k, u.length) → Reads (m.after k) ts t →
      Reads m (⟨k, c :: u⟩ :: ts) (c :: (u ++ t))

theorem reads_of_run {m : Mode} {p : Position} {t : Text} {ts : List Token}
    (h : run m p t = .ok ts) : Reads m ts t := by
  fun_induction run m p t generalizing ts with
  | case1 =>
    cases h
    exact .nil
  | case2 => cases h
  | case3 => cases h
  | case4 =>
    rename_i m p c t k n hs _ us hr ih
    have hl : (t.take n).length = n := by
      rw [List.length_take]
      have := scan_le hs
      omega
    have hr := Reads.cons (c := c) (u := t.take n) (by rw [List.take_append_drop, hl]; exact hs)
      (ih hr)
    rw [List.take_append_drop] at hr
    cases h
    exact hr

theorem Reads.run {m : Mode} {t : Text} {ts : List Token} (h : Reads m ts t) (p : Position) :
    run m p t = .ok ts := by
  induction h generalizing p with
  | nil => rw [Lexer.run]
  | cons hs _ ih =>
    rw [Lexer.run, hs]
    simp only [List.take_left, List.drop_left]
    rw [ih]

theorem spell_append (xs ys : List Token) :
    Token.spell (xs ++ ys) = Token.spell xs ++ Token.spell ys := List.flatMap_append

theorem spell_singleton (x : Token) : Token.spell [x] = x.text := List.append_nil _

/-- Lexing is lossless. -/
theorem Reads.spell {m : Mode} {t : Text} {ts : List Token} (h : Reads m ts t) :
    Token.spell ts = t := by
  induction h with
  | nil => rfl
  | cons _ _ ih =>
    simp only [Token.spell, List.flatMap_cons, List.cons_append] at ih ⊢
    rw [ih]

/-- The mode behind the given tokens. -/
def Mode.afterAll (m : Mode) (ts : List Token) : Mode := ts.foldl (fun m t => m.after t.kind) m

theorem Reads.of_append {m : Mode} {as bs : List Token} {t : Text} (h : Reads m (as ++ bs) t) :
    Reads (m.afterAll as) bs (Token.spell bs) := by
  induction as generalizing m t with
  | nil =>
    rw [show Token.spell bs = t from h.spell]
    exact h
  | cons a as ih =>
    cases h with
    | cons _ hr => exact ih hr

theorem Reads.text_ne_nil {m : Mode} {ts : List Token} {t : Text} (h : Reads m ts t) :
    ∀ a ∈ ts, a.text ≠ [] := by
  induction h with
  | nil => exact fun _ ha => nomatch ha
  | cons _ _ ih =>
    intro a ha
    rcases List.mem_cons.1 ha with rfl | ha
    · exact List.cons_ne_nil _ _
    · exact ih a ha

/-! Comments. -/

/-- The end of the text, a line break or a close tag. -/
def EndsLine (t : Text) : Prop := t = [] ∨ (∃ r, t = '\n' :: r) ∨ ∃ r, t = '?' :: '>' :: r

theorem endsLine_drop (t : Text) : EndsLine (t.drop (lineCommentSize t)) := by
  fun_induction lineCommentSize t with
  | case1 => exact .inl rfl
  | case2 t => exact .inr (.inl ⟨t, rfl⟩)
  | case3 t => exact .inr (.inr ⟨t, rfl⟩)
  | case4 _ _ _ _ ih => exact ih

theorem getLast?_commentSize? {t : Text} {n : Nat} (h : commentSize? t = some n) :
    (t.take n).getLast? = some '/' := by
  fun_induction commentSize? t generalizing n with
  | case1 => cases h
  | case2 =>
    cases h
    rfl
  | case3 c t _ ih =>
    obtain ⟨m, hm, rfl⟩ := Option.map_eq_some_iff.1 h
    rw [List.take_succ_cons, List.getLast?_cons, ih hm]
    rfl

/-- A comment starts with a slash or a hash. One that goes to the end of its line ends before the
line break or a close tag, any other with a slash. -/
theorem Rule.comment_bounds {c : Char} {t : Text} {k : TokenKind} {n : Nat} (h : Rule c t k n)
    (hk : k.isComment = true) :
    (c = '/' ∨ c = '#') ∧ ((t.take n).getLast? = some '/' ∨ EndsLine (t.drop n)) := by
  cases h with
  | comment h hn =>
    refine ⟨.inl h.1, .inl ?_⟩
    obtain ⟨r, rfl⟩ := List.isPrefixOf_iff_prefix.1 h.2
    have hlast := getLast?_commentSize? hn
    rw [List.singleton_append, List.drop_succ_cons, List.drop_zero] at hlast
    rw [Nat.add_comm, List.singleton_append, List.take_succ_cons, List.getLast?_cons, hlast]
    rfl
  | lineComment h => exact ⟨h.imp And.left And.left, .inr (endsLine_drop t)⟩
  | _ => cases hk

theorem Reads.get {m : Mode} {ts : List Token} {t : Text} {k : Nat} {tok : Token}
    (h : Reads m ts t) (hk : ts[k]? = some tok) :
    ∃ m' c u, tok.text = c :: u ∧
      scan m' c (u ++ Token.spell (ts.drop (k + 1))) = .ok (tok.kind, u.length) := by
  obtain ⟨hlt, rfl⟩ := List.getElem?_eq_some_iff.1 hk
  rw [← List.take_append_drop k ts, List.drop_eq_getElem_cons hlt] at h
  have hr := h.of_append
  generalize Token.spell (ts[k] :: ts.drop (k + 1)) = text at hr
  generalize ts[k] = tok at hr
  cases hr with
  | cons hs hr =>
    refine ⟨m.afterAll (ts.take k), _, _, rfl, ?_⟩
    rw [hr.spell]
    exact hs

theorem Reads.comment {m : Mode} {ts : List Token} {t : Text} {k : Nat} {tok : Token}
    (h : Reads m ts t) (hk : ts[k]? = some tok) (hc : tok.kind.isComment = true) :
    (∃ c u, tok.text = c :: u ∧ isWhite c = false) ∧
      ((∃ c, tok.text.getLast? = some c ∧ isWhite c = false) ∨
        EndsLine (Token.spell (ts.drop (k + 1)))) := by
  obtain ⟨m', c, u, ht, hs⟩ := h.get hk
  cases m' with
  | html =>
    simp only [scan, scanHtml, Except.ok.injEq] at hs
    split at hs <;> simp only [Prod.mk.injEq] at hs <;> rw [← hs.1] at hc <;> cases hc
  | code =>
    obtain ⟨hfirst, hlast⟩ := (rule_of_scanCode hs).comment_bounds hc
    rw [List.take_left, List.drop_left] at hlast
    refine ⟨⟨c, u, ht, by rcases hfirst with rfl | rfl <;> decide⟩, hlast.imp_left fun hlast => ?_⟩
    refine ⟨'/', ?_, by decide⟩
    rw [ht, List.getLast?_cons, hlast]
    rfl

end PhpGraft.Lexer
