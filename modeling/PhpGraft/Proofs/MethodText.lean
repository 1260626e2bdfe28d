import PhpGraft.Proofs.Documentation
import PhpGraft.Proofs.Skeleton
import PhpGraft.Proofs.Splice
import PhpGraft.Proofs.Statements

/-!
A printed method is read as the method it was printed from, with its documentation and its statements
moved to their place.
-/
namespace PhpGraft

open Lexer

/-- The code that a fragment is read as. -/
def fragmentCode (code : Text) : Text :=
  if Text.lower (code.trimStart.take 5) = "<?php" then code.trimStart.drop 5 else code

theorem isSuffix_fragmentCode (code : Text) : fragmentCode code <:+ code := by
  unfold fragmentCode
  split
  · exact (List.drop_suffix _ _).trans (Text.isSuffix_trimStart code)
  · exact List.suffix_rfl

/-- A method whose parts do not change their meaning where they are moved. -/
structure NewMethod.Movable (m : NewMethod) : Prop where
  tidy : m.body.isTidy = true
  closed : ∀ ts, lexCode (fragmentCode m.body) = .ok ts → ∀ t ∈ ts, t.kind ≠ .closeTag
  doc : m.doc.Closed

theorem NewMethod.movable_iff {m : NewMethod} : m.Movable ↔ m.body.isTidy = true ∧
    ((lexCode (fragmentCode m.body)).toOption.all fun ts => ts.all (·.kind != .closeTag)) = true ∧
    m.doc.Closed := by
  constructor
  · rintro ⟨htidy, hclosed, hdoc⟩
    refine ⟨htidy, ?_, hdoc⟩
    cases hts : lexCode (fragmentCode m.body) with
    | error fault => rfl
    | ok ts => exact List.all_eq_true.2 fun t ht => bne_iff_ne.2 (hclosed ts hts t ht)
  · rintro ⟨htidy, hclosed, hdoc⟩
    refine ⟨htidy, fun ts hts t ht => ?_, hdoc⟩
    rw [hts] at hclosed
    exact bne_iff_ne.1 (List.all_eq_true.1 hclosed t ht)

instance (m : NewMethod) : Decidable m.Movable := decidable_of_iff _ m.movable_iff.symm

/-- A method at its place: its documentation and its statements are moved there. -/
def Method.placed (style : Style) (level : Nat) (d : Method) : Method :=
  { d with
    body? := d.body?.map (·.map (reindent · (style.indentation (level + 1)) style.newline))
    doc? := d.doc?.map (reindentComment · (style.indentation level) style.newline) }

namespace Lexer

variable {w T : Text} {X : List Token}

/-- An identifier in front of what is no part of a name. -/
theorem Reads.identifier (hw : Name.isIdentifier w = true) {d : Char} (hd : isNameChar d = false)
    (hne : d ≠ '\\') (h : Reads .code X (d :: T)) : Reads .code (⟨.name, w⟩ :: X) (w ++ d :: T) := by
  have hsize : nameSize (d :: T) = 0 := by simp [nameSize, hd, hne]
  exact (nameBefore_of_isQualified (Name.isQualified_of_isIdentifier hw) hsize).reads h

theorem Reads.head_comment {y : Token} (h : Reads .code (y :: X) T) (hy : y.kind.isComment = true) :
    T.head?.any isSpace = false := by
  obtain ⟨⟨c, u, hcu, hc⟩, -⟩ := h.comment (k := 0) rfl hy
  rw [← h.spell, Token.spell, List.flatMap_cons, hcu]
  exact Bool.eq_false_iff.2 fun hs => Bool.eq_false_iff.1 hc (isWhite_of_isSpace hs)

theorem Reads.newline (e : LineEnding) (hw : ∀ c ∈ w, isIndent c = true)
    (hT : T.head?.any isSpace = false) (h : Reads .code X T) :
    Reads .code (⟨.whitespace, e.text ++ w⟩ :: X) (e.text ++ w ++ T) := by
  have hspace : ∀ c ∈ e.text ++ w, isSpace c = true := by
    intro c hc
    rcases List.mem_append.1 hc with hc | hc
    · cases e with
      | lf => rw [List.mem_singleton.1 hc]; rfl
      | crlf =>
        rcases List.mem_cons.1 hc with rfl | hc
        · rfl
        · rw [List.mem_singleton.1 hc]; rfl
    · exact isSpace_of_isLayout (isLayout_of_isIndent (hw c hc))
  have hread := h.blank hspace hT
  cases e <;> exact hread

end Lexer

namespace NewMethod

variable (style : Style) (level : Nat) (m : NewMethod) (gap : Text)

/-- What stands in front of the first statement of a printed method. -/
def head : List Token :=
  [⟨.docComment, reindentComment m.doc.render (style.indentation level) style.newline⟩,
    ⟨.whitespace, style.newline ++ style.indentation level⟩,
    ⟨.name, m.visibility.word⟩, ⟨.whitespace, " "⟩, ⟨.name, "function"⟩, ⟨.whitespace, " "⟩,
    ⟨.name, m.name⟩, ⟨.punct, "("⟩, ⟨.punct, ")"⟩,
    ⟨.whitespace, style.newline ++ style.indentation level⟩, ⟨.punct, "\x7b"⟩,
    ⟨.whitespace, style.newline ++ gap⟩]

theorem spell_head : Token.spell (m.head style level gap) =
    reindentComment m.doc.render (style.indentation level) style.newline ++
      (style.newline ++ style.indentation level ++ (m.visibility.word ++ (" ".toList ++
        ("function".toList ++ (" ".toList ++ (m.name ++ ("(" ++ (")" ++ (style.newline ++
          style.indentation level ++ ("\x7b" ++ (style.newline ++ gap))))))))))) := by
  simp only [head, Token.spell, List.flatMap_cons, List.flatMap_nil, List.append_nil]

/-- What stands in front of the first statement, or of the closing brace if there is none. -/
def gapOf (sts : List Text) : Text :=
  if sts.isEmpty then style.indentation level else style.indentation (level + 1)

variable {style level m} {d : Method} {sts : List Text}

theorem body_eq (inner outer : Text) (sts : List Text) :
    sts.flatMap (fun s => style.newline ++ inner ++ reindent s inner style.newline) ++
        (style.newline ++ outer ++ "\x7d") =
      style.newline ++ (if sts.isEmpty then outer else inner) ++
        (Tokens.movedBody style.lineEnding inner outer sts ++ "\x7d") := by
  induction sts with
  | nil => rfl
  | cons s ss ih =>
    rw [List.flatMap_cons, List.append_assoc (style.newline ++ inner ++ _), ih]
    simp only [Tokens.movedBody, List.isEmpty_cons, Bool.false_eq_true, if_false, List.append_assoc]
    rfl

theorem method?_eq (h : m.method? = .ok d) : ∃ sts, parseFragment m.body = .ok sts ∧
    d = ⟨some m.visibility, [], false, m.name, [], none, some sts, some m.doc.render⟩ := by
  unfold method? at h
  split at h
  · cases h
  · cases h
    exact ⟨_, ‹_›, rfl⟩

/-- A method is printed as its head, its moved statements and a closing brace. -/
theorem print_method (sts : List Text) :
    (Method.mk (some m.visibility) [] false m.name [] none (some sts) (some m.doc.render)).print
        style level =
      Token.spell (m.head style level (gapOf style level sts)) ++
        (Tokens.movedBody style.lineEnding (style.indentation (level + 1)) (style.indentation level) sts ++
          "\x7d") := by
  have hbody := @body_eq style (style.indentation (level + 1)) (style.indentation level) sts
  have hwords : Text.join " " [m.visibility.word, "function"] =
      m.visibility.word ++ (" ".toList ++ "function".toList) := by
    simp [Text.join, List.intercalate]
  rw [spell_head, Method.print, Method.signature]
  change _ ++ (Text.join " " [m.visibility.word, "function"] ++ " ".toList ++ [] ++ m.name ++
    "(".toList ++ [] ++ ")".toList ++ []) ++ (style.newline ++ style.indentation level ++ "\x7b".toList ++ _ ++
      style.newline ++ style.indentation level ++ "\x7d".toList) = _
  rw [hwords]
  simp only [List.append_assoc, List.append_nil] at hbody ⊢
  rw [hbody]
  rfl

theorem isIndent_indentation (hi : ∀ c ∈ style.indent, isIndent c = true) (level : Nat) :
    ∀ c ∈ style.indentation level, isIndent c = true := by
  intro c hc
  obtain ⟨t, ht, hc⟩ := List.mem_flatten.1 hc
  exact hi c (List.eq_of_mem_replicate ht ▸ hc)

theorem isQualified_word (v : Visibility) : Name.isQualified v.word = true := by
  cases v <;> decide

theorem reads_space {X : List Token} {T : Text} (hT : T.head?.any isSpace = false)
    (h : Reads .code X T) : Reads .code (⟨.whitespace, " "⟩ :: X) (" ".toList ++ T) :=
  h.blank (w := [' ']) (List.forall_mem_singleton.2 rfl) hT

/-- The tokens of a method up to its first statement. -/
theorem reads_head (hname : Name.isIdentifier m.name = true) (hdoc : m.doc.Closed)
    (hi : ∀ c ∈ style.indent, isIndent c = true) {gap : Text} (hgap : ∀ c ∈ gap, isIndent c = true)
    {X : List Token} {T : Text} (hT : T.head?.any isSpace = false) (hX : Reads .code X T) :
    Reads .code (m.head style level gap ++ X) (Token.spell (m.head style level gap) ++ T) := by
  have hindent := isIndent_indentation hi level
  have hword := isQualified_word m.visibility
  have hfunction : Name.isQualified "function" = true := by decide
  have hopen := Reads.newline style.lineEnding hgap hT hX
  have hbrace : Reads .code _ ('\x7b' :: _) := .cons (u := []) (scanCode_barrier rfl _) hopen
  have hline := Reads.newline style.lineEnding hindent rfl hbrace
  have hclose : Reads .code _ (')' :: _) := .cons (u := []) (k := .punct) rfl hline
  have hparams : Reads .code _ ('(' :: _) := .cons (u := []) (k := .punct) rfl hclose
  have hid := Reads.identifier hname (by decide) (by decide) hparams
  have hspace := reads_space (not_isSpace_name (Name.isQualified_of_isIdentifier hname)) hid
  have hstopped : ∀ t : Text, Stopped (" ".toList ++ t) := by
    rintro t c ⟨⟩
    rfl
  have hkeyword := Reads.name hfunction (hstopped _) hspace
  have hspace' := reads_space (not_isSpace_name hfunction) hkeyword
  have hvisibility := Reads.name hword (hstopped _) hspace'
  have hline' := Reads.newline style.lineEnding hindent (not_isSpace_name hword) hvisibility
  have hall := hdoc.reads style.lineEnding hindent hline'
  rw [spell_head]
  simp only [List.append_assoc] at hall ⊢
  exact hall

end NewMethod

namespace Tokens

variable {ts : Tokens} {style : Style} {level : Nat} {m : NewMethod} {gap : Text} {a p n stop : Nat}
  {moved : List Text}

/-- The method that is read where a printed one stands. -/
def readMethod (style : Style) (level : Nat) (m : NewMethod) (moved : List Text) : Method :=
  ⟨some m.visibility, [], false, m.name, [], none, some moved,
    some (reindentComment m.doc.render (style.indentation level) style.newline)⟩

/-- A visibility and the keyword of a function. -/
theorem modifiers_word {v : Visibility} (h : ts[p]? = some ⟨.name, v.word⟩)
    (h' : ts[p + 1]? = some ⟨.whitespace, " "⟩) (h'' : ts[p + 2]? = some ⟨.name, "function"⟩)
    (hs : p + 2 < stop) : ts.modifiers memberModifiers p stop = ([v.word], p + 2) := by
  have hword : ts.isOneOf p memberModifiers = true := by
    rw [isOneOf, funext (isKeyword_of h)]
    cases v <;> decide
  have hfunction : ts.isOneOf (p + 2) memberModifiers = false := by
    rw [isOneOf, funext (isKeyword_of h'')]
    decide
  have hnext : ts.significant (p + 1) stop = p + 2 :=
    significant_next (isCode_of h') (isCode_of h'') hs
  rw [modifiers, dif_pos (by omega), if_pos hword, hnext, modifiers, dif_pos hs,
    if_neg (Bool.eq_false_iff.1 hfunction), text_of h]
  cases v <;> rfl

/-- A printed method stands at `p`, with `n` tokens between the gap behind its opening brace and its
closing brace. -/
structure Printed (ts : Tokens) (style : Style) (level : Nat) (m : NewMethod) (gap : Text)
    (moved : List Text) (p n : Nat) : Prop where
  head : ∀ k, k < 12 → ts[p + k]? = (m.head style level gap)[k]?
  brace : ts[p + 12 + n]? = some brace
  balanced : ts.Balanced (p + 12) (p + 12 + n)
  statements : ts.statements (p + 12) (p + 12 + n) = .ok moved

theorem printed_of_moves {F : Tokens} {i : Nat} {text : Text} {xs : List Token}
    (h : Moves F i text moved xs) (A B : List Token) :
    Printed (A ++ (m.head style level gap ++ (xs ++ Tokens.brace :: B))).toArray style level m gap moved
      A.length xs.length := by
  have hlen : (A ++ m.head style level gap).length = A.length + 12 := List.length_append
  have hstatements := h.statements (A ++ m.head style level gap) B
  have hbalanced := h.balanced (A ++ m.head style level gap) B
  rw [hlen, List.append_assoc] at hstatements hbalanced
  refine ⟨fun k hk => ?_, ?_, hbalanced, hstatements⟩
  · rw [getElem?_append, List.getElem?_append_left hk]
  · rw [← hlen, ← List.append_assoc, getElem?_append, List.getElem?_append_right (Nat.le_refl _),
      Nat.sub_self]
    rfl

namespace Printed

variable (h : ts.Printed style level m gap moved p n)
include h

theorem isPunct_brace : ts.isPunct (p + 12 + n) '\x7d' = true := by
  rw [isPunct_of h.brace]
  rfl

theorem matching_params (hs : p + 8 < stop) : ts.matching .round (p + 7) stop = .ok (p + 8) := by
  have h7 : ts[p + 7]? = some ⟨.punct, "("⟩ := h.head 7 (by decide)
  have h8 : ts[p + 8]? = some ⟨.punct, ")"⟩ := h.head 8 (by decide)
  rw [matching, matchingFrom, if_pos (by omega), delimiter?_of h7]
  change ts.matchingFrom .round (p + 7) stop [(.round, p + 7)] (p + 8) = _
  rw [matchingFrom, if_pos (by omega), delimiter?_of h8]
  rfl

theorem matching_body (hs : p + 12 + n < stop) :
    ts.matching .curly (p + 10) stop = .ok (p + 12 + n) := by
  have h10 : ts[p + 10]? = some ⟨.punct, "\x7b"⟩ := h.head 10 (by decide)
  have h11 : ts[p + 11]? = some ⟨.whitespace, style.newline ++ gap⟩ := h.head 11 (by decide)
  have hopen : ts.isPunct (p + 10) '\x7b' = true := by
    rw [isPunct_of h10]
    rfl
  have hwhite : ts.Balanced (p + 11) (p + 12) :=
    balanced_succ (not_bracket_of_not_isCode (isCode_of h11))
  exact matching_of_balanced hopen (hwhite.trans h.balanced (by omega)) h.isPunct_brace (by omega) hs

theorem balanced_all : ts.Balanced p (p + 12 + n + 1) := by
  have hname : ∀ k, k < 12 → ∀ w, (m.head style level gap)[k]? = some ⟨.name, w⟩ →
      ts.Balanced (p + k) (p + (k + 1)) := by
    intro k hk w hw
    refine balanced_succ (not_bracket_of_isName ?_)
    rw [isName_of ((h.head k hk).trans hw)]
    rfl
  have hplain : ∀ k, k < 12 → ∀ t, (m.head style level gap)[k]? = some t → t.kind.isCode = false →
      ts.Balanced (p + k) (p + (k + 1)) := by
    intro k hk t ht hcode
    refine balanced_succ (not_bracket_of_not_isCode ?_)
    rw [isCode_of ((h.head k hk).trans ht), hcode]
  have hfront : ts.Balanced p (p + 7) :=
    ((((((hplain 0 (by decide) _ rfl rfl).trans (hplain 1 (by decide) _ rfl rfl) (by omega)).trans
      (hname 2 (by decide) _ rfl) (by omega)).trans (hplain 3 (by decide) _ rfl rfl) (by omega)).trans
      (hname 4 (by decide) _ rfl) (by omega)).trans (hplain 5 (by decide) _ rfl rfl) (by omega)).trans
      (hname 6 (by decide) _ rfl) (by omega)
  have hparams : ts.Balanced (p + 7) (p + 9) :=
    balanced_matching (h.matching_params (Nat.lt_succ_self _))
  have hbody : ts.Balanced (p + 10) (p + 12 + n + 1) :=
    balanced_matching (h.matching_body (Nat.lt_succ_self _))
  exact ((hfront.trans hparams (by omega)).trans (hplain 9 (by decide) _ rfl rfl) (by omega)).trans
    hbody (by omega)

theorem member (hs : p + 12 + n < stop) (hdoc : ts.lastDoc? a (p + 2) =
      some (reindentComment m.doc.render (style.indentation level) style.newline)) :
    ts.member a (p + 2) stop = .ok (.ofSource (.method (readMethod style level m moved))
      ⟨a, p + 12 + n + 1⟩ none [], p + 12 + n + 1) := by
  have h2 : ts[p + 2]? = some ⟨.name, m.visibility.word⟩ := h.head 2 (by decide)
  have h3 : ts[p + 3]? = some ⟨.whitespace, " "⟩ := h.head 3 (by decide)
  have h4 : ts[p + 4]? = some ⟨.name, "function"⟩ := h.head 4 (by decide)
  have h5 : ts[p + 5]? = some ⟨.whitespace, " "⟩ := h.head 5 (by decide)
  have h6 : ts[p + 6]? = some ⟨.name, m.name⟩ := h.head 6 (by decide)
  have h7 : ts[p + 7]? = some ⟨.punct, "("⟩ := h.head 7 (by decide)
  have h9 : ts[p + 9]? = some ⟨.whitespace, style.newline ++ style.indentation level⟩ :=
    h.head 9 (by decide)
  have h10 : ts[p + 10]? = some ⟨.punct, "\x7b"⟩ := h.head 10 (by decide)
  have h11 : ts[p + 11]? = some ⟨.whitespace, style.newline ++ gap⟩ := h.head 11 (by decide)
  have hname : ts.methodName (p + 4) stop = (false, p + 6) := by
    have hnext : ts.significant (p + 5) stop = p + 6 :=
      significant_next (isCode_of h5) (isCode_of h6) (by omega)
    have hno : ts.isPunct (p + 6) '&' = false := by
      rw [isPunct_of h6]
      rfl
    rw [methodName, hnext, hno]
    rfl
  have hopening : ts.significant (p + 7) stop = p + 7 := significant_self (isCode_of h7) (by omega)
  have hclosing := h.matching_params (show p + 8 < stop by omega)
  have hbrace : ts.significant (p + 9) stop = p + 10 :=
    significant_next (isCode_of h9) (isCode_of h10) (by omega)
  have htype : ts.returnType (p + 10) stop = (none, p + 10) := by
    rw [returnType, isPunct_of h10]
    rfl
  have hbody : ts.methodBody (p + 10) stop = .ok (some moved, p + 12 + n + 1) := by
    have hopen : ts.isPunct (p + 10) '\x7b' = true := by
      rw [isPunct_of h10]
      rfl
    rw [methodBody, if_pos hopen, h.matching_body hs]
    dsimp only
    rw [statements_white (kind?_of h11) (by omega) h.statements]
  have hword : [m.visibility.word].findSome? Visibility.ofWord? = some m.visibility ∧
      [m.visibility.word].filter (fun w => (Visibility.ofWord? w).isNone) = [] := by
    cases m.visibility <;> decide
  have hmethod : ts.method a (p + 2) (p + 4) [m.visibility.word] stop =
      .ok (.ofSource (.method (readMethod style level m moved)) ⟨a, p + 12 + n + 1⟩ none [],
        p + 12 + n + 1) := by
    simp only [method, hname, hopening, isName_of h6, isPunct_of h7, hclosing, hbrace, htype, hbody,
      text_of h6, hword, hdoc, between_self]
    rfl
  have hfunction : ts.isKeyword (p + 4) "function" = true := by
    rw [isKeyword_of h4]
    rfl
  rw [Tokens.member, skipAttributes_of h2 rfl]
  dsimp only
  rw [modifiers_word h2 h3 h4 (by omega)]
  dsimp only
  rw [if_pos hfunction, hmethod]

end Printed

variable {F : Tokens} {i : Nat} {text : Text} {xs front : List Token}

theorem extract_append (A X B : List Token) :
    ((A ++ (X ++ B)).toArray.extract A.length (A.length + X.length)).toList = X := by
  rw [Array.toList_extract, List.extract_eq_take_drop, Nat.add_sub_cancel_left, List.drop_left,
    List.take_left]

/-- The last documentation in front of a declaration stands directly in front of it. -/
theorem lastDoc?_append (A front B : List Token) (t u : Token) (ht : t.kind = .docComment)
    (hu : u.kind ≠ .docComment) :
    Tokens.lastDoc? (A ++ (front ++ [t, u] ++ B)).toArray A.length
      (A.length + (front ++ [t, u]).length) = some t.text := by
  have hu' : (u.kind == TokenKind.docComment) = false := beq_eq_false_iff_ne.2 hu
  rw [lastDoc?, extract_append]
  simp [ht, hu']

/-- The tokens of a printed method, perhaps with comments in front of it. -/
def methodTokens (style : Style) (level : Nat) (m : NewMethod) (gap : Text) (front xs : List Token) :
    List Token := front ++ (m.head style level gap ++ (xs ++ [brace]))

theorem methodTokens_append (A B : List Token) :
    A ++ (methodTokens style level m gap front xs ++ B) =
      A ++ front ++ (m.head style level gap ++ (xs ++ brace :: B)) := by
  simp only [methodTokens, List.append_assoc, List.cons_append, List.nil_append]

theorem length_methodTokens : (methodTokens style level m gap front xs).length =
    front.length + 12 + xs.length + 1 := by
  simp only [methodTokens, List.length_append, List.length_cons, List.length_nil]
  change front.length + (12 + (xs.length + 1)) = _
  omega

theorem phrase_method (hcode : ∀ t ∈ front, t.kind.isCode = false)
    (hfront : ∀ t, front.head? = some t → t.kind.isComment = true) (h : Moves F i text moved xs) :
    Phrase .members (methodTokens style level m gap front xs)
      (.ofSource (.method (readMethod style level m moved)) ⟨0, 0⟩ none []) := by
  intro A B stop hB hs hs'
  have hprinted : Printed (A ++ front ++ (m.head style level gap ++ (xs ++ brace :: B))).toArray
      style level m gap moved (A ++ front).length xs.length := printed_of_moves h (A ++ front) B
  have hdoc := lastDoc?_append A front ((m.head style level gap).drop 2 ++ (xs ++ brace :: B))
    ⟨.docComment, reindentComment m.doc.render (style.indentation level) style.newline⟩
    ⟨.whitespace, style.newline ++ style.indentation level⟩ rfl (by rintro ⟨⟩)
  have hlist : A ++ (front ++ [⟨.docComment, reindentComment m.doc.render (style.indentation level)
      style.newline⟩, ⟨.whitespace, style.newline ++ style.indentation level⟩] ++
        ((m.head style level gap).drop 2 ++ (xs ++ brace :: B))) =
      A ++ (methodTokens style level m gap front xs ++ B) := by
    rw [methodTokens_append, List.append_assoc, List.append_assoc]
    rfl
  have hget : ∀ k, k < front.length →
      (A ++ (methodTokens style level m gap front xs ++ B)).toArray[A.length + k]? = front[k]? := by
    intro k hk
    rw [methodTokens_append, List.append_assoc, getElem?_append, List.getElem?_append_left hk]
  rw [hlist, List.length_append, ← Nat.add_assoc] at hdoc
  rw [← methodTokens_append, List.length_append] at hprinted
  rw [length_methodTokens] at hs hs' ⊢
  obtain ⟨ts, hts⟩ : ∃ ts : Tokens,
      (A ++ (methodTokens style level m gap front xs ++ B)).toArray = ts := ⟨_, rfl⟩
  rw [hts] at hprinted hdoc hget ⊢
  have h0 := hprinted.head 0 (by decide)
  have h1 := hprinted.head 1 (by decide)
  have h2 := hprinted.head 2 (by decide)
  have hsig : ts.significant A.length stop = A.length + front.length + 2 := by
    rw [significant_of_skip (j := A.length + front.length + 2) (by omega) (by omega) fun k hk hkj => ?_,
      significant_self (isCode_of h2) (by omega)]
    obtain ⟨k, rfl⟩ := Nat.exists_eq_add_of_le hk
    rcases Nat.lt_or_ge k front.length with hkf | hkf
    · have hfk := hget k hkf
      rw [List.getElem?_eq_getElem hkf] at hfk
      rw [isCode_of hfk, hcode _ (List.getElem_mem hkf)]
    · rcases Nat.lt_or_eq_of_le hkf with hlt | rfl
      · obtain rfl : k = front.length + 1 := by omega
        exact isCode_of h1
      · exact isCode_of h0
  have hlead : ts.leading A.length (A.length + front.length + 2) = A.length := by
    have hcomment : ts.isComment A.length = true := by
      cases front with
      | nil => exact isComment_of h0
      | cons t front => exact (isComment_of (hget 0 (Nat.succ_pos _))).trans (hfront t rfl)
    rw [leading, firstFrom, if_pos (by omega), if_pos hcomment]
  exact ⟨_, _, hsig, by omega, hlead, hprinted.member (by omega) hdoc, by omega, rfl⟩

/-- All brackets of a printed method are closed in it. -/
theorem balanced_method (h : Moves F i text moved xs) (A B : List Token) :
    Balanced (A ++ (methodTokens style level m gap [] xs ++ B)).toArray A.length
      (A.length + (methodTokens style level m gap [] xs).length) := by
  have hprinted : Printed (A ++ [] ++ (m.head style level gap ++ (xs ++ brace :: B))).toArray
      style level m gap moved (A ++ []).length xs.length := printed_of_moves h (A ++ []) B
  have hall := hprinted.balanced_all
  rw [← methodTokens_append, List.append_nil] at hall
  rw [length_methodTokens, List.length_nil]
  rwa [show A.length + 12 + xs.length + 1 = A.length + (0 + 12 + xs.length + 1) by omega] at hall

/-- The tokens of a printed method and the statements that are read from them. -/
structure Rendered (style : Style) (level : Nat) (m : NewMethod) (d : Method) (gap : Text)
    (moved : List Text) (xs : List Token) : Prop where
  moves : ∃ F i text, Moves F i text moved xs
  reads : Reads .code (methodTokens style level m gap [] xs) (d.print style level)
  placed : readMethod style level m moved = d.placed style level
  heredocs : ∀ ts, lexCode (fragmentCode m.body) = .ok ts →
    List.Forall₂ (Heredoc.Reprinted style.lineEnding) (Token.heredocs ts) (Token.heredocs xs)

theorem parseFragment_eq {code : Text} {sts : List Text} (h : parseFragment code = .ok sts) :
    ∃ tokens, lexCode (fragmentCode code) = .ok tokens ∧
      Tokens.statements tokens.toArray 0 tokens.length = .ok sts := by
  unfold parseFragment at h
  dsimp only at h
  split at h
  · cases h
  · exact ⟨_, ‹_›, h⟩

/-- A movable method is printed as tokens that are read as the method at its place. -/
theorem exists_rendered {d : Method} (hm : m.Movable) (hname : Name.isIdentifier m.name = true)
    (hd : m.method? = .ok d) (hi : ∀ c ∈ style.indent, isIndent c = true) (level : Nat) :
    ∃ gap moved xs, Rendered style level m d gap moved xs := by
  obtain ⟨sts, hsts, rfl⟩ := NewMethod.method?_eq hd
  obtain ⟨tokens, hlex, hstatements⟩ := parseFragment_eq hsts
  have htidy : (fragmentCode m.body).isTidy = true := by
    obtain ⟨s, hs⟩ := isSuffix_fragmentCode m.body
    have htidy := hm.tidy
    rw [← hs] at htidy
    exact Text.isTidy_of_append htidy
  have hreads : Reads .code (Array.toList tokens.toArray) (fragmentCode m.body) := reads_of_run hlex
  have hinner := NewMethod.isIndent_indentation hi (level + 1)
  have houter := NewMethod.isIndent_indentation hi level
  obtain ⟨xs, hxs, hheredocs⟩ := exists_moves (F := tokens.toArray) hreads (hm.closed tokens hlex) htidy
    style.lineEnding hinner houter (Nat.zero_le _) (split_of_statements hstatements)
  have hgap : ∀ c ∈ NewMethod.gapOf style level sts, isIndent c = true := by
    unfold NewMethod.gapOf
    split
    · exact houter
    · exact hinner
  refine ⟨NewMethod.gapOf style level sts, _, xs, ⟨_, _, _, hxs⟩, ?_, rfl, fun ts hts => ?_⟩
  swap
  · obtain rfl : tokens = ts := Except.ok.inj (hlex.symm.trans hts)
    exact hheredocs
  rw [NewMethod.print_method]
  exact NewMethod.reads_head hname hm.doc hi hgap hxs.solid hxs.reads

/-! A printed method as a part of a class. -/

/-- A printed method with the white space in front of it. -/
def methodPart (style : Style) (level : Nat) (m : NewMethod) (gap : Text) (moved : List Text)
    (white : Text) (xs : List Token) : Part :=
  ⟨white, methodTokens style level m gap [] xs, [],
    .ofSource (.method (readMethod style level m moved)) ⟨0, 0⟩ none []⟩

theorem sound_method {white t : Text} (hwhite : ∀ c ∈ white, isSpace c = true)
    (hreads : Reads .code (methodTokens style level m gap [] xs) t) (h : Moves F i text moved xs) :
    (methodPart style level m gap moved white xs).Sound .members where
  white := hwhite
  phrase := phrase_method (List.forall_mem_nil _) nofun h
  closed := ⟨m.head style level gap ++ xs, '\x7d', by
    simp only [methodPart, methodTokens, List.append_assoc]; rfl, rfl⟩
  reads := ⟨[], t, (List.append_nil _).symm ▸ hreads⟩
  solid := by
    change (Token.spell (methodTokens style level m gap [] xs)).head?.any isSpace = false
    rw [hreads.spell]
    exact hreads.head_comment rfl
  calm := ⟨⟨.name, m.visibility.word⟩, rfl, fun _ => by cases m.visibility <;> decide⟩
  note := .inl rfl
  inside := by
    have hhead : ∀ t ∈ m.head style level gap, t.kind.isOutside = false := by
      intro t ht
      simp only [NewMethod.head, List.mem_cons, List.not_mem_nil, or_false] at ht
      rcases ht with rfl | rfl | rfl | rfl | rfl | rfl | rfl | rfl | rfl | rfl | rfl | rfl <;> rfl
    intro t ht
    rw [methodPart, List.append_nil, methodTokens, List.nil_append] at ht
    rcases List.mem_append.1 ht with ht | ht
    · exact hhead t ht
    rcases List.mem_append.1 ht with ht | ht
    · exact h.inside t ht
    · rw [List.mem_singleton.1 ht]
      rfl

end Tokens

end PhpGraft
