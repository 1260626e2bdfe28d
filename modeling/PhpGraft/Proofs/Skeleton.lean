import PhpGraft.Editor
import PhpGraft.Proofs.Joining
import PhpGraft.Proofs.Renumbering
import PhpGraft.Skeleton

/-!
The text of a new file is read again as the class it was made for, alone in its namespace.
-/
namespace PhpGraft

namespace Lexer

variable {w t T r p : Text} {X : List Token} {ps : List Text}

/-! A name is one token. -/

theorem splitOn_name (h : Text.splitOn '\\' t = p :: ps) (hp : Name.isIdentifier p = true) :
    ∃ c u p', t = c :: u ∧ p = c :: p' ∧ isNameStart c = true ∧ p'.all isNameChar = true ∧
      Text.splitOn '\\' u = p' :: ps := by
  cases t with
  | nil =>
    cases h
    cases hp
  | cons c u =>
    rw [Text.splitOn] at h
    split at h
    · cases h
      cases hp
    · cases hu : Text.splitOn '\\' u with
      | nil => exact absurd hu (Text.splitOn_ne_nil _ _)
      | cons p' ps' =>
        rw [hu] at h
        cases h
        obtain ⟨hc, hp'⟩ := Bool.and_eq_true_iff.1 hp
        exact ⟨c, u, p', rfl, rfl, hc, hp', hu⟩

/-- No name goes on at the end of the text or at a character that ends tokens. -/
theorem nameSize_of_stopped (h : Stopped r) : nameSize r = 0 := by
  cases r with
  | nil => rfl
  | cons c r =>
    rw [nameSize]
    rcases isStop_cases (h c rfl) with rfl | rfl | rfl | rfl | rfl | rfl | rfl | rfl | rfl <;> rfl

/-- The rest of a name, in front of what is no part of a name. -/
theorem nameSize_parts (h : Text.splitOn '\\' t = p :: ps) (hp : p.all isNameChar = true)
    (hps : ∀ q ∈ ps, Name.isIdentifier q = true) (hr : nameSize r = 0) :
    nameSize (t ++ r) = t.length := by
  induction t generalizing p ps with
  | nil => exact hr
  | cons c t ih =>
    rw [List.cons_append, nameSize]
    rw [Text.splitOn] at h
    split at h
    · cases h
      cases ht : Text.splitOn '\\' t with
      | nil => exact absurd ht (Text.splitOn_ne_nil _ _)
      | cons q qs =>
        rw [ht] at hps
        obtain ⟨hq, hqs⟩ := List.forall_mem_cons.1 hps
        obtain ⟨d, u, q', rfl, rfl, hd, hq', -⟩ := splitOn_name ht hq
        have hall : (d :: q').all isNameChar = true := by
          rw [List.all_cons, hq', isNameChar, hd]
          rfl
        have hstart : startsName (d :: u ++ r) = true := hd
        rw [if_pos (by rw [hstart, ‹c = '\\'›]; rfl), ih ht hall hqs]
        rfl
    · cases ht : Text.splitOn '\\' t with
      | nil => exact absurd ht (Text.splitOn_ne_nil _ _)
      | cons q qs =>
        rw [ht] at h
        cases h
        rw [List.all_cons, Bool.and_eq_true] at hp
        rw [if_pos (by rw [hp.1]; rfl), ih ht hp.2 hps]
        rfl

/-- A qualified name taken apart: what it starts with, and the pieces behind that. -/
theorem isQualified_cases (hw : Name.isQualified w = true) : ∃ c u p ps, isNameStart c = true ∧
    p.all isNameChar = true ∧ (∀ q ∈ ps, Name.isIdentifier q = true) ∧
      Text.splitOn '\\' u = p :: ps ∧ (w = c :: u ∨ w = '\\' :: c :: u) := by
  unfold Name.isQualified at hw
  cases hs : Text.splitOn '\\' (Name.withoutRoot w) with
  | nil => exact absurd hs (Text.splitOn_ne_nil _ _)
  | cons p ps =>
    rw [hs, List.all_cons, Bool.and_eq_true, List.all_eq_true] at hw
    obtain ⟨c, u, p', hroot, rfl, hc, hp', hu⟩ := splitOn_name hs hw.1
    refine ⟨c, u, p', ps, hc, hp', hw.2, hu, ?_⟩
    cases w with
    | nil => cases hroot
    | cons d v =>
      by_cases hd : d = '\\'
      · subst hd
        exact .inr (congrArg _ (by simpa [Name.withoutRoot, Text.dropPrefix?] using hroot))
      · have hne : ¬ '\\' = d := fun h => hd h.symm
        exact .inl (by simpa [Name.withoutRoot, Text.dropPrefix?, hne] using hroot)

theorem not_isSpace_name (hw : Name.isQualified w = true) : (w ++ T).head?.any isSpace = false := by
  obtain ⟨c, u, -, -, hc, -, -, -, rfl | rfl⟩ := isQualified_cases hw
  · exact not_isSpace_of_isNameChar (Bool.or_eq_true_iff.2 (.inl hc))
  · rfl

/-- In front of `t`, code that starts with `w` is read as the name `w` first. -/
def NameBefore (w t : Text) : Prop :=
  ∃ c u, w = c :: u ∧ scanCode c (u ++ t) = .ok (.name, u.length)

theorem nameBefore_of_isQualified (hw : Name.isQualified w = true) (hT : nameSize T = 0) :
    NameBefore w T := by
  obtain ⟨c, u, p, ps, hc, hp, hps, hu, rfl | rfl⟩ := isQualified_cases hw
  · have hrule : Rule c (u ++ T) .name (nameSize (u ++ T)) := .name (.inl hc)
    rw [nameSize_parts hu hp hps hT] at hrule
    exact ⟨c, u, rfl, hrule.scanCode_eq⟩
  · have hne : c ≠ '\\' := by
      rintro rfl
      cases hc
    have hall : (c :: p).all isNameChar = true := by
      rw [List.all_cons, hp, isNameChar, hc]
      rfl
    have hsplit : Text.splitOn '\\' (c :: u) = (c :: p) :: ps := by
      rw [Text.splitOn, if_neg hne, hu]
    have hrule : Rule '\\' (c :: u ++ T) .name (nameSize (c :: u ++ T)) := .name (.inr ⟨rfl, hc⟩)
    rw [nameSize_parts hsplit hall hps hT] at hrule
    exact ⟨'\\', c :: u, rfl, hrule.scanCode_eq⟩

theorem NameBefore.reads (hw : NameBefore w T) (h : Reads .code X T) :
    Reads .code (⟨.name, w⟩ :: X) (w ++ T) := by
  obtain ⟨c, u, rfl, hscan⟩ := hw
  exact .cons hscan h

theorem Reads.name (hw : Name.isQualified w = true) (hT : Stopped T) (h : Reads .code X T) :
    Reads .code (⟨.name, w⟩ :: X) (w ++ T) :=
  (nameBefore_of_isQualified hw (nameSize_of_stopped hT)).reads h

end Lexer

namespace Name

variable {t : Text}

theorem not_mem_of_isIdentifier (h : isIdentifier t = true) : '\\' ∉ t := by
  cases t with
  | nil => cases h
  | cons c u =>
    obtain ⟨hc, hu⟩ := Bool.and_eq_true_iff.1 h
    intro hmem
    rcases List.mem_cons.1 hmem with rfl | hmem
    · exact absurd hc (by decide)
    · exact absurd (List.all_eq_true.1 hu _ hmem) (by decide)

/-- Without a backslash a name has one part. -/
theorem isQualified_of_not_mem (h : '\\' ∉ t) : isQualified t = isIdentifier t := by
  have hroot : withoutRoot t = t := by
    cases t with
    | nil => rfl
    | cons c u =>
      have hne : c ≠ '\\' := fun hc => h (hc ▸ List.mem_cons_self)
      simp [withoutRoot, Text.dropPrefix?, hne.symm]
  rw [isQualified, hroot, Text.splitOn_of_not_mem h, List.all_cons, List.all_nil, Bool.and_true]

theorem isQualified_of_isIdentifier (h : isIdentifier t = true) : isQualified t = true :=
  (isQualified_of_not_mem (not_mem_of_isIdentifier h)).trans h

end Name

namespace Skeleton

/-- A file can be made of these names. -/
structure Sound (k : Skeleton) : Prop where
  scope : k.scope.isEmpty = true ∨ Name.isQualified k.scope = true
  name : Name.isIdentifier k.name = true

variable (k : Skeleton) (style : Style)

def classOpening : List Token :=
  [⟨.name, "class"⟩, ⟨.whitespace, " "⟩, ⟨.name, k.name⟩, ⟨.whitespace, style.newline⟩,
    ⟨.punct, "\x7b"⟩]

def scopeOpening : List Token :=
  [⟨.name, "namespace"⟩, ⟨.whitespace, " "⟩, ⟨.name, k.scope⟩, ⟨.punct, ";"⟩]

def classTokens : List Token :=
  k.classOpening style ++ [⟨.whitespace, style.newline⟩, ⟨.punct, "\x7d"⟩]

def scopeTokens : List Token :=
  if k.scope.isEmpty then [] else k.scopeOpening ++ [⟨.whitespace, style.newlines 2⟩]

/-- What the file ends with. -/
def lastText : Text := if style.finalNewline then style.newline else []

/-- The tokens of the file. -/
def tokens : List Token :=
  ⟨.openTag, "<?php" ++ style.newline⟩ :: ⟨.whitespace, style.newline⟩ ::
    (k.scopeTokens style ++ k.classTokens style ++ Lexer.blank (lastText style))

/-- The class, read from token `start` on. -/
def classNode (start : Nat) : Node :=
  .ofSource (.classLike (.ofName k.name)) ⟨start, start + 7⟩ (some ⟨start + 5, start + 6⟩) []

def topNode : Node :=
  if k.scope.isEmpty then k.classNode 2
  else .ofSource (.scope (some k.scope) false) ⟨2, 14⟩ (some ⟨6, 14⟩) [k.classNode 7]

/-- The file as it is read. -/
def source : Source :=
  let ts := (k.tokens style).toArray
  ⟨ts, .ofRoot (.ofSource .file ⟨0, ts.size⟩ (some ⟨1, ts.size⟩) [k.topNode])⟩

variable {k style} {text T : Text} {X : List Token}

theorem isSpace_newlines (n : Nat) : ∀ c ∈ style.newlines n, isSpace c = true := by
  have hline : ∀ c ∈ style.newline, isSpace c = true := by
    unfold Style.newline
    cases style.lineEnding <;> exact List.all_eq_true.1 rfl
  intro c hc
  obtain ⟨t, ht, hct⟩ := List.mem_flatten.1 hc
  exact hline c (List.eq_of_mem_replicate ht ▸ hct)

@[simp] theorem newlines_succ (n : Nat) :
    style.newlines (n + 1) = style.newline ++ style.newlines n := rfl

theorem newlines_one : style.newlines 1 = style.newline := List.append_nil _

theorem exists_newline (style : Style) : ∃ c t, style.newline = c :: t ∧ isSpace c = true := by
  unfold Style.newline
  cases style.lineEnding with
  | lf => exact ⟨'\n', [], rfl, rfl⟩
  | crlf => exact ⟨'\r', ['\n'], rfl, rfl⟩

theorem contains_newline (style : Style) : style.newline.contains '\n' = true := by
  unfold Style.newline
  cases style.lineEnding <;> rfl

theorem stopped_newline : Lexer.Stopped (style.newline ++ T) := by
  obtain ⟨c, t, ht, hc⟩ := exists_newline style
  rintro d hd
  rw [ht] at hd
  cases hd
  rw [Lexer.isStop, hc]
  rfl

theorem reads_newlines (n : Nat) (hT : T.head?.any isSpace = false) (h : Lexer.Reads .code X T) :
    Lexer.Reads .code (⟨.whitespace, style.newlines (n + 1)⟩ :: X) (style.newlines (n + 1) ++ T) := by
  have hblank : Lexer.Reads .code (Lexer.blank (style.newlines (n + 1)) ++ X) _ :=
    h.blank (isSpace_newlines _) hT
  obtain ⟨c, t, ht, -⟩ := exists_newline style
  rw [newlines_succ, ht] at hblank ⊢
  exact hblank

theorem reads_newline (hT : T.head?.any isSpace = false) (h : Lexer.Reads .code X T) :
    Lexer.Reads .code (⟨.whitespace, style.newline⟩ :: X) (style.newline ++ T) := by
  have hlines : Lexer.Reads .code (⟨.whitespace, style.newlines 1⟩ :: X) _ := reads_newlines 0 hT h
  rwa [newlines_one] at hlines

/-- A word and the name behind it. -/
theorem reads_word {word name : Text} (hword : Name.isQualified word = true)
    (hname : Name.isQualified name = true) (hT : Lexer.Stopped T) (h : Lexer.Reads .code X T) :
    Lexer.Reads .code (⟨.name, word⟩ :: ⟨.whitespace, " "⟩ :: ⟨.name, name⟩ :: X)
      (word ++ (" " ++ (name ++ T))) := by
  have hspace : (name ++ T).head?.any isSpace = false := Lexer.not_isSpace_name hname
  have hstop : Lexer.Stopped ((" " : Text) ++ (name ++ T)) := fun c hc => by
    cases hc
    rfl
  exact ((h.name hname hT).blank (w := " ") (List.all_eq_true.1 rfl) hspace).name hword hstop

theorem reads_class (hname : Name.isIdentifier k.name = true) (h : Lexer.Reads .code X T) :
    Lexer.Reads .code (k.classTokens style ++ X) (Token.spell (k.classTokens style) ++ T) := by
  have hspell : Token.spell (k.classTokens style) ++ T =
      "class" ++ (" " ++ (k.name ++ (style.newline ++ '\x7b' :: ([] ++ (style.newline ++
        '\x7d' :: ([] ++ T)))))) := by
    simp [classTokens, classOpening, Token.spell]
  rw [hspell]
  refine reads_word (by decide) (Name.isQualified_of_isIdentifier hname) stopped_newline ?_
  refine reads_newline rfl (.cons (Lexer.scanCode_barrier rfl _) ?_)
  exact reads_newline rfl (.cons (Lexer.scanCode_barrier rfl _) h)

theorem reads_scope (hscope : k.scope.isEmpty = true ∨ Name.isQualified k.scope = true)
    (hT : T.head?.any isSpace = false) (h : Lexer.Reads .code X T) :
    Lexer.Reads .code (k.scopeTokens style ++ X) (Token.spell (k.scopeTokens style) ++ T) := by
  unfold scopeTokens
  cases hempty : k.scope.isEmpty with
  | true => exact h
  | false =>
    have hspell : Token.spell (k.scopeOpening ++ [⟨.whitespace, style.newlines 2⟩]) ++ T =
        "namespace" ++ (" " ++ (k.scope ++ ';' :: ([] ++ (style.newlines 2 ++ T)))) := by
      simp [scopeOpening, Token.spell]
    rw [if_neg Bool.false_ne_true, hspell]
    refine reads_word (by decide) (hscope.resolve_left (Bool.eq_false_iff.1 hempty)) ?_ ?_
    · rintro c hc
      cases hc
      rfl
    · exact .cons (Lexer.scanCode_barrier rfl _) (reads_newlines 1 hT h)

theorem reads_last : Lexer.Reads .code (Lexer.blank (lastText style)) (lastText style) := by
  have hspace : ∀ c ∈ lastText style, isSpace c = true := by
    unfold lastText
    split
    · exact (newlines_one : style.newlines 1 = _) ▸ isSpace_newlines 1
    · exact nofun
  have hblank := Lexer.Reads.blank (X := []) (T := []) hspace rfl .nil
  rwa [List.append_nil, List.append_nil] at hblank

/-! The text of the file. -/

theorem frame_class (inner : Text) : Node.frame style 0 (.classLike (.ofName k.name)) inner =
    Token.spell (k.classOpening style) ++ (inner ++ (style.newline ++ "\x7d")) := by
  have hhead : (ClassHead.ofName k.name).print = "class" ++ (" " ++ k.name) := by
    change (("class" : Text) ++ ((" " : Text) ++ (k.name ++ []))) ++ [] ++ [] = _
    simp only [List.append_nil]
  change (ClassHead.ofName k.name).print ++ style.newline ++ [] ++
    (("\x7b" : Text) ++ inner ++ style.newline ++ [] ++ ("\x7d" : Text)) = _
  simp only [hhead, classOpening, Token.spell, List.flatMap_cons, List.flatMap_nil, List.append_nil,
    List.append_assoc]

theorem frame_scope (inner : Text) : Node.frame style 0 (.scope (some k.scope) false) inner =
    Token.spell k.scopeOpening ++ inner := by
  change ("namespace " : Text) ++ k.scope ++ ";" ++ inner = _
  have hword : ("namespace " : Text) = "namespace" ++ (" " : Text) := rfl
  simp only [hword, scopeOpening, Token.spell, List.flatMap_cons, List.flatMap_nil, List.append_nil,
    List.append_assoc]

theorem frame_file (inner : Text) : Node.frame style 0 .file inner =
    "<?php" ++ style.newline ++ (inner ++ lastText style) := by
  change ("<?php" : Text) ++ style.newline ++ inner ++ lastText style = _
  rw [List.append_assoc]

theorem print_class {n : Node} (hd : n.decl = .classLike (.ofName k.name)) (hc : n.children = []) :
    n.print style 0 = Token.spell (k.classTokens style) := by
  rw [Node.print_eq, hd, hc, Node.printList_nil, frame_class, classTokens]
  simp [Token.spell]

theorem spell_tokens : Token.spell (k.tokens style) = "<?php" ++ style.newline ++
    (style.newline ++ (Token.spell (k.scopeTokens style) ++
      (Token.spell (k.classTokens style) ++ lastText style))) := by
  have hlast := Lexer.spell_blank (lastText style)
  unfold Token.spell at hlast ⊢
  simp only [tokens, List.flatMap_cons, List.flatMap_append, hlast, List.append_assoc]

theorem printList_single (c : Container) (n : Node) : Node.printList style c 0 none [n] =
    style.newlines (c.gap none n.decl) ++ n.print style 0 := by
  rw [Node.printList_cons, Node.printList_nil, List.append_nil]
  exact congrArg (· ++ _) (List.append_nil _)

/-- The tokens spell the generated file. -/
theorem print_tree : k.tree.print style = Token.spell (k.tokens style) := by
  rw [spell_tokens, Tree.print, tree, Node.print_eq, scopeTokens]
  cases hempty : k.scope.isEmpty with
  | true =>
    change Node.frame style 0 .file (Node.printList style .file 0 none
      [⟨0, .synthesized, .classLike (.ofName k.name), []⟩]) = _
    rw [frame_file, printList_single, print_class rfl rfl, if_pos rfl]
    change _ ++ (style.newlines 1 ++ _ ++ _) = _ ++ (_ ++ ([] ++ _))
    simp only [newlines_one, List.nil_append, List.append_assoc]
  | false =>
    change Node.frame style 0 .file (Node.printList style .file 0 none
      [⟨1, .synthesized, .scope (some k.scope) false,
        [⟨0, .synthesized, .classLike (.ofName k.name), []⟩]⟩]) = _
    rw [frame_file, printList_single, Node.print_eq]
    change _ ++ (style.newlines 1 ++ Node.frame style 0 (.scope (some k.scope) false)
      (Node.printList style .scope 0 none _) ++ _) = _
    rw [frame_scope, printList_single, print_class rfl rfl, newlines_one, if_neg Bool.false_ne_true]
    change _ ++ (_ ++ (_ ++ (style.newlines 2 ++ _)) ++ _) = _
    simp only [Token.spell, List.flatMap_append, List.flatMap_cons, List.flatMap_nil, List.append_nil,
      List.append_assoc]

/-- Code behind the first line of a file. -/
theorem reads_file (hT : T.head?.any isSpace = false) (h : Lexer.Reads .code X T) :
    Lexer.Reads .html (⟨.openTag, "<?php" ++ style.newline⟩ :: ⟨.whitespace, style.newline⟩ :: X)
      ("<?php" ++ style.newline ++ (style.newline ++ T)) := by
  have hopening : ∀ t, Lexer.scan .html '<' (("?php" ++ style.newline : Text) ++ t) =
      .ok (.openTag, ("?php" ++ style.newline : Text).length) := by
    intro t
    unfold Style.newline
    cases style.lineEnding <;> rfl
  exact .cons (hopening _) (reads_newline hT h)

theorem head?_scopeTokens (hT : T.head?.any isSpace = false) :
    (Token.spell (k.scopeTokens style) ++ T).head?.any isSpace = false := by
  unfold scopeTokens
  split
  · exact hT
  · rfl

/-- The tokens are read from the generated file. -/
theorem reads_tokens (h : k.Sound) :
    Lexer.Reads .html (k.tokens style) (Token.spell (k.tokens style)) := by
  have hcode : Lexer.Reads .code (k.scopeTokens style ++ (k.classTokens style ++
      Lexer.blank (lastText style))) (Token.spell (k.scopeTokens style) ++
        (Token.spell (k.classTokens style) ++ lastText style)) :=
    reads_scope h.scope rfl (reads_class h.name reads_last)
  rw [spell_tokens, tokens, List.append_assoc]
  exact reads_file (head?_scopeTokens rfl) hcode

end Skeleton

/-! Parsing steps at known tokens. -/

namespace Tokens

variable {ts : Tokens} {i stop : Nat} {t : Token}

theorem kind?_of (h : ts[i]? = some t) : ts.kind? i = some t.kind := by
  rw [kind?, h, Option.map_some]

theorem text_of (h : ts[i]? = some t) : ts.text i = t.text := by
  rw [text, h, Option.map_some, Option.getD_some]

theorem isName_of (h : ts[i]? = some t) : ts.isName i = (t.kind == .name) := by
  rw [isName, kind?_of h]
  rfl

theorem isCode_of (h : ts[i]? = some t) : ts.isCode i = t.kind.isCode := by
  rw [isCode, kind?_of h, Option.any_some]

theorem isComment_of (h : ts[i]? = some t) : ts.isComment i = t.kind.isComment := by
  rw [isComment, kind?_of h, Option.any_some]

theorem isKeyword_of (h : ts[i]? = some t) (word : Text) :
    ts.isKeyword i word = (t.kind == .name && t.text.lower == word) := by
  rw [isKeyword, isName_of h, text_of h]

theorem isPunct_of (h : ts[i]? = some t) (c : Char) : ts.isPunct i c = (t == ⟨.punct, [c]⟩) := by
  rw [isPunct, h]
  rfl

theorem delimiter?_of (h : ts[i]? = some t) : ts.delimiter? i = t.delimiter? := by
  rw [delimiter?, h, Option.bind_some]

theorem significant_self (h : ts.isCode i = true) (hi : i < stop) : ts.significant i stop = i := by
  rw [significant, firstFrom, if_pos hi, if_pos h]

/-- Code behind one token that is none. -/
theorem significant_next (h : ts.isCode i = false) (h' : ts.isCode (i + 1) = true)
    (hi : i + 1 < stop) : ts.significant i stop = i + 1 := by
  rw [significant_succ h (by omega), significant_self h' hi]

theorem leading_self (i : Nat) : ts.leading i i = i := by
  rw [leading, firstFrom, if_neg (Nat.lt_irrefl i)]

/-- Behind one token that is no comment. -/
theorem leading_next (h : ts.isComment i = false) : ts.leading i (i + 1) = i + 1 := by
  rw [leading_of_skip (Nat.le_succ i) (Nat.le_refl _) fun j hi hj => ?_, leading_self]
  rwa [Nat.le_antisymm (Nat.le_of_lt_succ hj) hi]

theorem skipAttributes_of (h : ts[i]? = some t) (ht : t.kind = .name) (stop : Nat) :
    ts.skipAttributes i stop = .ok i := by
  have hno : ts.isPunct i '#' = false := by
    rw [isPunct_of h]
    exact beq_eq_false_iff_ne.2 fun he => by rw [he] at ht; cases ht
  rw [skipAttributes, hno, Bool.false_and, if_neg Bool.false_ne_true]

theorem isNamespace_of (h : ts[i]? = some t) (ht : t.text.lower ≠ "namespace") (stop : Nat) :
    ts.isNamespace i stop = false := by
  have hno : ts.isKeyword i "namespace" = false := by
    rw [isKeyword_of h, beq_eq_false_iff_ne.2 ht, Bool.and_false]
  rw [isNamespace, hno]
  rfl

/-- Code behind one open tag, up to the end. -/
theorem codeSpan?_cons {us : List Token} (ht : t.kind = .openTag)
    (hus : ∀ u ∈ us, u.kind.isOutside = false) :
    codeSpan? (t :: us).toArray = some ⟨1, (t :: us).toArray.size⟩ := by
  have hno : ∀ u ∈ us, ∀ kind : TokenKind, kind.isOutside = true → (u.kind == kind) = false := by
    intro u hu kind hk
    refine beq_eq_false_iff_ne.2 fun he => ?_
    rw [← he, hus u hu] at hk
    cases hk
  have hfirst : (t :: us).toArray.findIdx? (·.kind == .openTag) = some 0 := by
    simp [List.findIdx?_cons, ht]
  have hlast : (t :: us).reverse.findIdx (·.kind == .openTag) = us.length := by
    have hrest : us.reverse.findIdx (·.kind == .openTag) = us.reverse.length :=
      List.findIdx_eq_length.2 fun u hu => hno u (List.mem_reverse.1 hu) .openTag rfl
    rw [List.reverse_cons, List.findIdx_append, hrest, if_neg (Nat.lt_irrefl _), List.length_reverse,
      List.findIdx_cons, ht]
    exact Nat.zero_add _
  have hend : firstFrom (fun i => kind? (t :: us).toArray i == some .closeTag) 1 (t :: us).length =
      (t :: us).length := by
    refine Nat.le_antisymm (firstFrom_le ..) (Nat.le_of_not_lt fun hlt => ?_)
    have hle := le_firstFrom_of_lt hlt
    have hclose := firstFrom_pos hlt
    generalize firstFrom _ 1 (t :: us).length = j at hlt hle hclose
    obtain ⟨j, rfl⟩ := Nat.exists_eq_add_of_le' hle
    have hlt' : j < us.length := Nat.lt_of_succ_lt_succ hlt
    have hget : (t :: us).toArray[j + 1]? = some us[j] := by
      rw [List.getElem?_toArray, List.getElem?_cons_succ, List.getElem?_eq_getElem hlt']
    rw [kind?_of hget] at hclose
    have := hno us[j] (List.getElem_mem hlt') .closeTag rfl
    rw [beq_eq_false_iff_ne] at this
    exact this (Option.some.inj (beq_iff_eq.1 hclose))
  have hsize : (t :: us).toArray.size - 1 - us.length = 0 := by
    rw [List.size_toArray, List.length_cons]
    omega
  rw [codeSpan?, hfirst, Option.map_some, hlast, hsize]
  exact congrArg (fun stop => some (Span.mk 1 stop)) hend

end Tokens

namespace Skeleton

variable {k : Skeleton} {style : Style} {text : Text}

/-- The class is read where its tokens stand. -/
theorem declaration_class {ts : Tokens} {a stop : Nat}
    (h : ∀ i, i < 7 → ts[a + i]? = (k.classTokens style)[i]?) (hs : a + 7 ≤ stop) :
    ts.declaration a a stop = .ok (k.classNode a, a + 7) := by
  have h0 : ts[a]? = some ⟨.name, "class"⟩ := h 0 (by decide)
  have h1 : ts[a + 1]? = some ⟨.whitespace, " "⟩ := h 1 (by decide)
  have h2 : ts[a + 2]? = some ⟨.name, k.name⟩ := h 2 (by decide)
  have h3 : ts[a + 3]? = some ⟨.whitespace, style.newline⟩ := h 3 (by decide)
  have h4 : ts[a + 4]? = some ⟨.punct, "\x7b"⟩ := h 4 (by decide)
  have h5 : ts[a + 5]? = some ⟨.whitespace, style.newline⟩ := h 5 (by decide)
  have h6 : ts[a + 6]? = some ⟨.punct, "\x7d"⟩ := h 6 (by decide)
  have huse : ts.isKeyword a "use" = false := by
    rw [Tokens.isKeyword_of h0]
    decide
  have hmodifiers : ts.modifiers classModifiers a stop = ([], a) := by
    have hno : ts.isOneOf a classModifiers = false := by
      rw [Tokens.isOneOf, funext (Tokens.isKeyword_of h0)]
      decide
    rw [Tokens.modifiers, dif_pos (by omega), if_neg (Bool.eq_false_iff.1 hno)]
  have hname : ts.significant (a + 1) stop = a + 2 :=
    Tokens.significant_next (Tokens.isCode_of h1) (Tokens.isCode_of h2) (by omega)
  have hstart : ts.classStart? a stop = some ⟨.plain, [], a⟩ := by
    rw [Tokens.classStart?, Tokens.skipAttributes_of h0 rfl]
    simp only [hmodifiers, hname, Tokens.isName_of h0, Tokens.isName_of h2, Tokens.text_of h0]
    rfl
  have hbrace : ts.significant (a + 3) stop = a + 4 :=
    Tokens.significant_next (Tokens.isCode_of h3) (Tokens.isCode_of h4) (by omega)
  have hparents : ts.classParents (a + 2) stop none (a + 4) = .ok ([], [], a + 4) := by
    rw [Tokens.classParents, Tokens.isPunct_of h4]
    rfl
  have hclosing : ts.matching .curly (a + 4) stop = .ok (a + 6) := by
    rw [Tokens.matching, Tokens.matchingFrom, if_pos (by omega), Tokens.delimiter?_of h4]
    change ts.matchingFrom .curly (a + 4) stop [(.curly, a + 4)] (a + 5) = _
    rw [Tokens.matchingFrom, if_pos (by omega), Tokens.delimiter?_of h5]
    change ts.matchingFrom .curly (a + 4) stop [(.curly, a + 4)] (a + 6) = _
    rw [Tokens.matchingFrom, if_pos (by omega), Tokens.delimiter?_of h6]
    rfl
  have hmembers : ts.members (a + 5) (a + 6) = .ok [] := by
    have hno : ts.significant (a + 5) (a + 6) = a + 6 := by
      rw [Tokens.significant_succ (Tokens.isCode_of h5) (by omega), Tokens.significant, firstFrom,
        if_neg (Nat.lt_irrefl _)]
    have hcomments : ts.leading (a + 5) (a + 6) = a + 6 :=
      Tokens.leading_next (Tokens.isComment_of h5)
    rw [Tokens.members_nil (by omega), Tokens.closingComments, hcomments]
    simp
  have hclass : ts.classDecl a ⟨.plain, [], a⟩ stop = .ok (k.classNode a, a + 7) := by
    simp only [Tokens.classDecl, hname, hbrace, hparents, hclosing, hmembers, Tokens.text_of h2]
    rfl
  rw [Tokens.declaration, huse, if_neg Bool.false_ne_true, hstart]
  exact hclass

theorem isNamespace_class {ts : Tokens} {a : Nat} (h : ts[a]? = some ⟨.name, "class"⟩) (stop : Nat) :
    ts.isNamespace a stop = false :=
  Tokens.isNamespace_of h (by decide) stop

/-! The end of the file. -/

section

variable {ts : Tokens} {m stop : Nat}

theorem last_cases (style : Style) : Lexer.blank (lastText style) = [] ∨
    Lexer.blank (lastText style) = [⟨.whitespace, style.newline⟩] := by
  unfold lastText
  split
  · obtain ⟨c, t, ht, -⟩ := exists_newline style
    rw [ht]
    exact .inr rfl
  · exact .inl rfl

theorem trailing_last (h : ts[m]? = (Lexer.blank (lastText style))[0]?) (stop : Nat) :
    ts.trailing m stop = m := by
  have hbreak := contains_newline style
  rcases last_cases style with hlast | hlast <;> rw [hlast] at h
  · refine Tokens.trailing_none (fun hk => ?_) fun hk => ?_ <;> rw [Tokens.kind?, h] at hk <;> cases hk
  · refine Tokens.trailing_none (fun hk => ?_) fun _ hno => ?_
    · rw [Tokens.kind?_of h] at hk
      cases hk
    · rw [Tokens.text_of h, hbreak] at hno
      cases hno

theorem significant_last (h : ts[m]? = (Lexer.blank (lastText style))[0]?)
    (hs : stop = m + (Lexer.blank (lastText style)).length) : ts.significant m stop = stop := by
  have hend : ts.significant stop stop = stop := by
    rw [Tokens.significant, firstFrom, if_neg (Nat.lt_irrefl _)]
  rcases last_cases style with hlast | hlast <;> rw [hlast] at h hs <;> subst hs
  · exact hend
  · exact (Tokens.significant_succ (Tokens.isCode_of h) (Nat.lt_succ_self _)).trans hend

theorem withTrailing_class {a : Nat} (h : ts.trailing (a + 7) stop = a + 7) :
    ts.withTrailing stop (k.classNode a, a + 7) = (k.classNode a, a + 7) := by
  simp [Tokens.withTrailing, h, classNode, Node.ofSource]

/-- Tokens in which the class stands at `a`, with nothing behind it but the end of the file. -/
structure Holds (k : Skeleton) (style : Style) (ts : Tokens) (a : Nat) : Prop where
  gap : ts[1]? = some ⟨.whitespace, style.newline⟩
  cls : ∀ i, i < 7 → ts[a + i]? = (k.classTokens style)[i]?
  last : ts[a + 7]? = (Lexer.blank (lastText style))[0]?
  size : ts.size = a + 7 + (Lexer.blank (lastText style)).length

theorem Holds.significant_last {a : Nat} (h : k.Holds style ts a) :
    ¬ts.significant (a + 7) ts.size < ts.size := by
  rw [Skeleton.significant_last h.last h.size]
  exact Nat.lt_irrefl _

/-- A class alone. -/
theorem Holds.fileItems (h : k.Holds style ts 2) : ts.fileItems 1 ts.size = .ok [k.classNode 2] := by
  have hsize := h.size
  have hword : ts[2]? = some ⟨.name, "class"⟩ := h.cls 0 (by decide)
  have hfirst : ts.significant 1 ts.size = 2 :=
    Tokens.significant_next (Tokens.isCode_of h.gap) (Tokens.isCode_of hword) (by omega)
  have hstart : ts.leading 1 2 = 2 := Tokens.leading_next (Tokens.isComment_of h.gap)
  have hitem : ts.fileItem 2 2 ts.size = .ok (k.classNode 2, 9) := by
    rw [Tokens.fileItem, isNamespace_class hword, if_neg Bool.false_ne_true,
      declaration_class h.cls (by omega)]
    exact congrArg Except.ok (withTrailing_class (trailing_last h.last ts.size))
  have hend := Tokens.fileItems_nil h.significant_last
  refine Tokens.fileItems_cons (r := (k.classNode 2, 9)) (by omega) ?_ hend
  rw [hfirst, hstart, hitem]

/-- A namespace with the declarations behind its semicolon. -/
theorem fileItem_scope {next : Nat} {children : List Node}
    (hscope : ∀ i, i < 4 → ts[2 + i]? = k.scopeOpening[i]?) (hs : 6 ≤ stop)
    (h : ts.declarations false 6 stop = .ok (children, next)) : ts.fileItem 2 2 stop =
      .ok (.ofSource (.scope (some k.scope) false) ⟨2, next⟩ (some ⟨6, next⟩) children, next) := by
  have h2 : ts[2]? = some ⟨.name, "namespace"⟩ := hscope 0 (by decide)
  have h3 : ts[3]? = some ⟨.whitespace, " "⟩ := hscope 1 (by decide)
  have h4 : ts[4]? = some ⟨.name, k.scope⟩ := hscope 2 (by decide)
  have h5 : ts[5]? = some ⟨.punct, ";"⟩ := hscope 3 (by decide)
  have hname : ts.significant 3 stop = 4 :=
    Tokens.significant_next (Tokens.isCode_of h3) (Tokens.isCode_of h4) (by omega)
  have hsemi : ts.significant 5 stop = 5 := Tokens.significant_self (Tokens.isCode_of h5) (by omega)
  have hhead : ts.scopeHead 2 stop = (some k.scope, 5) := by
    simp only [Tokens.scopeHead, hname, hsemi, Tokens.isName_of h4, Tokens.text_of h4]
    rfl
  have hkeyword : ts.isKeyword 2 "namespace" = true := by
    rw [Tokens.isKeyword_of h2]
    decide
  have hnamespace : ts.isNamespace 2 stop = true := by
    rw [Tokens.isNamespace, hname, hkeyword, Tokens.isName_of h4,
      decide_eq_true (show 4 < stop by omega)]
    rfl
  rw [Tokens.fileItem, hnamespace, if_pos rfl, Tokens.namespaceDecl_statement (by rw [hhead]; rfl)
    (by rw [hhead]; exact Tokens.isPunct_of h5 _) (by rw [hhead]; exact h), hhead]

/-- A class in a namespace. -/
theorem Holds.fileItems_scope (h : k.Holds style ts 7)
    (hscope : ∀ i, i < 5 → ts[2 + i]? = (k.scopeOpening ++ [⟨.whitespace, style.newlines 2⟩])[i]?) :
    ts.fileItems 1 ts.size =
      .ok [.ofSource (.scope (some k.scope) false) ⟨2, 14⟩ (some ⟨6, 14⟩) [k.classNode 7]] := by
  have hsize := h.size
  have h2 : ts[2]? = some ⟨.name, "namespace"⟩ := hscope 0 (by decide)
  have h6 : ts[6]? = some ⟨.whitespace, style.newlines 2⟩ := hscope 4 (by decide)
  have hword : ts[7]? = some ⟨.name, "class"⟩ := h.cls 0 (by decide)
  have hfirst : ts.significant 1 ts.size = 2 :=
    Tokens.significant_next (Tokens.isCode_of h.gap) (Tokens.isCode_of h2) (by omega)
  have hnext : ts.significant 6 ts.size = 7 :=
    Tokens.significant_next (Tokens.isCode_of h6) (Tokens.isCode_of hword) (by omega)
  have hdeclarations : ts.declarations false 6 ts.size = .ok ([k.classNode 7], 14) := by
    have hcls := withTrailing_class (k := k) (trailing_last h.last ts.size)
    have hrest : ts.declarations false (ts.withTrailing ts.size (k.classNode 7, 14)).2 ts.size =
        .ok ([], 14) := by
      rw [hcls]
      exact Tokens.declarations_nil fun hlt => absurd hlt h.significant_last
    have hone := Tokens.declarations_cons (r := (k.classNode 7, 14)) (by omega)
      (hnext ▸ isNamespace_class hword ts.size) (by
        rw [hnext, Tokens.leading_next (Tokens.isComment_of h6), declaration_class h.cls (by omega)])
      hrest
    rwa [hcls] at hone
  have hitem := fileItem_scope (fun i hi => (hscope i (by omega)).trans (List.getElem?_append_left hi))
    (show 6 ≤ ts.size by omega) hdeclarations
  refine Tokens.fileItems_cons (r := (_, 14)) (by omega) ?_ (Tokens.fileItems_nil h.significant_last)
  rw [hfirst, Tokens.leading_next (Tokens.isComment_of h.gap), hitem]
  rfl

end

theorem tokens_plain (h : k.scope.isEmpty = true) : k.tokens style =
    [⟨.openTag, "<?php" ++ style.newline⟩, ⟨.whitespace, style.newline⟩] ++
      (k.classTokens style ++ Lexer.blank (lastText style)) := by
  rw [tokens, scopeTokens, if_pos h, List.nil_append]
  rfl

theorem tokens_scoped (h : k.scope.isEmpty = false) : k.tokens style =
    [⟨.openTag, "<?php" ++ style.newline⟩, ⟨.whitespace, style.newline⟩] ++
      (k.scopeOpening ++ [⟨.whitespace, style.newlines 2⟩]) ++
        (k.classTokens style ++ Lexer.blank (lastText style)) := by
  rw [tokens, scopeTokens, if_neg (by rw [h]; nofun)]
  simp only [List.append_assoc, List.cons_append, List.nil_append]

/-- Where the class stands. -/
def classAt (k : Skeleton) : Nat := if k.scope.isEmpty then 2 else 7

theorem holds_tokens (k : Skeleton) (style : Style) :
    k.Holds style (k.tokens style).toArray k.classAt := by
  cases hempty : k.scope.isEmpty with
  | true =>
    rw [classAt, if_pos hempty, tokens_plain hempty]
    refine ⟨rfl, fun i hi => ?_, Tokens.getElem?_append _ _ 7, ?_⟩
    · exact (Tokens.getElem?_append _ _ i).trans (List.getElem?_append_left hi)
    · simp only [List.size_toArray, List.length_append, List.length_cons, List.length_nil, classTokens,
        classOpening]
      omega
  | false =>
    rw [classAt, if_neg (by rw [hempty]; nofun), tokens_scoped hempty]
    refine ⟨rfl, fun i hi => ?_, Tokens.getElem?_append _ _ 7, ?_⟩
    · exact (Tokens.getElem?_append _ _ i).trans (List.getElem?_append_left hi)
    · simp only [List.size_toArray, List.length_append, List.length_cons, List.length_nil, classTokens,
        classOpening, scopeOpening]
      omega

theorem getElem?_scope (h : k.scope.isEmpty = false) (style : Style) : ∀ i, i < 5 →
    (k.tokens style).toArray[2 + i]? = (k.scopeOpening ++ [⟨.whitespace, style.newlines 2⟩])[i]? := by
  intro i hi
  rw [tokens_scoped h, List.append_assoc]
  exact (Tokens.getElem?_append _ _ i).trans (List.getElem?_append_left hi)

/-- The file has one entry. -/
theorem fileItems_tokens (k : Skeleton) (style : Style) : Tokens.fileItems (k.tokens style).toArray 1
    (k.tokens style).toArray.size = .ok [k.topNode] := by
  have hholds := k.holds_tokens style
  rw [classAt] at hholds
  cases hempty : k.scope.isEmpty with
  | true =>
    rw [if_pos hempty] at hholds
    rw [topNode, if_pos hempty, hholds.fileItems]
  | false =>
    rw [if_neg (by rw [hempty]; nofun)] at hholds
    rw [topNode, if_neg (by rw [hempty]; nofun),
      hholds.fileItems_scope (getElem?_scope hempty style)]

theorem isOutside_scopeTokens (k : Skeleton) (style : Style) :
    (k.scopeTokens style).all (!·.kind.isOutside) = true := by
  unfold scopeTokens
  split <;> rfl

theorem isOutside_tokens : ∀ t ∈ k.scopeTokens style ++ k.classTokens style ++
    Lexer.blank (lastText style), t.kind.isOutside = false := by
  have hscope := k.isOutside_scopeTokens style
  have hclass : (k.classTokens style).all (!·.kind.isOutside) = true := rfl
  have hlast : (Lexer.blank (lastText style)).all (!·.kind.isOutside) = true := by
    rcases last_cases style with h | h <;> rw [h] <;> rfl
  intro t ht
  have hall := List.all_append.trans (Bool.and_eq_true_iff.2
    ⟨List.all_append.trans (Bool.and_eq_true_iff.2 ⟨hscope, hclass⟩), hlast⟩)
  have hno := List.all_eq_true.1 hall t ht
  rwa [Bool.not_eq_true'] at hno

/-- The generated file is read as the source of the class. -/
theorem parse_tokens (h : k.Sound) : Source.parse (k.tree.print style) = .ok (k.source style) := by
  have hlex : lex (k.tree.print style) = .ok (k.tokens style) := by
    rw [print_tree]
    exact (reads_tokens h).run _
  have hspan : Tokens.codeSpan? (k.tokens style).toArray =
      some ⟨1, (k.tokens style).toArray.size⟩ :=
    Tokens.codeSpan?_cons rfl (List.forall_mem_cons.2 ⟨rfl, isOutside_tokens⟩)
  rw [Source.parse, hlex]
  simp only [Tokens.file, hspan, fileItems_tokens, source]

/-- The names in the form that the file has them. -/
def plain (k : Skeleton) : Skeleton := ⟨Name.normalize k.scope, k.name⟩

theorem generate_cases (h : k.generate style = .ok text) :
    k.plain.Sound ∧ text = k.plain.tree.print style := by
  unfold generate at h
  dsimp only at h
  split at h
  · cases h
  rename_i hscope
  split at h
  · cases h
  rename_i hname
  cases h
  refine ⟨⟨?_, ?_⟩, rfl⟩
  · cases hempty : k.plain.scope.isEmpty with
    | true => exact .inl rfl
    | false =>
      refine .inr ?_
      cases hq : Name.isQualified k.plain.scope with
      | true => rfl
      | false =>
        have he : (Name.normalize k.scope).isEmpty = false := hempty
        have hn : Name.isQualified (Name.normalize k.scope) = false := hq
        exact absurd (by rw [he, hn]; rfl) hscope
  · rwa [Bool.not_eq_true', Bool.not_eq_false] at hname

/-- The first line of a generated file ends as its style says. -/
theorem matching_tokens (other : Style) : other.matching (Token.spell (k.tokens style)) =
    { other with lineEnding := style.lineEnding } := by
  obtain ⟨indent, finalNewline, lineEnding⟩ := style
  rw [spell_tokens]
  cases lineEnding <;> rfl

/-- A generated file opens in an editor of any style, and new code ends its lines as the file does. -/
theorem parse_generate (h : k.generate style = .ok text) (other : Style) : Editor.parse text other =
    .ok ⟨k.plain.source style, (k.plain.source style).tree,
      { other with lineEnding := style.lineEnding }⟩ := by
  obtain ⟨hsound, rfl⟩ := generate_cases h
  rw [Editor.parse, parse_tokens hsound, print_tree, matching_tokens]

end Skeleton
end PhpGraft
