import PhpGraft.Proofs.Agreement
import PhpGraft.Proofs.Rereading

/-!
Imports of classes in a new file, each on a line of its own, and the class behind them. The text is
read line by line: an import is read alike wherever it stands.
-/
namespace PhpGraft

/-- The name that an import of `name` is read with: backslashes in front of it go. A keyword of the
other kinds of imports is not read as a name at all. -/
def Name.reread? (name : Text) : Option Text :=
  if name.lower = "function" ∨ name.lower = "const" then none
  else some (name.dropWhile (· == '\\'))

/-- What `use name;` is read as. -/
def Decl.ofImportOf (name : Text) : Decl :=
  match Name.reread? name with
  | some q => .imports (.ofClass q)
  | none => .verbatim ("use " ++ name ++ ";")

namespace Tokens

variable {ts : Tokens} {name : Text} {a stop : Nat}

/-- The tokens of `use name;`. -/
def importOf (name : Text) : List Token :=
  [⟨.name, "use"⟩, ⟨.whitespace, " "⟩, ⟨.name, name⟩, ⟨.punct, ";"⟩]

theorem spell_importOf (name : Text) : Token.spell (importOf name) = "use " ++ name ++ ";" := by
  simp [importOf, Token.spell]

theorem statementEndFrom_next {t : Token} {first i : Nat} {block : Bool}
    {stack : List (Bracket × Nat)} (h : ts[i]? = some t) (ht : t.delimiter? = none) (hi : i < stop) :
    ts.statementEndFrom first stop block stack i =
      ts.statementEndFrom first stop block stack (i + 1) := by
  conv_lhs => rw [statementEndFrom.eq_def, if_pos hi, delimiter?_of h, ht]

theorem statementEnd_import (h : ∀ i, i < 4 → ts[a + i]? = (importOf name)[i]?) (hs : a + 4 ≤ stop) :
    ts.statementEnd a stop false = .ok (a + 4) := by
  have h0 : ts[a]? = some ⟨.name, "use"⟩ := h 0 (by decide)
  have h1 : ts[a + 1]? = some ⟨.whitespace, " "⟩ := h 1 (by decide)
  have h2 : ts[a + 2]? = some ⟨.name, name⟩ := h 2 (by decide)
  have h3 : ts[a + 3]? = some ⟨.punct, ";"⟩ := h 3 (by decide)
  rw [statementEnd, statementEndFrom_next h0 rfl (by omega), statementEndFrom_next h1 rfl (by omega),
    statementEndFrom_next h2 rfl (by omega), statementEndFrom, if_pos (by omega), delimiter?_of h3]
  rfl

/-- One name up to the semicolon. -/
theorem importClauses?_one (h : ts[a]? = some ⟨.name, name⟩) (h' : ts[a + 1]? = some ⟨.punct, ";"⟩)
    (hs : a + 1 < stop) :
    ts.importClauses? a stop = some [⟨name.dropWhile (· == '\\'), none⟩] := by
  have hname : ts.isName a = true := isName_of h
  have halias : ts.importAlias? (ts.significant (a + 1) stop) stop = some (none, a + 1) := by
    rw [significant_self (isCode_of h') hs, importAlias?, isKeyword_of h']
    rfl
  rw [importClauses?, dif_pos ⟨by omega, hname⟩]
  split
  · rename_i he
    rw [halias] at he
    cases he
  · rename_i he
    rw [halias] at he
    cases he
    simp only [isPunct_of h', text_of h]
    rfl

theorem import?_one (h : ∀ i, i < 4 → ts[a + i]? = (importOf name)[i]?) :
    ts.import? a (a + 4) = (Name.reread? name).map .ofClass := by
  have h1 : ts[a + 1]? = some ⟨.whitespace, " "⟩ := h 1 (by decide)
  have h2 : ts[a + 2]? = some ⟨.name, name⟩ := h 2 (by decide)
  have h3 : ts[a + 3]? = some ⟨.punct, ";"⟩ := h 3 (by decide)
  have hfirst : ts.significant (a + 1) (a + 4) = a + 2 :=
    significant_next (isCode_of h1) (isCode_of h2) (by omega)
  have hnext : ts.significant (a + 3) (a + 4) = a + 3 := significant_self (isCode_of h3) (by omega)
  -- behind a keyword the name is missing
  have hnone : ts.importClauses? (a + 3) (a + 4) = none := by
    rw [importClauses?, dif_neg fun hc => by rw [isName_of h3] at hc; cases hc.2]
  have hone := importClauses?_one h2 h3 (show a + 3 < a + 4 by omega)
  have hword : ∀ word, ts.isKeyword (a + 2) word = (name.lower == word) := isKeyword_of h2
  simp only [import?, hfirst, hword, beq_iff_eq, Name.reread?]
  by_cases hf : name.lower = "function"
  · rw [if_pos hf, if_neg (by decide), hnext, hnone, if_pos (.inl hf)]
    rfl
  by_cases hc : name.lower = "const"
  · rw [if_neg hf, if_pos hc, if_neg (by decide), hnext, hnone, if_pos (.inr hc)]
    rfl
  rw [if_neg hf, if_neg hc, if_pos rfl, hone, if_neg (not_or.2 ⟨hf, hc⟩)]
  rfl

theorem declaration_import (h : ∀ i, i < 4 → ts[a + i]? = (importOf name)[i]?) (hs : a + 4 ≤ stop) :
    ts.declaration a a stop = .ok (.ofSource (.ofImportOf name) ⟨a, a + 4⟩ none [], a + 4) := by
  have h0 : ts[a]? = some ⟨.name, "use"⟩ := h 0 (by decide)
  have huse : ts.isKeyword a "use" = true := by
    rw [isKeyword_of h0]
    decide
  have hcode : ts.between a (a + 4) = Token.spell (importOf name) := between_of_get h rfl
  rw [spell_importOf] at hcode
  rw [declaration, if_pos huse, importDecl, statementEnd_import h hs]
  simp only [import?_one h, verbatim, statementEnd_import h hs, hcode, Decl.ofImportOf]
  cases Name.reread? name <;> rfl

/-- A declaration that starts with a word is read wherever its tokens stand. -/
theorem Phrase.of_declaration {p : Place} {t : Token} {code : List Token} {n : Node}
    {node : Nat → Node} (hp : p ≠ .members) (ht : t.kind = .name) (hno : t.text.lower ≠ "namespace")
    (hdecl : ∀ (ts : Tokens) a stop, (∀ i, i < (t :: code).length → ts[a + i]? = (t :: code)[i]?) →
      a + (t :: code).length ≤ stop →
        ts.declaration a a stop = .ok (node a, a + (t :: code).length))
    (hbare : ∀ a, (node a).bare = n.bare) : Phrase p (t :: code) n := by
  intro A B stop _ hs _
  have hget : ∀ i, i < (t :: code).length →
      (A ++ (t :: code ++ B)).toArray[A.length + i]? = (t :: code)[i]? :=
    fun i hi => (getElem?_append _ _ i).trans (List.getElem?_append_left hi)
  have hfirst : (A ++ (t :: code ++ B)).toArray[A.length]? = some t := hget 0 (Nat.zero_lt_succ _)
  have hcode : isCode (A ++ (t :: code ++ B)).toArray A.length = true := by
    rw [isCode_of hfirst, ht]
    rfl
  have hlt : A.length < A.length + (t :: code).length := Nat.lt_add_of_pos_right (Nat.zero_lt_succ _)
  refine ⟨A.length, (node A.length, _), significant_self hcode (Nat.lt_of_lt_of_le hlt hs), hlt,
    leading_self _, ?_, rfl, hbare _⟩
  rw [entry_of_declaration hp (isNamespace_of hfirst hno stop)]
  exact hdecl _ _ _ hget hs

end Tokens

open Tokens

variable {p : Place}

/-- The import as a node that was not read. -/
def Node.ofImportOf (name : Text) : Node := ⟨0, .synthesized, .ofImportOf name, []⟩

theorem Tokens.phrase_import (hp : p ≠ .members) (name : Text) :
    Phrase p (importOf name) (.ofImportOf name) :=
  Phrase.of_declaration hp rfl (by decide) (fun _ _ _ => declaration_import) fun _ => rfl

namespace Skeleton

variable (k : Skeleton) (style : Style) (names : List Text)

theorem phrase_class (hp : p ≠ .members) : Phrase p (k.classTokens style) (k.classNode 0) :=
  Phrase.of_declaration hp rfl (by decide) (fun _ _ _ => declaration_class) fun _ => rfl

/-! The lines of the file. -/

/-- Line breaks behind an import that these names come behind. -/
def breaks (names : List Text) : Nat := if names.isEmpty then 2 else 1

/-- The imports, and the class at the end of the file. -/
def chunks : List Text → List Chunk
  | [] => [⟨k.classTokens style, [], Lexer.blank (lastText style), k.classNode 0⟩]
  | name :: names =>
    ⟨importOf name, [], [⟨.whitespace, style.newlines (breaks names)⟩], .ofImportOf name⟩ ::
      chunks names

/-- The tokens of the file. -/
def tokensWith : List Token :=
  ⟨.openTag, "<?php" ++ style.newline⟩ :: ⟨.whitespace, style.newline⟩ ::
    (k.scopeTokens style ++ Chunk.all (k.chunks style names))

/-- What is read of the imports and of the class behind them. -/
def entriesWith : List Node := names.map Node.ofImportOf ++ [(k.classNode 0).bare]

/-- What is read of the file. -/
def rootWith : Node :=
  let entries := k.entriesWith names
  ⟨0, .synthesized, .file, if k.scope.isEmpty then entries else
    [⟨0, .synthesized, .scope (some k.scope) false, entries⟩]⟩

variable {k style names}

theorem bare_chunks : (k.chunks style names).map (·.node.bare) = k.entriesWith names := by
  induction names with
  | nil => rfl
  | cons name names ih => exact congrArg (_ :: ·) ih

/-- An import or the class comes first. -/
theorem head?_chunks (k : Skeleton) (style : Style) (names : List Text) :
    ∃ t ts, Chunk.all (k.chunks style names) = t :: ts ∧ t.kind = .name ∧
      (t.text = "use" ∨ t.text = "class") := by
  cases names with
  | nil => exact ⟨_, _, rfl, rfl, .inr rfl⟩
  | cons => exact ⟨_, _, rfl, rfl, .inl rfl⟩

theorem calm_chunks : Calm (Chunk.all (k.chunks style names) ++ []) := by
  obtain ⟨t, ts, he, hkind, htext⟩ := k.head?_chunks style names
  intro u hu _
  rw [List.append_nil, he, List.find?_cons, hkind] at hu
  cases hu
  rcases htext with htext | htext <;> rw [htext] <;> decide

/-- On a line behind which the next one starts there is no comment. -/
theorem clear_newline {w : Text} (hw : w.contains '\n' = true) (xs : List Token) :
    Clear (⟨.whitespace, w⟩ :: xs) := by
  rintro n (c | ⟨c, hno⟩) hn
  · cases (List.cons_prefix_cons.1 hn).1
  · cases (List.cons_prefix_cons.1 hn).1
    rw [hw] at hno
    cases hno

theorem clear_nil : Clear [] := by
  rintro n (c | ⟨c, -⟩) hn <;> cases List.prefix_nil.1 hn

theorem contains_newlines (n : Nat) : (style.newlines (n + 1)).contains '\n' = true := by
  have h := contains_newline style
  simp only [newlines_succ, List.contains_iff_mem, List.mem_append] at h ⊢
  exact .inl h

theorem exists_breaks (names : List Text) : ∃ n, breaks names = n + 1 := by
  cases names with
  | nil => exact ⟨1, rfl⟩
  | cons => exact ⟨0, rfl⟩

/-- Each line is read by itself. -/
theorem fit_chunks (hp : p ≠ .members) : Chunk.Fit p [] (k.chunks style names) := by
  induction names with
  | nil =>
    refine ⟨⟨k.phrase_class style hp, .inl ⟨rfl, fun _ => ?_⟩, Lexer.kind_blank _, nofun⟩, trivial⟩
    change Clear (Lexer.blank (lastText style) ++ [])
    rcases last_cases style with hlast | hlast <;> rw [hlast]
    · exact clear_nil
    · exact clear_newline (contains_newline style) _
  | cons name names ih =>
    obtain ⟨n, hn⟩ := exists_breaks names
    refine ⟨⟨phrase_import hp name, .inl ⟨rfl, fun _ => ?_⟩, List.forall_mem_singleton.2 rfl,
      calm_chunks⟩, ih⟩
    refine clear_newline ?_ _
    rw [hn]
    exact contains_newlines n

/-! The text of the file. -/

theorem spell_chunks_cons (name : Text) (names : List Text) :
    Token.spell (Chunk.all (k.chunks style (name :: names))) = Token.spell (importOf name) ++
      (style.newlines (breaks names) ++ Token.spell (Chunk.all (k.chunks style names))) := by
  simp [chunks, Chunk.all, Chunk.tokens, Token.spell]

theorem spell_chunks_nil : Token.spell (Chunk.all (k.chunks style [])) =
    Token.spell (k.classTokens style) ++ lastText style := by
  have hlast := Lexer.spell_blank (lastText style)
  simp only [Token.spell] at hlast
  simp [chunks, Chunk.all, Chunk.tokens, Token.spell, hlast]

theorem head?_spell_chunks :
    (Token.spell (Chunk.all (k.chunks style names))).head?.any isSpace = false := by
  obtain ⟨t, ts, he, -, htext⟩ := k.head?_chunks style names
  rw [he, Token.spell, List.flatMap_cons]
  rcases htext with htext | htext <;> rw [htext] <;> rfl

theorem reads_chunks (hname : Name.isIdentifier k.name = true)
    (hnames : ∀ name ∈ names, Name.isQualified name = true) :
    Lexer.Reads .code (Chunk.all (k.chunks style names))
      (Token.spell (Chunk.all (k.chunks style names))) := by
  induction names with
  | nil =>
    have hclass : Lexer.Reads .code (k.classTokens style ++ Lexer.blank (lastText style)) _ :=
      reads_class hname reads_last
    rw [spell_chunks_nil]
    simpa [chunks, Chunk.all, Chunk.tokens] using hclass
  | cons name names ih =>
    obtain ⟨hq, hqs⟩ := List.forall_mem_cons.1 hnames
    obtain ⟨n, hn⟩ := exists_breaks names
    have hlines : Lexer.Reads .code (⟨.whitespace, style.newlines (n + 1)⟩ :: _) _ :=
      reads_newlines n head?_spell_chunks (ih hqs)
    have hspell : Token.spell (Chunk.all (k.chunks style (name :: names))) =
        "use" ++ (" " ++ (name ++ ';' :: ([] ++ (style.newlines (n + 1) ++
          Token.spell (Chunk.all (k.chunks style names)))))) := by
      rw [spell_chunks_cons, hn]
      simp [importOf, Token.spell]
    rw [hspell]
    change Lexer.Reads .code (⟨.name, "use"⟩ :: ⟨.whitespace, " "⟩ :: ⟨.name, name⟩ ::
      ⟨.punct, ";"⟩ :: ⟨.whitespace, style.newlines (breaks names)⟩ ::
        Chunk.all (k.chunks style names)) _
    rw [hn]
    refine reads_word (by decide) hq ?_ (.cons (Lexer.scanCode_barrier rfl _) hlines)
    rintro c hc
    cases hc
    rfl

theorem spell_tokensWith : Token.spell (k.tokensWith style names) = "<?php" ++ style.newline ++
    (style.newline ++ (Token.spell (k.scopeTokens style) ++
      Token.spell (Chunk.all (k.chunks style names)))) := by
  simp only [tokensWith, Token.spell, List.flatMap_cons, List.flatMap_append, List.append_assoc]

theorem reads_tokensWith (h : k.Sound) (hnames : ∀ name ∈ names, Name.isQualified name = true) :
    Lexer.Reads .html (k.tokensWith style names) (Token.spell (k.tokensWith style names)) := by
  rw [spell_tokensWith]
  exact reads_file (head?_scopeTokens head?_spell_chunks)
    (reads_scope h.scope head?_spell_chunks (reads_chunks h.name hnames))

/-! The file is read. -/

/-- The imports and the class are all that is read behind white space. -/
theorem items_chunks (hp : p ≠ .members) {A g : List Token} {ts : Tokens}
    (hts : ts = (A ++ (g ++ Chunk.all (k.chunks style names))).toArray)
    (hg : ∀ t ∈ g, t.kind = .whitespace) :
    ∃ ns last, ts.Items p ts.size A.length ns last ∧ ts.Plain last ts.size ∧ last ≤ ts.size ∧
      ns.map Node.bare = k.entriesWith names := by
  have hsize : ts.size = A.length + g.length + (Chunk.all (k.chunks style names)).length := by
    rw [hts, List.size_toArray, List.length_append, List.length_append, Nat.add_assoc]
  obtain ⟨ns, last, hitems, hbare, hlast, hwhite, -⟩ := items_of_chunks (fit_chunks hp) A hg
    (Nat.le_of_eq hsize.symm) (Nat.le_of_eq hsize)
  rw [List.append_nil, ← hts] at hitems hwhite
  rw [← hsize] at hlast hwhite
  exact ⟨ns, last, hitems, plain_of_white hwhite, hlast, hbare.trans bare_chunks⟩

theorem codeSpan?_tokensWith : Tokens.codeSpan? (k.tokensWith style names).toArray =
    some ⟨1, (k.tokensWith style names).toArray.size⟩ := by
  have hchunks : (Chunk.all (k.chunks style names)).all (!·.kind.isOutside) = true := by
    induction names with
    | nil =>
      change ((k.classTokens style ++ ([] ++ Lexer.blank (lastText style))) ++ []).all _ = true
      rcases last_cases style with hlast | hlast <;> rw [hlast] <;> rfl
    | cons name names ih => exact ih
  refine Tokens.codeSpan?_cons rfl (List.forall_mem_cons.2 ⟨rfl, fun t ht => ?_⟩)
  have hall := List.all_append.trans
    (Bool.and_eq_true_iff.2 ⟨k.isOutside_scopeTokens style, hchunks⟩)
  simpa using List.all_eq_true.1 hall t ht

/-- The file of a class outside of namespaces. -/
theorem file_plain (h : k.scope.isEmpty = true) : ∃ root,
    Tokens.file (k.tokensWith style names).toArray = .ok root ∧ root.bare = k.rootWith names := by
  have htokens : k.tokensWith style names = [⟨.openTag, "<?php" ++ style.newline⟩] ++
      ([⟨.whitespace, style.newline⟩] ++ Chunk.all (k.chunks style names)) := by
    rw [tokensWith, scopeTokens, if_pos h]
    rfl
  obtain ⟨ns, last, hitems, hplain, hlast, hbare⟩ := items_chunks (p := .file) (by decide)
    (congrArg List.toArray htokens) (List.forall_mem_singleton.2 rfl)
  refine ⟨_, file_of_entries codeSpan?_tokensWith ⟨last, hitems, halts_of_plain hlast hplain _⟩, ?_⟩
  rw [Node.ofSource, Node.bare, Node.bareList_eq, hbare, rootWith]
  simp only [h, if_true]

/-- The one entry of the file of a class in a namespace. -/
theorem fileItems_scoped {ts : Tokens} (h : k.scope.isEmpty = false)
    (hts : ts = (k.tokensWith style names).toArray) : ∃ n, ts.fileItems 1 ts.size = .ok [n] ∧
      n.bare = ⟨0, .synthesized, .scope (some k.scope) false, k.entriesWith names⟩ := by
  let opening : List Token := [⟨.openTag, "<?php" ++ style.newline⟩, ⟨.whitespace, style.newline⟩]
  have htokens : k.tokensWith style names = (opening ++ k.scopeOpening) ++
      ([⟨.whitespace, style.newlines 2⟩] ++ Chunk.all (k.chunks style names)) := by
    rw [tokensWith, scopeTokens, if_neg (Bool.eq_false_iff.1 h)]
    simp only [opening, List.append_assoc, List.cons_append, List.nil_append]
  rw [htokens] at hts
  have hget : ∀ i, i < 6 → ts[i]? = (opening ++ k.scopeOpening)[i]? := by
    intro i hi
    rw [hts, List.getElem?_toArray]
    exact List.getElem?_append_left hi
  have h1 : ts[1]? = some ⟨.whitespace, style.newline⟩ := hget 1 (by decide)
  have h2 : ts[2]? = some ⟨.name, "namespace"⟩ := hget 2 (by decide)
  have hsize : 6 ≤ ts.size := by
    rw [hts, List.size_toArray, List.length_append]
    exact Nat.le_add_right 6 _
  obtain ⟨ns, last, hitems, hplain, hlast, hbare⟩ :=
    items_chunks (p := .scope false) (by decide) hts (List.forall_mem_singleton.2 rfl)
  have hfirst : ts.significant 1 ts.size = 2 :=
    significant_next (isCode_of h1) (isCode_of h2) (by omega)
  have hscope : ∀ i, i < 4 → ts[2 + i]? = k.scopeOpening[i]? := by
    intro i hi
    rw [hget (2 + i) (by omega), List.getElem?_append_right (Nat.le_add_right 2 i)]
    exact congrArg (k.scopeOpening[·]?) (Nat.add_sub_cancel_left 2 i)
  have hitem := fileItem_scope hscope hsize
    (declarations_of_items hitems (halts_of_plain hlast hplain _))
  have hend : ts.fileItems last ts.size = .ok [] :=
    fileItems_of_items .nil (halts_of_plain hlast hplain _)
  let scope : Node := .ofSource (.scope (some k.scope) false) ⟨2, last⟩ (some ⟨6, last⟩) ns
  refine ⟨scope, fileItems_cons (r := (scope, last)) (by omega) ?_ hend, ?_⟩
  · rw [hfirst, leading_next (isComment_of h1)]
    exact hitem
  · rw [← hbare, ← Node.bareList_eq]
    rfl

/-- The imports and the class are read again from the file. -/
theorem file_tokensWith (k : Skeleton) (style : Style) (names : List Text) : ∃ root,
    Tokens.file (k.tokensWith style names).toArray = .ok root ∧ root.bare = k.rootWith names := by
  cases h : k.scope.isEmpty with
  | true => exact file_plain h
  | false =>
    have hts : (k.tokensWith style names).toArray = (k.tokensWith style names).toArray := rfl
    obtain ⟨n, hitems, hbare⟩ := fileItems_scoped h hts
    refine ⟨.ofSource .file _ _ [n], by simp only [file, codeSpan?_tokensWith, hitems]; rfl, ?_⟩
    rw [Node.ofSource, Node.bare, Node.bareList, hbare, rootWith, h]
    rfl

theorem parse_tokensWith (style : Style) (h : k.Sound)
    (hnames : ∀ name ∈ names, Name.isQualified name = true) :
    ∃ s, Source.parse (Token.spell (k.tokensWith style names)) = .ok s ∧
      s.tree.root.bare = k.rootWith names := by
  obtain ⟨root, hfile, hbare⟩ := k.file_tokensWith style names
  exact ⟨_, Source.parse_of_reads (reads_tokensWith h hnames) hfile,
    (Node.bare_number 0 root).trans hbare⟩

end Skeleton
end PhpGraft
