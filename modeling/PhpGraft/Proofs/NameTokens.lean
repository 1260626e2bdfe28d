import PhpGraft.Proofs.Brackets
import PhpGraft.Proofs.Excerpt
import PhpGraft.Proofs.Mention

/-!
Names and the lexer. A text is a qualified name if and only if code reads it as a single name token, so
names that were checked are tokens where they are printed, and names that are read pass the check.
-/
namespace PhpGraft

namespace Lexer

variable {m : Mode} {c : Char} {t u r p : Text} {ps : List Text} {ts : List Token} {x : Token}

/-- The piece in front of the first backslash is an identifier, if the text starts like one. -/
theorem isIdentifier_piece (h : Text.splitOn '\\' t = p :: ps) (hstart : startsName t = true)
    (hp : p.all isNameChar = true) : Name.isIdentifier p = true := by
  cases t with
  | nil => cases hstart
  | cons c t =>
    have hc : isNameStart c = true := hstart
    have hne : c ≠ '\\' := by
      rintro rfl
      cases hc
    rw [Text.splitOn, if_neg hne] at h
    cases ht : Text.splitOn '\\' t with
    | nil => exact absurd ht (Text.splitOn_ne_nil _ _)
    | cons q qs =>
      rw [ht] at h
      cases h
      simp_all [Name.isIdentifier]

/-- The rest of a name that takes the whole text has identifiers behind its backslashes. -/
theorem parts_of_nameSize (h : nameSize u = u.length) : ∃ p ps, Text.splitOn '\\' u = p :: ps ∧
    p.all isNameChar = true ∧ ∀ q ∈ ps, Name.isIdentifier q = true := by
  induction u with
  | nil => exact ⟨[], [], rfl, rfl, nofun⟩
  | cons c u ih =>
    rw [nameSize] at h
    split at h
    · rename_i hc
      obtain ⟨p, ps, hu, hp, hps⟩ := ih (Nat.succ.inj h)
      by_cases hsep : c = '\\'
      · subst hsep
        have hstart : startsName u = true := by simpa [isNameChar, isNameStart] using hc
        refine ⟨[], p :: ps, by rw [Text.splitOn, if_pos rfl, hu], rfl, ?_⟩
        exact List.forall_mem_cons.2 ⟨isIdentifier_piece hu hstart hp, hps⟩
      · have hchar : isNameChar c = true := by simpa [hsep] using hc
        refine ⟨c :: p, ps, by rw [Text.splitOn, if_neg hsep, hu], ?_, hps⟩
        simp [hchar, hp]
    · cases h

theorem Rule.name_size {n : Nat} (h : Rule c t .name n) :
    (isNameStart c ∨ (c = '\\' ∧ startsName t)) ∧ nameSize t = n := by
  generalize hk : TokenKind.name = k at h
  cases h with
  | name hc => exact ⟨hc, rfl⟩
  | comment => split at hk <;> cases hk
  | _ => cases hk

/-- Whatever stands behind it, a text that is read as a name is a qualified name. -/
theorem Rule.isQualified (h : Rule c (u ++ r) .name u.length) :
    Name.isQualified (c :: u) = true := by
  have hcut : Rule c (u ++ []) .name u.length :=
    Rule.excerpt (w := []) (r := r) h nofun nofun
  rw [List.append_nil] at hcut
  obtain ⟨hc, hsize⟩ := hcut.name_size
  obtain ⟨p, ps, hu, hp, hps⟩ := parts_of_nameSize hsize
  have hall : ps.all Name.isIdentifier = true := List.all_eq_true.2 hps
  rcases hc with hc | ⟨rfl, hstart⟩
  · have hne : c ≠ '\\' := by
      rintro rfl
      cases hc
    have hroot : Name.withoutRoot (c :: u) = c :: u := by
      simp [Name.withoutRoot, Text.dropPrefix?, hne.symm]
    have hsplit : Text.splitOn '\\' (c :: u) = (c :: p) :: ps := by
      rw [Text.splitOn, if_neg hne, hu]
    rw [Name.isQualified, hroot, hsplit]
    simp [Name.isIdentifier, hc, hp, hall]
  · have hroot : Name.withoutRoot ('\\' :: u) = u := by
      simp [Name.withoutRoot, Text.dropPrefix?]
    rw [Name.isQualified, hroot, hu]
    simp [isIdentifier_piece hu hstart hp, hall]

/-- A name token is a qualified name, in whatever text it stands. -/
theorem Reads.isQualified (h : Reads m ts t) (hx : x ∈ ts) (hk : x.kind = .name) :
    Name.isQualified x.text = true := by
  obtain ⟨i, hi⟩ := List.mem_iff_getElem?.1 hx
  obtain ⟨m', c, u, htext, hscan⟩ := h.get hi
  rw [hk] at hscan
  cases m' with
  | html =>
    simp only [scan, scanHtml, Except.ok.injEq] at hscan
    split at hscan <;> cases hscan
  | code =>
    rw [htext]
    exact (rule_of_scanCode hscan).isQualified

/-- Checking a qualified name is lexing it. -/
theorem isQualified_iff (t : Text) : Name.isQualified t = true ↔
    ∃ x, lexCode t = .ok [x] ∧ x.kind = .name := by
  constructor
  · intro ht
    have hread : Reads .code [⟨.name, t⟩] (t ++ []) := .name ht nofun .nil
    rw [List.append_nil] at hread
    exact ⟨_, hread.run _, rfl⟩
  · rintro ⟨x, hlex, hk⟩
    have hread := reads_of_run hlex
    have hspell := hread.spell
    rw [spell_singleton] at hspell
    rw [← hspell]
    exact hread.isQualified List.mem_cons_self hk

end Lexer

/-- An identifier is a qualified name without a backslash. -/
theorem Name.isIdentifier_iff (t : Text) :
    isIdentifier t = true ↔ isQualified t = true ∧ '\\' ∉ t := by
  constructor
  · intro h
    exact ⟨isQualified_of_isIdentifier h, not_mem_of_isIdentifier h⟩
  · rintro ⟨h, hno⟩
    rwa [isQualified_of_not_mem hno] at h

/-! The names of a file. -/

/-- The names that a declaration gives or imports. -/
def Decl.names : Decl → List Text
  | .scope name? _ => name?.toList
  | .imports i => i.clauses.map ImportClause.name
  | .classLike head => [head.name]
  | .method d => [d.name]
  | .file | .verbatim _ => []

theorem Node.mem_names_of_binding {n : Node} {b : ImportKind × Text} (h : b ∈ n.importBindings) :
    b.2 ∈ n.decl.names := by
  unfold importBindings at h
  cases hd : n.decl with
  | imports i =>
    rw [hd] at h
    obtain ⟨c, hc, rfl⟩ := List.mem_map.1 h
    exact List.mem_map_of_mem hc
  | _ =>
    rw [hd] at h
    cases h

namespace Tokens

variable {ts : Tokens} {start first i stop last : Nat} {r : Node × Nat} {p : Place} {n : Node}
  {ns : List Node}

/-- The names of a node are name tokens; an import leaves out a backslash in front. -/
def Names (ts : Tokens) (n : Node) : Prop := ∀ w ∈ n.decl.names, ∃ k, ts.isName k = true ∧
  (w = ts.text k ∨ w = (ts.text k).dropWhile (· == '\\'))

theorem names_subnodes (hn : ts.Names n) (hc : ∀ m ∈ Node.subnodesList n.children, ts.Names m) :
    ∀ m ∈ n.subnodes, ts.Names m := by
  rw [Node.subnodes_eq]
  exact List.forall_mem_cons.2 ⟨hn, hc⟩

theorem names_finish (h : ∀ n ∈ r.1.subnodes, ts.Names n) (stop : Nat) :
    ∀ n ∈ (ts.finish stop r).1.subnodes, ts.Names n := by
  rw [Node.subnodes_eq] at h
  obtain ⟨hr, hc⟩ := List.forall_mem_cons.1 h
  apply names_subnodes
  · intro w hw
    rw [decl_finish] at hw
    exact hr w hw
  · rwa [children_finish]

theorem Items.names (h : ts.Items p stop i ns last)
    (hentry : ∀ {start first r}, ts.entry p start first stop = .ok r →
      ∀ n ∈ r.1.subnodes, ts.Names n) : ∀ n ∈ Node.subnodesList ns, ts.Names n := by
  induction h with
  | nil =>
    intro n hn
    cases hn
  | cons hs he _ ih =>
    intro n hn
    rw [Node.subnodesList] at hn
    rcases List.mem_append.1 hn with hn | hn
    · exact names_finish (hentry he) stop n hn
    · exact ih n hn

theorem names_verbatim {block : Bool} (h : ts.verbatim start first stop block = .ok r) :
    ∀ n ∈ r.1.subnodes, ts.Names n := by
  unfold verbatim at h
  split at h
  · cases h
  · cases h
    apply names_subnodes
    · intro w hw
      cases hw
    · intro n hn
      cases hn

theorem name_of_importClauses {cs : List ImportClause} (h : ts.importClauses? i stop = some cs) :
    ∀ c ∈ cs, ∃ k, i ≤ k ∧ k < stop ∧ ts.isName k = true ∧ c.name = (ts.text k).dropWhile (· == '\\') := by
  fun_induction importClauses? ts i stop generalizing cs with
  | case1 => cases h
  | case2 i hi alias? j halias =>
    rename_i ih
    obtain ⟨rest, hrest, rfl⟩ := Option.map_eq_some_iff.1 h
    have hj := (le_of_importAlias? halias (firstFrom_le ..)).1
    have hnext := min_le_firstFrom ts.isCode (j + 1) stop
    have hsig := min_le_firstFrom ts.isCode (i + 1) stop
    intro c hc
    rcases List.mem_cons.1 hc with rfl | hc
    · exact ⟨i, Nat.le_refl i, hi.1, hi.2, rfl⟩
    · obtain ⟨k, hk, hks, hname⟩ := ih hrest c hc
      refine ⟨k, ?_, hks, hname⟩
      simp only [significant] at hj hk
      omega
  | case3 i hi =>
    cases h
    intro c hc
    rw [List.mem_singleton.1 hc]
    exact ⟨i, Nat.le_refl i, hi.1, hi.2, rfl⟩
  | case4 => cases h
  | case5 => cases h

theorem exists_importClauses {d : Import} (h : ts.import? first stop = some d) :
    ∃ i, min first stop ≤ i ∧ ts.importClauses? i stop = some d.clauses := by
  obtain ⟨cs, hcs, rfl⟩ := Option.map_eq_some_iff.1 h
  have hsig := min_le_firstFrom ts.isCode (first + 1) stop
  have hsig' := min_le_firstFrom ts.isCode (ts.significant (first + 1) stop + 1) stop
  unfold significant at hsig'
  refine ⟨_, iteInduction (motive := fun i => min first stop ≤ i) (fun _ => ?_) fun _ => ?_, hcs⟩
  · unfold significant
    omega
  · unfold significant
    omega

/-- The names that an import gives stand behind its keyword, perhaps with a backslash in front. -/
theorem name_of_importDecl (h : ts.importDecl start first stop = .ok r) :
    ∀ w ∈ r.1.decl.names, ∃ k, first ≤ k ∧ k < r.2 ∧ ts.isName k = true ∧
      w = (ts.text k).dropWhile (· == '\\') := by
  unfold importDecl at h
  split at h
  · cases h
  split at h
  · rename_i d hd
    cases h
    obtain ⟨i, hi, hclauses⟩ := exists_importClauses hd
    intro w hw
    obtain ⟨c, hc, rfl⟩ := List.mem_map.1 hw
    obtain ⟨k, hk, hks, hname⟩ := name_of_importClauses hclauses c hc
    exact ⟨k, by omega, hks, hname⟩
  · unfold verbatim at h
    split at h <;> cases h
    intro w hw
    cases hw

theorem names_importDecl (h : ts.importDecl start first stop = .ok r) :
    ∀ n ∈ r.1.subnodes, ts.Names n := by
  have hnames : ts.Names r.1 := fun w hw => by
    obtain ⟨k, -, -, hk, he⟩ := name_of_importDecl h w hw
    exact ⟨k, hk, .inr he⟩
  unfold importDecl at h
  split at h
  · cases h
  · split at h
    · cases h
      refine names_subnodes hnames ?_
      rintro n ⟨⟩
    · exact names_verbatim h

theorem names_method {function : Nat} {words : List Text}
    (h : ts.method start first function words stop = .ok r) : ∀ n ∈ r.1.subnodes, ts.Names n := by
  unfold method at h
  dsimp only at h
  split at h
  · cases h
  rename_i hname
  split at h
  · cases h
  split at h
  · cases h
  split at h
  · cases h
  cases h
  apply names_subnodes
  · intro w hw
    exact ⟨_, by simpa using hname, .inl (List.mem_singleton.1 hw)⟩
  · intro n hn
    cases hn

theorem names_members (h : ts.members i stop = .ok ns) :
    ∀ n ∈ Node.subnodesList ns, ts.Names n := by
  obtain ⟨ms, last, rfl, hitems, -⟩ := items_of_members h
  have hmembers : ∀ n ∈ Node.subnodesList ms, ts.Names n := by
    refine hitems.names fun {start first r} he => ?_
    simp only [entry, member] at he
    split at he
    · cases he
    · split at he
      · exact names_method he
      · exact names_verbatim he
  have hcomments : ∀ n ∈ Node.subnodesList (ts.closingComments last stop), ts.Names n := by
    unfold closingComments
    dsimp only
    split
    · intro n hn
      cases hn
    · intro n hn w hw
      rw [List.mem_singleton.1 hn] at hw
      cases hw
  intro n hn
  rw [Node.subnodesList_append] at hn
  exact (List.mem_append.1 hn).elim (hmembers n) (hcomments n)

theorem isName_of_classStart {c : ClassStart} (h : ts.classStart? first stop = some c) :
    ts.isName (ts.significant (c.keyword + 1) stop) = true := by
  unfold classStart? at h
  split at h
  · cases h
  · dsimp only at h
    split at h
    · rename_i hnames
      obtain ⟨kind, -, rfl⟩ := Option.map_eq_some_iff.1 h
      exact (Bool.and_eq_true_iff.1 hnames).2
    · cases h

theorem names_declaration (h : ts.declaration start first stop = .ok r) :
    ∀ n ∈ r.1.subnodes, ts.Names n := by
  unfold declaration at h
  split at h
  · exact names_importDecl h
  split at h
  · rename_i c hc
    unfold classDecl at h
    dsimp only at h
    split at h
    · cases h
    split at h
    · cases h
    split at h
    · cases h
    rename_i hmembers
    cases h
    refine names_subnodes (fun w hw => ?_) (names_members hmembers)
    exact ⟨_, isName_of_classStart hc, .inl (List.mem_singleton.1 hw)⟩
  split at h
  · cases h
  · exact names_verbatim h

theorem names_declarations {braced : Bool} (h : ts.declarations braced i stop = .ok (ns, last)) :
    ∀ n ∈ Node.subnodesList ns, ts.Names n := by
  refine (items_of_declarations h).1.names fun {start first r} he => ?_
  simp only [entry] at he
  split at he
  · cases he
  · exact names_declaration he

theorem names_namespaceDecl {keyword : Nat} (h : ts.namespaceDecl start keyword stop = .ok r) :
    ∀ n ∈ r.1.subnodes, ts.Names n := by
  have hname : ∀ {k braced span body? children},
      ts.Names (.ofSource (.scope (if ts.isName k then some (ts.text k) else none) braced) span body?
        children) := by
    intro k braced span body? children w hw
    by_cases hk : ts.isName k = true
    · simp only [Node.ofSource, Decl.names, hk, if_pos, Option.toList_some, List.mem_singleton] at hw
      exact ⟨k, hk, .inl hw⟩
    · simp [Node.ofSource, Decl.names, hk] at hw
  unfold namespaceDecl at h
  extract_lets i name? j at h
  split at h
  · split at h
    · cases h
    · rename_i hd
      cases h
      exact names_subnodes hname (names_declarations hd)
  split at h
  · cases h
  split at h
  · cases h
  split at h
  · cases h
  · rename_i hd
    cases h
    exact names_subnodes hname (names_declarations hd)

theorem names_file {root : Node} (h : ts.file = .ok root) : ∀ n ∈ root.subnodes, ts.Names n := by
  unfold file at h
  split at h
  · cases h
  split at h
  · cases h
  rename_i hc
  cases h
  obtain ⟨last, hitems, -⟩ := items_of_fileItems hc
  apply names_subnodes
  · intro w hw
    cases hw
  · apply hitems.names
    intro start first r he
    simp only [entry] at he
    split at he
    · exact names_namespaceDecl he
    · exact names_declaration he

end Tokens

namespace Name

variable {t : Text}

/-- Of a qualified name at most one backslash stands in front. -/
theorem dropWhile_root (h : isQualified t = true) :
    t.dropWhile (· == '\\') = t ∨ t = '\\' :: t.dropWhile (· == '\\') := by
  obtain ⟨c, u, -, -, hc, -, -, -, rfl | rfl⟩ := Lexer.isQualified_cases h
  all_goals
    have hne : c ≠ '\\' := by
      rintro rfl
      cases hc
  · exact .inl (by simp [hne])
  · exact .inr (by simp [hne])

theorem isQualified_root (t : Text) (h : isQualified ('\\' :: t) = true) :
    isQualified t = true := by
  obtain ⟨c, u, -, -, hc, -, -, -, ht | ht⟩ := Lexer.isQualified_cases h
  · cases ht
    cases hc
  · cases ht
    have hne : c ≠ '\\' := by
      rintro rfl
      cases hc
    have hroot : withoutRoot (c :: u) = c :: u := by
      simp [withoutRoot, Text.dropPrefix?, hne.symm]
    have hrooted : withoutRoot ('\\' :: c :: u) = c :: u := by
      simp [withoutRoot, Text.dropPrefix?]
    rw [isQualified, hrooted] at h
    rwa [isQualified, hroot]

end Name

/-- A text is a name token of the file, or it is one without the backslash in front. -/
def Tokens.Spells (ts : Tokens) (w : Text) : Prop :=
  ∃ k, ts.isName k = true ∧ (ts.text k = w ∨ ts.text k = '\\' :: w)

namespace Source

variable {s : Source} {text w : Text} {k : Nat} {n : Node}

theorem isQualified_token (h : parse text = .ok s) (hk : s.tokens.isName k = true) :
    Name.isQualified (s.tokens.text k) = true := by
  obtain ⟨_, -, -, hreads⟩ := parse_eq h
  cases hx : s.tokens[k]? with
  | none => simp [Tokens.isName, Tokens.kind?, hx] at hk
  | some x =>
    rw [Tokens.isName_of hx] at hk
    rw [Tokens.text_of hx]
    refine hreads.isQualified (List.mem_iff_getElem?.2 ⟨k, ?_⟩) (eq_of_beq hk)
    rwa [Array.getElem?_toList]

/-- Names that are read are tokens of the file. -/
theorem spells_name (h : parse text = .ok s) (hn : n ∈ s.tree.root.subnodes)
    (hw : w ∈ n.decl.names) : s.tokens.Spells w := by
  obtain ⟨root, hroot, htree, -⟩ := parse_eq h
  rw [htree] at hn
  obtain ⟨m, hm, hdecl, -⟩ := Node.mem_subnodes_number 0 root hn
  rw [hdecl] at hw
  obtain ⟨k, hk, rfl | rfl⟩ := Tokens.names_file hroot m hm w hw
  · exact ⟨k, hk, .inl rfl⟩
  · exact ⟨k, hk, (Name.dropWhile_root (isQualified_token h hk)).imp_left Eq.symm⟩

theorem isQualified_of_spells (h : parse text = .ok s) (hw : s.tokens.Spells w) :
    Name.isQualified w = true := by
  obtain ⟨k, hk, rfl | he⟩ := hw
  · exact isQualified_token h hk
  · exact Name.isQualified_root w (he ▸ isQualified_token h hk)

end Source

end PhpGraft
