import PhpGraft.Proofs.CloseTag
import PhpGraft.Proofs.GatheredReading
import PhpGraft.Proofs.LookAhead
import PhpGraft.Proofs.NameTokens

/-!
What stands in front of the class once imports were gathered. Each declaration ends in a semicolon or a brace
and is read as it was, whatever becomes of the text behind it; so the text begins with the tokens that were
printed, up to the first declaration that a close tag ends.
-/
namespace PhpGraft

namespace Lexer

variable {m : Mode} {z : Char} {xs zs : List Token} {t : Text}

theorem Reads.mode_punct (h : Reads m (xs ++ ⟨.punct, [z]⟩ :: zs) t) : m.afterAll xs = .code := by
  have hrest := h.of_append
  cases hm : m.afterAll xs with
  | code => rfl
  | html =>
    rw [hm] at hrest
    cases isOutside_html hrest

/-- Up to a barrier the tokens are the same whatever stands behind it. -/
theorem run_barrier (hz : isBarrier z = true) (h : Reads m (xs ++ ⟨.punct, [z]⟩ :: zs) t) (t' : Text)
    (p : Position) : run m p (Token.spell (xs ++ [⟨.punct, [z]⟩]) ++ t') =
      (run .code ((Token.spell (xs ++ [⟨.punct, [z]⟩])).foldl Position.next p) t').map
        (xs ++ [⟨.punct, [z]⟩] ++ ·) := by
  induction xs generalizing m t p with
  | nil =>
    obtain rfl : m = .code := h.mode_punct
    have hscan : scan .code z ([] ++ t') = .ok (.punct, 0) := scanCode_barrier hz t'
    exact run_cons hscan p
  | cons x xs ih =>
    cases h with
    | @cons _ c u t k _ hs hr =>
      have ht : t = Token.spell xs ++ z :: Token.spell zs := by
        rw [← hr.spell]
        simp [Token.spell]
      rw [ht] at hs
      have hscan := scan_edge (isEdge_of_isBarrier hz) hs t'
      have htext : Token.spell (⟨k, c :: u⟩ :: xs ++ [⟨.punct, [z]⟩]) ++ t' =
          c :: (u ++ (Token.spell xs ++ z :: t')) := by
        simp [Token.spell]
      have hrest : Token.spell xs ++ z :: t' = Token.spell (xs ++ [⟨.punct, [z]⟩]) ++ t' := by
        simp [Token.spell]
      rw [htext, run_cons hscan, hrest, ih hr]
      simp only [List.cons_append, Token.spell, List.flatMap_cons, List.foldl_append, List.foldl_cons]
      cases run .code _ t' <;> rfl

theorem Reads.begins (hz : isBarrier z = true) (h : Reads .html (xs ++ ⟨.punct, [z]⟩ :: zs) t) (t' : Text) :
    (Token.spell (xs ++ [⟨.punct, [z]⟩]) ++ t').Begins (xs ++ [⟨.punct, [z]⟩]) := by
  refine ⟨t', rfl, ?_⟩
  have hmode : Mode.html.afterAll (xs ++ [⟨.punct, [z]⟩]) = .code := by
    rw [Mode.afterAll, List.foldl_append]
    change (Mode.html.afterAll xs).after .punct = .code
    rw [h.mode_punct]
    rfl
  rw [hmode]
  exact run_barrier hz h t' _

/-- What is read behind a barrier may be left out. -/
theorem Reads.begins_append {x : Token} (hz : isBarrier z = true)
    (h : Reads .html (xs ++ ⟨.punct, [z]⟩ :: (zs ++ [x])) (t ++ x.text)) (t' : Text) :
    (t ++ t').Begins (xs ++ [⟨.punct, [z]⟩]) := by
  have hspell : (Token.spell (xs ++ [⟨.punct, [z]⟩]) ++ Token.spell zs) ++ x.text = t ++ x.text := by
    rw [← h.spell]
    simp [Token.spell]
  rw [← List.append_cancel_right hspell, List.append_assoc]
  exact h.begins hz _

end Lexer

theorem Text.begins_nil (t : Text) : t.Begins [] := by
  refine ⟨t, rfl, ?_⟩
  change lex t = (lex t).map ([] ++ ·)
  cases lex t <;> rfl

namespace Tokens

open Lexer

variable {ts : Tokens} {p : Place} {first b i j k last mid start stop : Nat} {n : Node} {r : Node × Nat}
  {text u : Text} {Z : List Token}

/-! Where an import ends. -/

theorem delimiter?_of_isName (h : ts.isName i = true) : ts.delimiter? i = none := by
  obtain ⟨⟨kind, t⟩, ht, hk⟩ := Option.map_eq_some_iff.1 (beq_iff_eq.1 h)
  obtain rfl : kind = .name := hk
  rw [delimiter?, ht]
  rfl

theorem isCode_of_isName (h : ts.isName i = true) : ts.isCode i = true := by
  rw [isCode, beq_iff_eq.1 h]
  rfl

/-- The statement that `first` starts goes on at index `i`, or ended in front of it. -/
def GoesOn (ts : Tokens) (first stop last i : Nat) : Prop :=
  i = last ∨ ts.statementEndFrom first stop false [] i = .ok last

theorem GoesOn.resolve (h : ts.GoesOn first stop last i) (hn : ts.isCode last = false)
    (hi : ts.isCode i = true) : ts.statementEndFrom first stop false [] i = .ok last := by
  refine h.resolve_left ?_
  rintro rfl
  exact Bool.eq_false_iff.1 hn hi

theorem goesOn_significant (h : ts.statementEndFrom first stop false [] i = .ok last) :
    ts.GoesOn first stop last (ts.significant i last) := by
  unfold significant
  fun_induction firstFrom ts.isCode i last with
  | case1 => exact .inr h
  | case2 i hlt hp ih =>
    have hbounds := statementEndFrom_bounds h
    rw [statementEndFrom.eq_def, if_pos (by omega)] at h
    by_cases hc : ts.kind? i = some .closeTag
    · rw [delimiter?_of_closeTag hc] at h
      cases h
      rw [firstFrom, if_neg (Nat.lt_irrefl _)]
      exact .inl rfl
    · rw [delimiter?_of_not_isCode (Bool.eq_false_iff.2 hp) hc] at h
      exact ih h
  | case3 => exact .inl rfl

section

variable (hn : ts.isCode last = false)
include hn

theorem GoesOn.next (h : ts.GoesOn first stop last i) (hi : ts.isCode i = true)
    (hd : ts.delimiter? i = none) : ts.GoesOn first stop last (ts.significant (i + 1) last) := by
  have h := h.resolve hn hi
  have hbounds := statementEndFrom_bounds h
  rw [statementEndFrom.eq_def, if_pos (by omega), hd] at h
  exact goesOn_significant h

theorem GoesOn.name (h : ts.GoesOn first stop last i) (hi : ts.isName i = true) :
    ts.GoesOn first stop last (ts.significant (i + 1) last) :=
  h.next hn (isCode_of_isName hi) (delimiter?_of_isName hi)

theorem GoesOn.keyword {word : Text} (h : ts.GoesOn first stop last i) (hi : ts.isKeyword i word = true) :
    ts.GoesOn first stop last (ts.significant (i + 1) last) :=
  h.name hn (Bool.and_eq_true_iff.1 hi).1

theorem GoesOn.alias {a : Option Text} (h : ts.GoesOn first stop last i)
    (ha : ts.importAlias? i last = some (a, j)) : ts.GoesOn first stop last j := by
  unfold importAlias? at ha
  dsimp only at ha
  split at ha
  · rename_i has
    split at ha <;> cases ha
    exact (h.keyword hn has).name hn ‹_›
  · cases ha
    exact h

theorem isPunct_of_importClauses {cs : List ImportClause} (h : ts.GoesOn first stop last i)
    (hcs : ts.importClauses? i last = some cs) : ts.isPunct (last - 1) ';' = true := by
  fun_induction importClauses? ts i last generalizing cs with
  | case1 => cases hcs
  | case2 i hi alias? j ha =>
    rename_i hcomma _ _ _ ih
    obtain ⟨rest, hrest, -⟩ := Option.map_eq_some_iff.1 hcs
    refine ih (((h.name hn hi.2).alias hn ha).next hn (isCode_of_isPunct hcomma) ?_) hrest
    rw [delimiter?, isPunct_iff.1 hcomma]
    rfl
  | case3 i hi alias? j ha =>
    rename_i hsemi
    have hj := ((h.name hn hi.2).alias hn ha).resolve hn (isCode_of_isPunct hsemi)
    have hbounds := statementEndFrom_bounds hj
    rw [statementEndFrom.eq_def, if_pos (by omega), delimiter?_of_semicolon hsemi] at hj
    cases hj
    exact hsemi
  | case4 => cases hcs
  | case5 => cases hcs

end

theorem isOutside_behind {k : Nat} (hreads : Reads .html ts.toList text) (h : ts.kind? k = some .closeTag) :
    ∀ b ∈ ts.kind? (k + 1), b.isOutside = true := by
  intro b hb
  rcases (precedes hreads h hb).1.1 rfl with rfl | rfl <;> rfl

theorem isPunct_of_import {d : Import} (hn : ts.isCode last = false) (huse : ts.isKeyword first "use" = true)
    (hend : ts.statementEnd first stop false = .ok last) (hd : ts.import? first last = some d) :
    ts.isPunct (last - 1) ';' = true := by
  obtain ⟨cs, hcs, -⟩ := Option.map_eq_some_iff.1 hd
  have hgoes : ts.GoesOn first stop last (ts.significant (first + 1) last) :=
    GoesOn.keyword hn (.inr hend) huse
  by_cases hfunction : ts.isKeyword (ts.significant (first + 1) last) "function" = true
  · rw [if_pos hfunction, if_neg (by rintro ⟨⟩)] at hcs
    exact isPunct_of_importClauses hn (hgoes.keyword hn hfunction) hcs
  rw [if_neg hfunction] at hcs
  by_cases hconst : ts.isKeyword (ts.significant (first + 1) last) "const" = true
  · rw [if_pos hconst, if_neg (by rintro ⟨⟩)] at hcs
    exact isPunct_of_importClauses hn (hgoes.keyword hn hconst) hcs
  · rw [if_neg hconst, if_pos rfl] at hcs
    exact isPunct_of_importClauses hn hgoes hcs

theorem not_closeTag_of_importDecl (hreads : Reads .html ts.toList text)
    (huse : ts.isKeyword first "use" = true) (h : ts.importDecl start first stop = .ok r)
    (himport : r.1.isImport = true) : ts.kind? (r.2 - 1) ≠ some .closeTag := by
  intro hclose
  unfold importDecl at h
  split at h
  · cases h
  rename_i next hend
  have hbounds := statementEnd_bounds hend
  split at h
  · rename_i d hd
    cases h
    have hn : ts.isCode next = false := by
      have hbehind := isOutside_behind hreads hclose
      rw [Nat.sub_add_cancel (by omega)] at hbehind
      rw [isCode]
      cases hk : ts.kind? next with
      | none => rfl
      | some kind =>
        rw [Option.any_some, TokenKind.isCode, hbehind kind hk, Bool.not_true, Bool.and_false]
    rw [kind?, isPunct_iff.1 (isPunct_of_import hn huse hend hd)] at hclose
    cases hclose
  · unfold verbatim at h
    split at h <;> cases h
    cases himport

/-! Declarations that were read. -/

/-- No close tag ends the declaration. -/
def Terminated (ts : Tokens) (n : Node) : Prop :=
  ∀ a ∈ n.origin.anchor?, ts.kind? (a.span.stop - 1) ≠ some .closeTag

instance (ts : Tokens) (n : Node) : Decidable (ts.Terminated n) :=
  inferInstanceAs (Decidable (∀ a ∈ n.origin.anchor?, ts.kind? (a.span.stop - 1) ≠ some .closeTag))

/-- The declaration `n` was read from `start` on: code up to `mid`, and the comment behind it up to `stop`. -/
structure CodeAt (ts : Tokens) (n : Node) (start mid stop : Nat) : Prop where
  anchor : ∃ a, n.origin = .anchored a ∧ a.span = ⟨start, stop⟩
  lt : start < mid
  le : mid ≤ stop
  head : ∃ t, ts[start]? = some t ∧ t.kind ≠ .whitespace ∧ t.kind.isOutside = false
  closed : ∃ z, isBarrier z = true ∧ ts.isPunct (mid - 1) z = true
  note : mid = stop ∨ Note (ts.extract mid stop).toList
  names : n.isImport = true → ∀ w ∈ n.decl.names, ∃ k, start ≤ k ∧ k < mid ∧ ts.isName k = true ∧
    w = (ts.text k).dropWhile (· == '\\')

/-- Behind entries stands what is behind the last of them. -/
theorem Items.exists_last {ns : List Node} (h : ts.Items p stop i ns last) : last = i ∨
    ∃ mid r, i ≤ mid ∧ ts.significant mid stop < stop ∧
      ts.entry p (ts.startOf mid stop) (ts.significant mid stop) stop = .ok r ∧
        last = (ts.finish stop r).2 := by
  induction h with
  | nil => exact .inl rfl
  | @cons i r ns last hs he _ ih =>
    have hlt := lt_of_entry he hs
    have hle := ts.le_finish stop r
    have hfirst : i ≤ ts.significant i stop := le_firstFrom_of_lt hs
    rcases ih with rfl | ⟨mid, q, hmid, hq⟩
    · exact .inr ⟨i, r, Nat.le_refl i, hs, he, rfl⟩
    · exact .inr ⟨mid, q, by omega, hq⟩

theorem namespaceDecl_of_entry (hp : p ≠ .members) (h : ts.entry p start first stop = .ok r)
    (hscope : r.1.decl.isScope = true) : ts.namespaceDecl start first stop = .ok r := by
  have hdeclaration : ts.declaration start first stop ≠ .ok r := fun h => by
    rw [isScope_of_declaration h] at hscope
    cases hscope
  cases p with
  | members => exact absurd rfl hp
  | file =>
    unfold entry at h
    dsimp only at h
    split at h
    · exact h
    · exact absurd h hdeclaration
  | scope braced =>
    unfold entry at h
    dsimp only at h
    split at h
    · cases h
    · exact absurd h hdeclaration

theorem isScope_of_entry {braced : Bool} (h : ts.entry (.scope braced) start first stop = .ok r) :
    r.1.decl.isScope = false := by
  unfold entry at h
  dsimp only at h
  split at h
  · cases h
  · exact isScope_of_declaration h

theorem not_closeTag_of_finish (hreads : Reads .html ts.toList text) (hr : 0 < r.2)
    (h : ts.kind? ((ts.finish stop r).2 - 1) ≠ some .closeTag) : ts.kind? (r.2 - 1) ≠ some .closeTag := by
  intro hclose
  have hbehind := isOutside_behind hreads hclose
  rw [Nat.sub_add_cancel hr] at hbehind
  unfold finish at h
  split at h
  · exact h hclose
  rw [withTrailing_snd] at h
  rcases trailing_cases ts r.2 stop with he | ⟨-, hk, -⟩ | ⟨-, hk, -⟩
  · rw [he] at h
    exact h hclose
  · cases hbehind _ hk
  · cases hbehind _ hk

theorem not_closeTag_finish (h : ts.kind? (r.2 - 1) ≠ some .closeTag) :
    ts.kind? ((ts.finish stop r).2 - 1) ≠ some .closeTag := by
  rcases EntryAt.note_cases ts stop r with he | ⟨-, -, -, hline⟩
  · rwa [he]
  · rw [hline]
    rintro ⟨⟩

section

variable (hreads : Reads .html ts.toList text) (hp : p ≠ .members) (hs : ts.significant mid stop < stop)
  (he : ts.entry p (ts.startOf mid stop) (ts.significant mid stop) stop = .ok r)
include hreads hp hs he

theorem not_closeTag_of_entry (h : r.1.isImport = true ∨ r.1.isClass = true) :
    ts.kind? ((ts.finish stop r).2 - 1) ≠ some .closeTag := by
  refine not_closeTag_finish ?_
  rcases h with himport | hclass
  · obtain ⟨huse, hread⟩ := import_of_entry hp he himport
    exact not_closeTag_of_importDecl hreads huse hread himport
  · obtain ⟨-, hread⟩ := classAt_of_entry hp he hclass
    obtain ⟨c, bases, interfaces, opening, closing, children, hat, -, rfl⟩ :=
      classAt_of_declaration hread hs hclass
    have hbrace := (matching_closes (b := .curly) (classParents_opens hat.parents) hat.matching).2
    change ts.kind? closing ≠ some .closeTag
    rw [kind?, isPunct_iff.1 hbrace]
    rintro ⟨⟩

variable (hend : ts.kind? ((ts.finish stop r).2 - 1) ≠ some .closeTag)
include hend

/-- Where the code of an entry ends. -/
theorem exists_ended : ∃ j, ts.startOf mid stop < j ∧ j ≤ (ts.finish stop r).2 ∧
    (∃ z, isBarrier z = true ∧ ts.isPunct (j - 1) z = true) ∧
      (j = (ts.finish stop r).2 ∨ Note (ts.extract j (ts.finish stop r).2).toList) ∧
        ((∀ name?, r.1.decl ≠ .scope name? false) → j = r.2) := by
  have hlt := lt_of_entry he hs
  have hle : ts.startOf mid stop ≤ ts.significant mid stop := leading_le ..
  have hfinish := ts.le_finish stop r
  by_cases hopen : ∃ name?, r.1.decl = .scope name? false
  · obtain ⟨name?, hdecl⟩ := hopen
    have hscope : r.1.decl.isScope = true := by
      rw [hdecl]
      rfl
    have hhead := ts.lt_scopeHead hs
    rw [finish_of_isScope hscope] at hend ⊢
    rcases namespaceDecl_cases (namespaceDecl_of_entry hp he hscope) with
      ⟨-, hsemi, children, hd, -⟩ | ⟨-, _, _, _, -, -, rfl⟩
    · -- A namespace without braces ends with the last of its declarations.
      rcases (items_of_declarations hd).1.exists_last with hlast | ⟨mid', q, hmid, hs', he', hlast⟩
      · refine ⟨r.2, by omega, Nat.le_refl _, ⟨';', rfl, ?_⟩, .inl rfl, fun _ => rfl⟩
        rwa [hlast]
      · have hlt' := lt_of_entry he' hs'
        have hfirst : mid' ≤ ts.significant mid' stop := le_firstFrom_of_lt hs'
        have hfinish' := ts.le_finish stop q
        have hbraced : ∀ name?, q.1.decl ≠ .scope name? false := fun name? h => by
          have hq := isScope_of_entry he'
          rw [h] at hq
          cases hq
        rw [hlast] at hend
        refine ⟨q.2, by omega, by omega, (ended_entry he' hbraced).resolve_left
          (not_closeTag_of_finish hreads (by omega) hend), ?_, fun h => absurd hdecl (h name?)⟩
        rw [hlast]
        exact (EntryAt.note_cases ts stop q).imp Eq.symm fun h => h.2.1
    · cases hdecl
  · have hbraced : ∀ name?, r.1.decl ≠ .scope name? false := fun name? h => hopen ⟨name?, h⟩
    exact ⟨r.2, by omega, hfinish, (ended_entry he hbraced).resolve_left
      (not_closeTag_of_finish hreads (by omega) hend),
      (EntryAt.note_cases ts stop r).imp Eq.symm fun h => h.2.1, fun _ => rfl⟩

/-- The code of an entry and the comment behind it. -/
theorem exists_codeAt
    (ho : ∃ a, n.origin = .anchored a ∧ a.span = ⟨ts.startOf mid stop, (ts.finish stop r).2⟩)
    (hd : n.decl = r.1.decl) : ∃ j, ts.CodeAt n (ts.startOf mid stop) j (ts.finish stop r).2 := by
  obtain ⟨j, hlt, hle, hclosed, hnote, hj⟩ := exists_ended hreads hp hs he hend
  have hfirst : ts.startOf mid stop ≤ ts.significant mid stop := leading_le ..
  refine ⟨j, ho, hlt, hle, token_startOf (by omega), hclosed, hnote, fun himport w hw => ?_⟩
  rw [Node.isImport, hd] at himport
  rw [hd] at hw
  obtain ⟨k, hk, hkr, hname⟩ := name_of_importDecl (import_of_entry hp he himport).2 w hw
  refine ⟨k, by omega, ?_, hname⟩
  rwa [hj fun name? hscope => by rw [hscope] at himport; cases himport]

end

/-- What was read as code is read so from there on. -/
theorem reads_onward (h : Reads .html ts.toList text) {t : Token} (ht : ts[k]? = some t)
    (hout : t.kind.isOutside = false) : Reads .code (ts.toList.drop k) (ts.between k ts.size) := by
  have hrest := ts.toList.take_append_drop k ▸ h
  replace hrest := hrest.of_append
  rw [spell_drop] at hrest
  cases hm : Mode.html.afterAll (ts.toList.take k) with
  | code => rwa [hm] at hrest
  | html =>
    rw [hm, ts.drop_split (Nat.le_succ k), extract_singleton ht] at hrest
    rw [isOutside_html hrest] at hout
    cases hout

/-- Code may stand at index `b`, behind other white space. -/
def Opens (ts : Tokens) (b : Nat) : Prop :=
  ∀ {w : Text} {Z : List Token} {T : Text}, (∀ c ∈ w, isSpace c = true) → T.head?.any isSpace = false →
    Reads .code Z T → ∃ us, Reads .html (us ++ Z) (ts.between 0 b ++ (w ++ T))

theorem opens_file {body : Span} (hreads : Reads .html ts.toList text) (hbody : ts.codeSpan? = some body)
    (hlt : body.start < ts.size) : ts.Opens body.start := by
  intro w Z T hw hT hZ
  obtain ⟨P, w', hP⟩ := exists_heads hreads hw hT hZ hbody hlt
  have hread := hP.reads
  rw [← List.append_assoc] at hread
  exact ⟨_, hread⟩

theorem opens_fronted {z : Char} (hreads : Reads .html ts.toList text) (hz : z = '\x7b' ∨ z = ';')
    (hp : ts.isPunct b z = true) : ts.Opens (b + 1) := by
  intro w Z T hw hT hZ
  obtain ⟨P, hP, -⟩ := exists_heads_fronted hreads hw hT hZ hz (Nat.succ_pos b) hp
  have hread := hP.reads
  rw [← List.append_assoc] at hread
  exact ⟨_, hread⟩

/-! Behind a declaration. -/

namespace CodeAt

variable (h : ts.CodeAt n start mid stop)
include h

theorem exists_barrier (hi : i ≤ start) : ∃ xs z, isBarrier z = true ∧
    (ts.extract i mid).toList = xs ++ [⟨.punct, [z]⟩] := by
  have hlt := h.lt
  obtain ⟨z, hz, hp⟩ := h.closed
  have hone := extract_singleton (isPunct_iff.1 hp)
  rw [Nat.sub_add_cancel (by omega)] at hone
  refine ⟨(ts.extract i (mid - 1)).toList, z, hz, ?_⟩
  rw [← hone, extract_split (by omega) (by omega)]

/-- Other code may stand behind the semicolon. -/
theorem reads_code {m : Mode} (hi : i ≤ start) (hreads : Reads m (ts.toList.drop i) (ts.between i ts.size))
    (hZ : Reads .code Z u) : Reads m ((ts.extract i mid).toList ++ Z) (ts.between i mid ++ u) := by
  have hlt := h.lt
  obtain ⟨xs, z, hz, hxs⟩ := h.exists_barrier hi
  rw [ts.drop_split (show i ≤ mid by omega), hxs, List.append_assoc] at hreads
  rw [between, hxs, spell_append, List.append_assoc, List.append_assoc]
  exact hreads.barrier hz hZ

theorem reads_start (hreads : Reads .html ts.toList text) :
    Reads .code (ts.toList.drop start) (ts.between start ts.size) := by
  obtain ⟨t, ht, -, hout⟩ := h.head
  exact reads_onward hreads ht hout

theorem reads_mid (hreads : Reads .html ts.toList text) :
    Reads .code (ts.toList.drop mid) (ts.between mid ts.size) := by
  have hstart := h.reads_start hreads
  obtain ⟨xs, z, -, hxs⟩ := h.exists_barrier (Nat.le_refl start)
  rw [ts.drop_split (Nat.le_of_lt h.lt), hxs] at hstart
  have hmode := hstart.of_append
  rw [Mode.afterAll, List.foldl_append] at hmode
  rw [List.append_assoc] at hstart
  change Reads ((Mode.code.afterAll xs).after .punct) _ _ at hmode
  rw [hstart.mode_punct, spell_drop] at hmode
  exact hmode

theorem solid (hreads : Reads .html ts.toList text) (hj : start < j) (u : Text) :
    (ts.between start j ++ u).head?.any isSpace = false := by
  have hstart := h.reads_start hreads
  obtain ⟨t, ht, hspace, -⟩ := h.head
  rw [ts.drop_split (Nat.le_succ start), extract_singleton ht] at hstart
  obtain ⟨c, v, hcv, hsolid⟩ := hstart.solid hspace
  rw [← between_append (Nat.le_succ start) hj, between, extract_singleton ht, spell_singleton, hcv]
  exact hsolid

end CodeAt

/-- The text `u` is printed behind index `i` and read as `Z`: as the source goes on there, or behind white
space that starts with a line break. -/
inductive Resumes (ts : Tokens) (i : Nat) (Z : List Token) : Text → Bool → Prop
  | kept {t : Text} : (∀ j m, j ≤ i → Reads m (ts.toList.drop j) (ts.between j ts.size) →
      Reads m ((ts.extract j i).toList ++ Z) (ts.between j i ++ t)) → Resumes ts i Z t true
  | setOff {w T : Text} : (∀ c ∈ w, isSpace c = true) → Breaks w → T.head?.any isSpace = false →
      Reads .code Z T → Resumes ts i Z (w ++ T) false

theorem CodeAt.exists_behind {kept : Bool} (h : ts.CodeAt n start mid stop)
    (hreads : Reads .html ts.toList text) (hu : ts.Resumes i Z u kept) (hi : kept = true → i = stop) :
    ∃ Y, Reads .code (Y ++ Z) (ts.between mid stop ++ u) := by
  have hmid := h.reads_mid hreads
  cases hu with
  | kept hu =>
    obtain rfl := hi rfl
    exact ⟨_, hu mid .code h.le hmid⟩
  | @setOff w T hw hb hT hZ =>
    rcases h.note with rfl | hnote
    · rw [between_self, List.nil_append]
      exact ⟨_, hZ.blank hw hT⟩
    · rw [ts.drop_split h.le] at hmid
      obtain ⟨note, w', -, -, -, -, hnotes⟩ := hnote.reads hmid hw hT (.inr (hb.append T)) hZ
      rw [← List.append_assoc] at hnotes
      exact ⟨_, hnotes⟩

theorem Resumes.exists_reads {kept : Bool} (h : ts.Resumes b Z u kept) (hreads : Reads .html ts.toList text)
    (hopens : ts.Opens b) : ∃ us, Reads .html (us ++ Z) (ts.between 0 b ++ u) := by
  cases h with
  | kept hu =>
    have hzero : Reads .html (ts.toList.drop 0) (ts.between 0 ts.size) := by
      rwa [← spell_drop, List.drop_zero, hreads.spell]
    exact ⟨_, hu 0 .html (Nat.zero_le b) hzero⟩
  | setOff hw _ hT hZ => exact hopens hw hT hZ

end Tokens

namespace Source

open Tokens Lexer

variable {s : Source} {text u : Text} {style : Style} {c : Container} {level limit last i mid stop : Nat}
  {cur : Cursor} {done is xs ys : List Node} {x y : Node} {span body : Span} {Z : List Token}

/-- The name is a token, or the source had it with a backslash in front and so it is one now. -/
def Lists (s : Source) (ts : List Token) (w : Text) : Prop :=
  ⟨.name, w⟩ ∈ ts ∨ ⟨.name, '\\' :: w⟩ ∈ ts ∧ ⟨.name, '\\' :: w⟩ ∈ s.tokens.toList

theorem Lists.mono {ts us : List Token} {w : Text} (h : s.Lists ts w) (hsub : ts ⊆ us) : s.Lists us w :=
  h.imp (@hsub _) (And.imp_left (@hsub _))

theorem lists_of_isName {k : Nat} (hparse : Source.parse text = .ok s) (hname : s.tokens.isName k = true)
    (hi : i ≤ k) (hk : k < stop) :
    s.Lists (s.tokens.extract i stop).toList ((s.tokens.text k).dropWhile (· == '\\')) := by
  obtain ⟨t, ht, hkind⟩ := Option.map_eq_some_iff.1 (beq_iff_eq.1 hname)
  have hmem : t ∈ (s.tokens.extract i stop).toList := mem_extract hi hk ht
  have hsource : t ∈ s.tokens.toList := Array.mem_toList_iff.2 (Array.mem_of_getElem? ht)
  obtain ⟨kind, v⟩ := t
  obtain rfl : kind = .name := hkind
  have hv : s.tokens.text k = v := text_of ht
  have hroot := Name.dropWhile_root (isQualified_token hparse hname)
  rw [hv] at hroot ⊢
  rcases hroot with heq | heq
  · left
    rwa [heq]
  · right
    rw [← heq]
    exact ⟨hmem, hsource⟩

/-- The declaration `x` is printed as `t`, which is read as `code` behind index `i`, and the comment
`note`. -/
structure Cites (s : Source) (kept : Bool) (i : Nat) (x : Node) (t note : Text) (code : List Token) :
    Prop where
  resumes : ∀ {Z V}, Reads .code Z V → s.tokens.Resumes i (code ++ Z) (t ++ V) kept
  ends : ∃ us z, isBarrier z = true ∧ code = us ++ [⟨.punct, [z]⟩]
  names : x.isImport = true → ∀ w ∈ x.decl.names, s.Lists code w
  behind : ∀ {j Z u kept'}, s.tokens.Resumes j Z u kept' →
    (kept' = true → ∃ a, x.origin.anchor? = some a ∧ a.span.stop = j) → ∃ Y, Reads .code (Y ++ Z) (note ++ u)

section

variable {m : Node} {start : Nat} (hparse : Source.parse text = .ok s)
include hparse

theorem cites_read (hat : s.tokens.CodeAt m start mid stop) (hdecl : x.decl = m.decl)
    (ha : x.origin.anchor? = m.origin.anchor?) {kept : Bool} {t : Text} (hi : i ≤ start)
    (hresumes : ∀ {Z V}, Reads .code Z V →
      s.tokens.Resumes cur.index ((s.tokens.extract i mid).toList ++ Z) (t ++ V) kept) :
    s.Cites kept cur.index x t (s.tokens.between mid stop) (s.tokens.extract i mid).toList := by
  obtain ⟨-, -, -, hreads⟩ := Source.parse_eq hparse
  obtain ⟨a, ho, hspan⟩ := hat.anchor
  refine ⟨hresumes, hat.exists_barrier hi, fun himport w hw => ?_, fun hu hkept => ?_⟩
  · rw [Node.isImport, hdecl] at himport
    rw [hdecl] at hw
    obtain ⟨k, hk, hks, hname, rfl⟩ := hat.names himport w hw
    exact lists_of_isName hparse hname (by omega) hks
  · refine hat.exists_behind hreads hu fun hk => ?_
    obtain ⟨b, hb, hstop⟩ := hkept hk
    rw [ha, ho] at hb
    cases hb
    rw [← hstop, hspan]

/-- Behind white space that starts with a line break a declaration is read as it was. -/
theorem cites_setOff (hat : s.tokens.CodeAt m start mid stop) (hdecl : x.decl = m.decl)
    (ha : x.origin.anchor? = m.origin.anchor?) {gap : Text} (hgap : ∀ c ∈ gap, isSpace c = true)
    (hbreaks : Breaks gap) : s.Cites false cur.index x (gap ++ s.tokens.between start mid)
      (s.tokens.between mid stop) (s.tokens.extract start mid).toList := by
  obtain ⟨-, -, -, hreads⟩ := Source.parse_eq hparse
  refine cites_read hparse hat hdecl ha (Nat.le_refl _) fun hV => ?_
  rw [List.append_assoc]
  exact .setOff hgap hbreaks (hat.solid hreads hat.lt _)
    (hat.reads_code (Nat.le_refl _) (hat.reads_start hreads) hV)

theorem cites_kept (hat : s.tokens.CodeAt x start mid stop) (hle : cur.index ≤ start) :
    s.Cites true cur.index x (s.tokens.between cur.index mid) (s.tokens.between mid stop)
      (s.tokens.extract cur.index mid).toList := by
  have hlt := hat.lt
  refine cites_read hparse hat rfl rfl hle fun hV => .kept fun j m hj hm => ?_
  have hread := hat.reads_code (Nat.le_trans hj hle) hm hV
  rwa [← extract_split hj (show cur.index ≤ mid by omega),
    ← between_append hj (show cur.index ≤ mid by omega), List.append_assoc, List.append_assoc] at hread

end

section

variable (hi : ∀ c ∈ style.indent, isIndent c = true)
include hi

theorem exists_cites_read {start : Nat} (hparse : Source.parse text = .ok s)
    (hat : s.tokens.CodeAt x start mid stop) (hx : s.Intact style x) (c : Container) (level parent : Nat)
    (cur : Cursor) : ∃ t note code,
      s.gap style c level (s.keeps parent cur x) cur x ++ s.print style level x = t ++ note ∧
        s.Cites (s.keeps parent cur x) cur.index x t note code := by
  obtain ⟨a, ho, ha⟩ := hat.anchor
  have hlt := hat.lt
  have hprint : s.print style level x = s.tokens.between start mid ++ s.tokens.between mid stop := by
    rw [hx level a ho, Tokens.slice, ha, between_append (Nat.le_of_lt hlt) hat.le]
  rw [hprint]
  cases hk : s.keeps parent cur x with
  | true =>
    obtain ⟨b, hb, hle, -⟩ := keeps_cases hk
    obtain rfl := Origin.anchored.inj (ho.symm.trans hb)
    rw [ha] at hle
    replace hle : cur.index ≤ start := hle
    refine ⟨_, _, _, ?_, cites_kept hparse hat hle⟩
    rw [gap_of_keeps _ _ _ (congrArg Origin.anchor? ho), ha, ← List.append_assoc,
      between_append hle (Nat.le_of_lt hlt)]
  | false =>
    refine ⟨_, _, _, (List.append_assoc ..).symm, cites_setOff hparse hat rfl rfl ?_ (breaks_gap ..)⟩
    rw [gap_new]
    exact Rendering.isSpace_gap hi _

theorem exists_cites_new {next : Nat} (hx : x.NewImport next limit) (c : Container) (level parent : Nat)
    (cur : Cursor) : ∃ t note code,
      s.gap style c level (s.keeps parent cur x) cur x ++ s.print style level x = t ++ note ∧
        s.Cites (s.keeps parent cur x) cur.index x t note code := by
  obtain ⟨id, name, -, -, hname, rfl⟩ := hx
  have hsound : (importPart name []).Sound .file := sound_importPart (by rintro ⟨⟩) hname nofun
  have hkeeps : s.keeps parent cur ⟨id, .synthesized, .imports (.ofClass name), []⟩ = false := rfl
  rw [hkeeps, print_import s style level rfl rfl]
  refine ⟨_, [], importOf name, (List.append_nil _).symm, ?_, ?_, ?_, ?_⟩
  · intro Z V hV
    rw [List.append_assoc]
    refine .setOff ?_ (breaks_gap ..) ?_ (hsound.reads_code hV)
    · rw [gap_new]
      exact Rendering.isSpace_gap hi _
    · rw [spell_importOf]
      rfl
  · exact ⟨[⟨.name, "use"⟩, ⟨.whitespace, " "⟩, ⟨.name, name⟩], ';', rfl, rfl⟩
  · intro _ w hw
    obtain rfl := List.mem_singleton.1 hw
    exact .inl (by simp [importOf])
  · intro j Z u kept' hu hkept
    cases hu with
    | kept =>
      obtain ⟨a, ha, -⟩ := hkept rfl
      cases ha
    | setOff hw _ hT hZ =>
      rw [List.nil_append]
      exact ⟨_, hZ.blank hw hT⟩

end

theorem printFront_append {parent : Nat} (cur : Cursor) (ns ms : List Node) :
    s.printFront style c level parent cur (ns ++ ms) = s.printFront style c level parent cur ns ++
      s.printFront style c level parent (s.passAll parent cur ns) ms := by
  induction ns generalizing cur with
  | nil => rfl
  | cons n ns ih =>
    rw [List.cons_append, printFront, ih, printFront, passAll]
    simp only [List.append_assoc]

namespace ClassScope

variable {sc : s.ClassScope}

/-- A child keeps its place only behind one that was read, where that ended. -/
theorem index_of_keeps (hf : s.Faithful text) (hst : sc.Stands span body last) (h : sc.Imports limit is)
    (hdone : sc.arranged is = done ++ [x] ++ y :: ys) (hw : Walk body.start (done ++ [x]) cur)
    (hk : s.keeps sc.node.id cur y = true) :
    ∃ a, x.origin.anchor? = some a ∧ a.span.stop = cur.index := by
  have hsel := h.selected hf hst
  have hx : x ∈ sc.arranged is := by rw [hdone]; simp
  obtain ⟨a, ho, -, hpred⟩ := keeps_cases hk
  rw [hdone] at hsel
  obtain ⟨before, hslot⟩ := hw.index_eq hsel ho hk
  obtain ⟨m, behind, hc, hid, -, -⟩ := hslot.split
  rw [← hid, hsel.predecessor before m behind hc, hw.prev, List.getLast?_concat, Option.map_some,
    Option.some.injEq] at hpred
  obtain ⟨l, hl, hlid⟩ := Option.map_eq_some_iff.1 hpred
  have hlmem : l ∈ sc.node.children := by
    rw [hc]
    exact List.mem_append_left _ (List.mem_of_getLast? hl)
  rw [hdone] at hx
  cases hb : x.origin.anchor? with
  | none =>
    have hread : l.id ∈ sc.node.children.map Node.id := List.mem_map_of_mem hlmem
    rw [hlid] at hread
    exact absurd hread (hsel.new x hx hb)
  | some b =>
    obtain ⟨m', hm', hid', ho'⟩ := hsel.read x hx b hb
    obtain rfl := List.inj_on_of_nodup_map hsel.nodup hm' hlmem (hid'.trans hlid.symm)
    have hstop := hslot.front.last_eq
    rw [Node.lastStop, hl, Option.bind_some, ho'] at hstop
    exact ⟨b, rfl, hstop.symm⟩

/-- The children of the scope were read one by one. -/
theorem exists_items (hparse : Source.parse text = .ok s) (hst : sc.Stands span body last) :
    ∃ p stop ns j last', p ≠ .members ∧ stop ≤ s.tokens.size ∧ s.tokens.isPunct stop ';' = false ∧
      sc.node.children = (Node.numberList j ns).1 ∧ s.tokens.Items p stop body.start ns last' ∧
        s.tokens.Opens body.start := by
  obtain ⟨root, hfile, htree, hreads⟩ := Source.parse_eq hparse
  obtain ⟨body₀, hbody, ⟨last₀, hitems, -⟩, hroot⟩ := entries_of_file hfile
  obtain ⟨_, _, hspanned, -⟩ := spanned_of_codeSpan? hbody
  have hle := hspanned.le_size
  have hend := not_isPunct_stop hbody ';'
  have hnumber : s.tree.root = (root.number 0).1 := by rw [htree]; rfl
  have hchildren : ∀ (j : Nat) (n : Node), (n.number j).1.children = (Node.numberList j n.children).1 := by
    intro j n
    cases n
    rw [Node.number]
  have horigin := hst.origin
  rcases sc.decl_cases with ⟨-, hnode⟩ | ⟨k, -, hk, hscope⟩
  · rw [hnode, hnumber, number_origin, hroot] at horigin
    obtain rfl : body₀ = body := Option.some.inj (congrArg Anchor.body? (Origin.anchored.inj horigin))
    obtain ⟨a, ha⟩ := (hst.siblings.placed _ (cls_mem sc)).anchor
    have hlt := (hst.siblings.placed _ (cls_mem sc)).start_lt ha
    have hbounds := hst.siblings.bounds (cls_mem sc) ha
    have hlast := hst.encloses.last_le
    have hsize := Nat.le_trans hst.encloses.stop_le hst.encloses.le_size
    exact ⟨.file, _, _, _, _, by rintro ⟨⟩, hle, hend, by rw [hnode, hnumber, hchildren], hitems,
      opens_file hreads hbody (by omega)⟩
  · rw [hnumber, hchildren] at hk
    obtain ⟨n, j, hn, hnode⟩ := Node.getElem?_numberList hk
    obtain ⟨before, after, hsplit, -⟩ := Node.split_of_getElem? hn
    rw [hnode, number_decl] at hscope
    rw [hsplit] at hitems
    obtain ⟨mid, -, hrest⟩ := hitems.split
    obtain ⟨r, hr, rfl, -⟩ := scopeAt_of_items hrest hscope
    rw [hnode, number_origin] at horigin
    rcases namespaceDecl_cases hr.read with
      ⟨-, hsemi, children, hd, hnode'⟩ | ⟨hbrace, closing, children, inner, hm, hd, hr'⟩
    · rw [hnode'] at horigin
      obtain rfl : _ = body := Option.some.inj (congrArg Anchor.body? (Origin.anchored.inj horigin))
      refine ⟨.scope false, _, children, j, _, by rintro ⟨⟩, hle, hend, ?_, (items_of_declarations hd).1,
        opens_fronted hreads (.inr rfl) hsemi⟩
      rw [hnode, hchildren, hnode']
      rfl
    · subst hr'
      obtain rfl : _ = body := Option.some.inj (congrArg Anchor.body? (Origin.anchored.inj horigin))
      have hclosing := (matching_bounds hm).2
      have hclose := (matching_closes (b := .curly) hbrace hm).2
      refine ⟨.scope true, _, children, j, _, by rintro ⟨⟩, by omega,
        not_isPunct_of_ne hclose (by decide), ?_, (items_of_declarations hd).1,
        opens_fronted hreads (.inl rfl) hbrace⟩
      rw [hnode, hchildren]
      rfl

/-- A declaration of the scope that no close tag ends. -/
theorem exists_codeAt {m : Node} (hparse : Source.parse text = .ok s) (hst : sc.Stands span body last)
    (hm : m ∈ sc.node.children) (hended : m.isImport = true ∨ m.isClass = true ∨ s.tokens.Terminated m) :
    ∃ start mid stop, s.tokens.CodeAt m start mid stop := by
  obtain ⟨-, -, -, hreads⟩ := Source.parse_eq hparse
  obtain ⟨p, stop, ns, j, _, hp, hsize, hend, hchildren, hitems, -⟩ := exists_items hparse hst
  rw [hchildren] at hm
  obtain ⟨k, hk⟩ := List.getElem?_of_mem hm
  obtain ⟨d, i, hd, rfl⟩ := Node.getElem?_numberList hk
  obtain ⟨before, after, rfl, -⟩ := Node.split_of_getElem? hd
  obtain ⟨mid, -, hrest⟩ := hitems.split
  cases hrest with
  | @cons _ r _ _ hs he _ =>
    have hstands := stands_finish (stands_entry he (leading_le ..) hs hsize hend) hsize
    obtain ⟨body?, ho⟩ := hstands.origin
    rw [← number_origin i] at ho
    have hlast : s.tokens.kind? ((s.tokens.finish stop r).2 - 1) ≠ some .closeTag := by
      rw [Node.isImport, Node.isClass, number_decl, decl_finish] at hended
      rcases hended with himport | hclass | hterminated
      · exact not_closeTag_of_entry hreads hp hs he (.inl himport)
      · exact not_closeTag_of_entry hreads hp hs he (.inr hclass)
      · exact hterminated _ (by rw [ho]; rfl)
    obtain ⟨j, hj⟩ := Tokens.exists_codeAt hreads hp hs he hlast
      ⟨_, ho, rfl⟩ (by rw [number_decl, decl_finish])
    exact ⟨_, _, _, hj⟩

section

variable (hparse : Source.parse text = .ok s) (hi : ∀ c ∈ style.indent, isIndent c = true)
  (hst : sc.Stands span body last) (h : sc.Imports limit is)
include hparse hi hst

theorem exists_cites (hx : (x ∈ sc.node.children ∧ (x.isImport = true ∨ s.tokens.Terminated x)) ∨
    x.NewImport s.tree.next limit)
    (c : Container) (level : Nat) (cur : Cursor) : ∃ t note code,
      s.gap style c level (s.keeps sc.node.id cur x) cur x ++ s.print style level x = t ++ note ∧
        s.Cites (s.keeps sc.node.id cur x) cur.index x t note code := by
  rcases hx with ⟨hmem, hend⟩ | hnew
  · obtain ⟨start, mid, stop, hat⟩ := exists_codeAt hparse hst hmem (hend.imp_right .inr)
    have hintact : s.Intact style x := intact_of_placed (faithful_of_parse hparse).distinct
      (hst.siblings.placed x hmem) (Node.mem_subnodes_of_child hmem (node_mem sc))
    exact exists_cites_read hi hparse hat hintact c level _ cur
  · exact exists_cites_new hi hnew c level _ cur

include h

/-- What is printed of the children `xs` and what of `y` stands behind them, with the names of imports. -/
theorem exists_resumes {t : Text} {kept : Bool}
    (hxs : ∀ x ∈ xs, (x ∈ sc.node.children ∧ (x.isImport = true ∨ s.tokens.Terminated x)) ∨
      x.NewImport s.tree.next limit)
    (hdone : sc.arranged is = done ++ (xs ++ y :: ys)) (hw : Walk body.start done cur) (c : Container)
    (level : Nat) (hy : s.tokens.Resumes (s.passAll sc.node.id cur xs).index Z t kept)
    (hk : kept = true → s.keeps sc.node.id (s.passAll sc.node.id cur xs) y = true) : ∃ Y kept',
      s.tokens.Resumes cur.index (Y ++ Z) (s.printFront style c level sc.node.id cur xs ++ t) kept' ∧
        (kept' = true → ∀ x ∈ done.getLast?, ∃ a, x.origin.anchor? = some a ∧ a.span.stop = cur.index) ∧
          ∀ x ∈ xs, x.isImport = true → ∀ w ∈ x.decl.names, s.Lists Y w := by
  have hf := faithful_of_parse hparse
  -- The child that was printed before ends where one that keeps its place goes on.
  have hindex : ∀ {done cur z zs}, sc.arranged is = done ++ z :: zs → Walk body.start done cur →
      s.keeps sc.node.id cur z = true → ∀ x ∈ done.getLast?, ∃ a, x.origin.anchor? = some a ∧
        a.span.stop = cur.index := by
    intro done cur z zs hdone hw hk x hx
    obtain ⟨init, rfl⟩ := List.getLast?_eq_some_iff.1 hx
    exact index_of_keeps hf hst h hdone hw hk
  induction xs generalizing done cur with
  | nil =>
    exact ⟨[], _, hy, fun hkept => hindex hdone hw (hk hkept), List.forall_mem_nil _⟩
  | cons x xs ih =>
    obtain ⟨hx, hxs⟩ := List.forall_mem_cons.1 hxs
    obtain ⟨t₀, note₀, code₀, htext, hcites⟩ := exists_cites hparse hi hst hx c (c.childLevel level) cur
    have hw' := hw.pass (s.keeps sc.node.id cur x) x
    obtain ⟨Y, kept', hresumes, hkept, hnames⟩ := ih hxs (by simp [hdone]) hw' hy hk
    obtain ⟨Y', hY⟩ := hcites.behind hresumes fun hk => hkept hk x List.getLast?_concat
    refine ⟨code₀ ++ (Y' ++ Y), _, ?_, hindex hdone hw, ?_⟩
    · have hall := hcites.resumes hY
      rw [← List.append_assoc t₀, ← htext] at hall
      simpa only [printFront, List.append_assoc] using hall
    · refine List.forall_mem_cons.2 ⟨fun himport w hw => ?_, fun n hn himport w hw => ?_⟩
      · exact (hcites.names himport w hw).mono (List.subset_append_left _ _)
      · refine (hnames n hn himport w hw).mono fun v hv => ?_
        exact List.mem_append_right _ (List.mem_append_right _ hv)

theorem exists_begins (c : Container) (level : Nat) (R : Text) : ∃ ts, (s.tokens.between 0 body.start ++
      (s.printFront style c level sc.node.id ⟨body.start, none, true⟩ is ++ R)).Begins ts ∧
        ∀ x ∈ is, ∀ w ∈ x.decl.names, s.Lists ts w := by
  obtain ⟨-, -, -, hreads⟩ := Source.parse_eq hparse
  obtain ⟨_, _, _, _, _, -, -, -, -, -, hopens⟩ := exists_items hparse hst
  have hxs : ∀ x ∈ is, (x ∈ sc.node.children ∧ (x.isImport = true ∨ s.tokens.Terminated x)) ∨
      x.NewImport s.tree.next limit := fun x hx => (h.each x hx).imp_left fun hx => ⟨hx.1, .inl hx.2⟩
  rcases List.eq_nil_or_concat' is with rfl | ⟨init, x, rfl⟩
  · exact ⟨[], Text.begins_nil _, List.forall_mem_nil _⟩
  have hx : x ∈ init ++ [x] := List.mem_append_right _ List.mem_cons_self
  obtain ⟨t, note, code, htext, hcites⟩ := exists_cites hparse hi hst (hxs x hx) c (c.childLevel level)
    (s.passAll sc.node.id ⟨body.start, none, true⟩ init)
  have hlast := hcites.resumes .nil
  rw [List.append_nil, List.append_nil] at hlast
  obtain ⟨Y, kept, hresumes, -, hnames⟩ := exists_resumes hparse hi hst h
    (fun y hy => hxs y (List.mem_append_left _ hy))
    (show sc.arranged (init ++ [x]) = [] ++ (init ++ x :: (Node.others sc.before ++ sc.cls.detach ::
      Node.others sc.behind)) by simp [arranged]) .start c level hlast id
  obtain ⟨xs, z, hz, rfl⟩ := hcites.ends
  obtain ⟨us, hread⟩ := hresumes.exists_reads hreads hopens
  rw [← List.append_assoc, ← List.append_assoc] at hread
  have hbegins := hread.begins hz (note ++ R)
  rw [hread.spell] at hbegins
  refine ⟨us ++ Y ++ xs ++ [⟨.punct, [z]⟩], ?_, fun y hy w hw => ?_⟩
  · rw [printFront_append, printFront, printFront, List.append_nil, htext]
    simpa only [List.append_assoc] using hbegins
  · rcases List.mem_append.1 hy with hy' | hy'
    · refine (hnames y hy' (h.isImport y hy) w hw).mono fun v hv => ?_
      simp [hv]
    · obtain rfl := List.mem_singleton.1 hy'
      refine (hcites.names (h.isImport y hy) w hw).mono fun v hv => ?_
      rw [List.append_assoc]
      exact List.mem_append_right _ hv

/-- What stands in front of the class, with other code in the place of the class. -/
theorem exists_front {T : Text} (hfront : ∀ m ∈ sc.before, s.tokens.Terminated m)
    (hT : T.head?.any isSpace = false) (hZ : Reads .code Z T) : ∃ us, Reads .html (us ++ Z)
      (s.tokens.between 0 body.start ++ (s.printFront style (.ofDecl sc.node.decl) 0 sc.node.id
        ⟨body.start, none, true⟩ (is ++ Node.others sc.before) ++ (sc.classGap style is ++ T))) := by
  obtain ⟨-, -, -, hreads⟩ := Source.parse_eq hparse
  obtain ⟨_, _, _, _, _, -, -, -, -, -, hopens⟩ := exists_items hparse hst
  have hxs : ∀ x ∈ is ++ Node.others sc.before,
      (x ∈ sc.node.children ∧ (x.isImport = true ∨ s.tokens.Terminated x)) ∨
        x.NewImport s.tree.next limit := by
    intro x hx
    rcases List.mem_append.1 hx with hx | hx
    · exact (h.each x hx).imp_left fun hx => ⟨hx.1, .inl hx.2⟩
    · have hbefore := (Node.mem_others.1 hx).1
      have hmem : x ∈ sc.node.children := by
        rw [sc.split]
        exact List.mem_append_left _ hbefore
      exact .inl ⟨hmem, .inr (hfront x hbefore)⟩
  have hgap : ∀ c ∈ sc.classGap style is, isSpace c = true := Rendering.isSpace_gap hi _
  have hbreaks : Breaks (sc.classGap style is) := by
    obtain ⟨k, hk⟩ := (Container.ofDecl sc.node.decl).exists_gap
      ((is ++ Node.others sc.before).getLast?.map Node.decl) sc.cls.decl
    rw [classGap, hk]
    exact Rendering.breaks_gap style _ (Nat.succ_pos k)
  obtain ⟨Y, kept, hresumes, -, -⟩ := exists_resumes hparse hi hst h hxs
    (show sc.arranged is = [] ++ (is ++ Node.others sc.before ++ sc.cls.detach :: Node.others sc.behind) by
      simp [arranged]) .start (.ofDecl sc.node.decl) 0 (.setOff hgap hbreaks hT hZ) (by rintro ⟨⟩)
  obtain ⟨us, hread⟩ := hresumes.exists_reads hreads hopens
  rw [← List.append_assoc us] at hread
  exact ⟨_, hread⟩

end

end ClassScope

end Source

end PhpGraft
