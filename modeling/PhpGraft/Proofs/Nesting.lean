import PhpGraft.Proofs.Phrase

/-!
Code that is read has its brackets properly nested and all closed: a whole file, a fragment, and
each declaration and statement by itself. Methods are left out, since a return type goes up to the
next brace or semicolon, whatever brackets stand in front of it.
-/
namespace PhpGraft

/-- Brackets that are properly nested and all closed. -/
inductive Nested : List Char → Prop
  | nil : Nested []
  | pair (b : Bracket) {xs ys} : Nested xs → Nested ys →
      Nested (b.opener :: (xs ++ b.closer :: ys))

theorem Nested.append {xs ys : List Char} (h : Nested xs) (h' : Nested ys) : Nested (xs ++ ys) := by
  induction h with
  | nil => exact h'
  | pair b hx _ _ ih =>
    rw [List.cons_append, List.append_assoc]
    exact .pair b hx ih

theorem Bracket.opener_ne_closer (a b : Bracket) : a.opener ≠ b.closer := by
  cases a <;> cases b <;> decide

theorem Bracket.opener_inj {a b : Bracket} (h : a.opener = b.opener) : a = b := by
  cases a <;> cases b <;> first | rfl | exact absurd h (by decide)

theorem Bracket.closer_inj {a b : Bracket} (h : a.closer = b.closer) : a = b := by
  cases a <;> cases b <;> first | rfl | exact absurd h (by decide)

theorem Nested.of_opener {b : Bracket} {zs : List Char} (h : Nested (b.opener :: zs)) :
    ∃ xs ys, zs = xs ++ b.closer :: ys ∧ Nested xs ∧ Nested ys := by
  generalize hl : b.opener :: zs = l at h
  cases h with
  | nil => cases hl
  | pair a hx hy =>
    obtain ⟨ha, rfl⟩ := List.cons.inj hl
    obtain rfl := Bracket.opener_inj ha
    exact ⟨_, _, rfl, hx, hy⟩

theorem not_nested_closer (b : Bracket) (xs : List Char) : ¬Nested (b.closer :: xs) := by
  generalize hl : b.closer :: xs = l
  rintro (_ | ⟨a, -, -⟩)
  · cases hl
  · exact Bracket.opener_ne_closer a b (List.cons.inj hl).1.symm

/-- What closes the brackets that are open, innermost first. -/
inductive Closing : List Bracket → List Char → Prop
  | nil {xs} : Nested xs → Closing [] xs
  | cons {b bs xs ys} : Nested xs → Closing bs ys → Closing (b :: bs) (xs ++ b.closer :: ys)

namespace Closing

variable {b : Bracket} {bs : List Bracket} {xs : List Char}

theorem opener (h : Closing (b :: bs) xs) : Closing bs (b.opener :: xs) := by
  cases h with
  | cons hx h =>
    cases h with
    | nil hy => exact .nil (.pair b hx hy)
    | @cons c _ ys zs hy h =>
      rw [← List.cons_append, ← List.cons_append, ← List.append_assoc]
      exact .cons (.pair b hx hy) h

theorem closer (h : Closing bs xs) : Closing (b :: bs) (b.closer :: xs) := .cons .nil h

theorem of_nil (h : Closing bs []) : bs = [] := by
  generalize hl : ([] : List Char) = l at h
  cases h with
  | nil => rfl
  | cons => exact absurd hl.symm (List.append_ne_nil_of_right_ne_nil _ (List.cons_ne_nil _ _))

theorem of_opener (h : Closing bs (b.opener :: xs)) : Closing (b :: bs) xs := by
  generalize hl : b.opener :: xs = l at h
  cases h with
  | nil hx =>
    obtain ⟨xs, ys, rfl, hx, hy⟩ := (hl ▸ hx : Nested (b.opener :: xs)).of_opener
    exact .cons hx (.nil hy)
  | @cons c bs ys zs hy h =>
    cases ys with
    | nil => exact absurd (List.cons.inj hl).1 (Bracket.opener_ne_closer b c)
    | cons d ys =>
      obtain ⟨rfl, rfl⟩ := List.cons.inj hl
      obtain ⟨us, vs, rfl, hu, hv⟩ := hy.of_opener
      have hcons : Closing (b :: c :: bs) (us ++ b.closer :: (vs ++ c.closer :: zs)) :=
        .cons hu (.cons hv h)
      rwa [← List.cons_append, ← List.append_assoc] at hcons

theorem of_closer (h : Closing bs (b.closer :: xs)) : ∃ bs', bs = b :: bs' ∧ Closing bs' xs := by
  generalize hl : b.closer :: xs = l at h
  cases h with
  | nil hx => exact absurd (hl ▸ hx) (not_nested_closer b xs)
  | @cons c bs ys zs hy h =>
    cases ys with
    | nil =>
      obtain ⟨hc, rfl⟩ := List.cons.inj hl
      obtain rfl := Bracket.closer_inj hc
      exact ⟨bs, rfl, h⟩
    | cons d ys =>
      obtain ⟨rfl, -⟩ := List.cons.inj hl
      exact absurd hy (not_nested_closer b ys)

end Closing

/-- A round, square or curly bracket by itself. -/
def Token.bracket? (t : Token) : Option Char :=
  match t.kind, t.text with
  | .punct, [c] =>
    if [Bracket.round, .square, .curly].any fun b => c == b.opener || c == b.closer then some c
    else none
  | _, _ => none

/-- The brackets are what a search counts as such. -/
theorem Token.bracket?_eq (t : Token) : t.bracket? =
    match t.delimiter? with
    | some (.opening b) => some b.opener
    | some (.closing b) => some b.closer
    | _ => none := by
  obtain ⟨kind, text⟩ := t
  cases kind with
  | punct =>
    match text with
    | [] => rfl
    | [c] =>
      simp only [bracket?, delimiter?]
      split
      · rename_i h
        have hc : (c = '(' ∨ c = ')') ∨ (c = '[' ∨ c = ']') ∨ c = '\x7b' ∨ c = '\x7d' := by
          simpa [Bracket.opener, Bracket.closer] using h
        rcases hc with (rfl | rfl) | (rfl | rfl) | rfl | rfl <;> rfl
      · rename_i h
        have hother : Delimiter.ofChar? c = none ∨ Delimiter.ofChar? c = some .semicolon := by
          unfold Delimiter.ofChar?
          split <;> first | exact .inl rfl | exact .inr rfl | exact (h rfl).elim
        rcases hother with hc | hc <;> rw [hc]
    | _ :: _ :: _ => rfl
  | _ => rfl

namespace Tokens

variable {ts : Tokens} {i j k n stop : Nat} {b : Bracket}

/-- The brackets from index `i` up to `j`. -/
def brackets (ts : Tokens) (i j : Nat) : List Char :=
  (ts.extract i j).toList.filterMap Token.bracket?

/-- From index `i` up to `j` all brackets are closed. -/
def Nests (ts : Tokens) (i j : Nat) : Prop := Nested (ts.brackets i j)

theorem brackets_eq (ts : Tokens) (i j : Nat) :
    ts.brackets i j = ((ts.toList.drop i).take (j - i)).filterMap Token.bracket? := by
  rw [brackets, Array.toList_extract, List.extract_eq_take_drop]

theorem brackets_self (ts : Tokens) (i : Nat) : ts.brackets i i = [] := by
  rw [brackets_eq, Nat.sub_self, List.take_zero, List.filterMap_nil]

theorem brackets_append (hij : i ≤ j) (hjk : j ≤ k) :
    ts.brackets i j ++ ts.brackets j k = ts.brackets i k := by
  rw [brackets_eq, brackets_eq, brackets_eq, ← List.filterMap_append,
    show k - i = (j - i) + (k - j) by omega, List.take_add, List.drop_drop,
    show i + (j - i) = j by omega]

theorem brackets_succ (ts : Tokens) (i : Nat) :
    ts.brackets i (i + 1) = (ts[i]?.bind Token.bracket?).toList := by
  rw [brackets_eq, Nat.add_sub_cancel_left, List.take_one, List.head?_drop, Array.getElem?_toList]
  cases ts[i]? with
  | none => rfl
  | some t => cases h : t.bracket? <;> simp [h]

/-- Neither opens nor closes a bracket. -/
def NoBracket (ts : Tokens) (i : Nat) : Prop :=
  ∀ b, ts.delimiter? i ≠ some (.opening b) ∧ ts.delimiter? i ≠ some (.closing b)

theorem brackets_one (ts : Tokens) (i : Nat) : ts.brackets i (i + 1) =
    match ts.delimiter? i with
    | some (.opening b) => [b.opener]
    | some (.closing b) => [b.closer]
    | _ => [] := by
  rw [brackets_succ, delimiter?]
  cases ts[i]? with
  | none => rfl
  | some t =>
    rw [Option.bind_some, Option.bind_some, Token.bracket?_eq]
    split <;> rfl

theorem brackets_opening (hd : ts.delimiter? i = some (.opening b)) (h : i < j) :
    ts.brackets i j = b.opener :: ts.brackets (i + 1) j := by
  rw [← brackets_append (Nat.le_succ i) h, brackets_one, hd]
  rfl

theorem brackets_closing (hd : ts.delimiter? i = some (.closing b)) (h : i < j) :
    ts.brackets i j = b.closer :: ts.brackets (i + 1) j := by
  rw [← brackets_append (Nat.le_succ i) h, brackets_one, hd]
  rfl

theorem brackets_other (hd : ts.NoBracket i) (h : i < j) :
    ts.brackets i j = ts.brackets (i + 1) j := by
  rw [← brackets_append (Nat.le_succ i) h, brackets_one]
  split
  · exact absurd ‹_› (hd _).1
  · exact absurd ‹_› (hd _).2
  · rfl

/-! The searches. -/

/-- A statement closes what was open in front of it. -/
theorem closing_of_statementEndFrom {first : Nat} {block : Bool} {stack : List (Bracket × Nat)}
    (h : ts.statementEndFrom first stop block stack i = .ok n) :
    Closing (stack.map Prod.fst) (ts.brackets i n) := by
  have hin := (statementEndFrom_bounds h).1
  fun_induction statementEndFrom ts first stop block stack i with
  | case1 stack i hlt hd ih =>
    rw [brackets_other (fun b => by simp [hd]) hin]
    exact ih h (statementEndFrom_bounds h).1
  | case2 stack i hlt b hd ih =>
    rw [brackets_opening hd hin]
    exact (ih h (statementEndFrom_bounds h).1).opener
  | case3 => cases h
  | case4 stack i hlt b hd rest hc he =>
    cases h
    obtain ⟨k, rfl⟩ := of_close hc
    obtain rfl := List.isEmpty_iff.1 he.2.2.1
    rw [brackets_closing hd hin, brackets_self]
    exact (Closing.nil .nil).closer
  | case5 stack i hlt b hd rest hc he ih =>
    obtain ⟨k, rfl⟩ := of_close hc
    rw [brackets_closing hd hin]
    exact (ih h (statementEndFrom_bounds h).1).closer
  | case6 stack i hlt hd he =>
    cases h
    obtain rfl := List.isEmpty_iff.1 he
    rw [brackets_other (fun b => by simp [hd]) hin, brackets_self]
    exact .nil .nil
  | case7 stack i hlt hd he ih =>
    rw [brackets_other (fun b => by simp [hd]) hin]
    exact ih h (statementEndFrom_bounds h).1
  | case8 => cases h
  | case9 => cases h

/-- The bracket that is found closes what was open in front of it. -/
theorem closing_of_matchingFrom {opened : Bracket} {first : Nat} {stack : List (Bracket × Nat)}
    (h : ts.matchingFrom opened first stop stack i = .ok n) :
    Closing (stack.map Prod.fst) (ts.brackets i (n + 1)) := by
  have hin := Nat.lt_succ_of_le (matchingFrom_bounds h).1
  fun_induction matchingFrom ts opened first stop stack i with
  | case1 stack i hlt b hd ih =>
    rw [brackets_opening hd hin]
    exact (ih h (Nat.lt_succ_of_le (matchingFrom_bounds h).1)).opener
  | case2 => cases h
  | case3 stack i hlt b hd rest hc he =>
    cases h
    obtain ⟨k, rfl⟩ := of_close hc
    obtain rfl := List.isEmpty_iff.1 he
    rw [brackets_closing hd hin, brackets_self]
    exact (Closing.nil .nil).closer
  | case4 stack i hlt b hd rest hc he ih =>
    obtain ⟨k, rfl⟩ := of_close hc
    rw [brackets_closing hd hin]
    exact (ih h (Nat.lt_succ_of_le (matchingFrom_bounds h).1)).closer
  | case5 stack i hlt hno hnc ih =>
    rw [brackets_other (fun b => ⟨hno b, hnc b⟩) hin]
    exact ih h (Nat.lt_succ_of_le (matchingFrom_bounds h).1)
  | case6 => cases h

/-! Ranges of tokens. -/

theorem Nests.refl (ts : Tokens) (i : Nat) : ts.Nests i i := by
  rw [Nests, brackets_self]
  exact .nil

theorem Nests.trans (h : ts.Nests i j) (h' : ts.Nests j k) (hij : i ≤ j) (hjk : j ≤ k) :
    ts.Nests i k := by
  rw [Nests, ← brackets_append hij hjk]
  exact h.append h'

theorem nests_statementEnd {block : Bool} (h : ts.statementEnd i stop block = .ok n) :
    ts.Nests i n := by
  cases closing_of_statementEndFrom h with
  | nil h => exact h

theorem nests_matching (h : ts.matching b i stop = .ok n) : ts.Nests i (n + 1) := by
  cases closing_of_matchingFrom h with
  | nil h => exact h

theorem nests_succ (h : ts.NoBracket i) : ts.Nests i (i + 1) := by
  rw [Nests, brackets_other h (Nat.lt_succ_self i), brackets_self]
  exact .nil

theorem not_bracket_of_not_isCode (h : ts.isCode i = false) : ts.NoBracket i := by
  intro b
  by_cases hc : ts.kind? i = some .closeTag
  · rw [delimiter?_of_closeTag hc]
    exact ⟨nofun, nofun⟩
  · rw [delimiter?_of_not_isCode h hc]
    exact ⟨nofun, nofun⟩

theorem not_bracket_of_isName (h : ts.isName i = true) : ts.NoBracket i := by
  intro b
  obtain ⟨⟨kind, text⟩, ht, hk⟩ := Option.map_eq_some_iff.1 (beq_iff_eq.1 h)
  cases hk
  rw [delimiter?, ht]
  exact ⟨(Option.some_ne_none _).symm, (Option.some_ne_none _).symm⟩

theorem not_bracket_of_isPunct {c : Char} (h : ts.isPunct i c = true)
    (hc : ∀ b, Delimiter.ofChar? c ≠ some (.opening b) ∧ Delimiter.ofChar? c ≠ some (.closing b)) :
    ts.NoBracket i := by
  intro b
  rw [delimiter?, isPunct_iff.1 h, Option.bind_some]
  exact hc b

/-- White space, comments and what stands outside of code. -/
theorem nests_of_plain (hij : i ≤ j) (h : ts.Plain i j) : ts.Nests i j := by
  induction hij with
  | refl => exact .refl ts i
  | @step j hij ih =>
    exact (ih fun k hk hkj => h k hk (by omega)).trans
      (nests_succ (not_bracket_of_not_isCode (h j hij (Nat.lt_succ_self j)))) hij (Nat.le_succ j)

theorem nests_significant (hi : i ≤ stop) : ts.Nests i (ts.significant i stop) :=
  nests_of_plain (le_significant hi) (ts.plain_significant i stop)

/-- Up to the next code behind a token that is no bracket. -/
theorem nests_next (h : ts.NoBracket i) (hi : i < stop) :
    ts.Nests i (ts.significant (i + 1) stop) :=
  (nests_succ h).trans (nests_significant hi) (Nat.le_succ i) (le_significant hi)

/-! Declarations. -/

variable {start first : Nat} {r : Node × Nat}

theorem nests_verbatim {block : Bool} (h : ts.verbatim start first stop block = .ok r) :
    ts.Nests first r.2 := by
  unfold verbatim at h
  split at h
  · cases h
  · cases h
    exact nests_statementEnd ‹_›

theorem nests_importDecl (h : ts.importDecl start first stop = .ok r) : ts.Nests first r.2 := by
  unfold importDecl at h
  split at h
  · cases h
  · split at h
    · cases h
      exact nests_statementEnd ‹_›
    · exact nests_verbatim h

theorem nests_skipAttributes (h : ts.skipAttributes i stop = .ok j) (hi : i ≤ stop) :
    ts.Nests i j := by
  fun_induction skipAttributes ts i stop with
  | case1 => cases h
  | case2 i hc closing hm _ _ ih =>
    obtain ⟨hhash, hopen⟩ := Bool.and_eq_true_iff.1 hc
    have hbounds := matching_bounds hm
    have hle := le_of_skipAttributes h
    have hsig : closing + 1 ≤ ts.significant (closing + 1) stop := le_significant (by omega)
    have hattribute := (nests_succ (not_bracket_of_isPunct hhash fun b => by cases b <;> decide)).trans
      (nests_matching hm) (Nat.le_succ i) (by omega)
    refine hattribute.trans ?_ (by omega) (by omega)
    exact (nests_significant (by omega)).trans (ih h (ts.significant_le ..)) hsig hle
  | case3 =>
    cases h
    exact .refl ts _

theorem nests_modifiers (ts : Tokens) (words : List Text) (i stop : Nat) :
    ts.Nests i (ts.modifiers words i stop).2 := by
  fun_induction modifiers ts words i stop with
  | case1 i hlt hw _ _ ih =>
    obtain ⟨w, -, hw⟩ := List.any_eq_true.1 hw
    have hname : ts.isName i = true := (Bool.and_eq_true_iff.1 hw).1
    exact (nests_next (not_bracket_of_isName hname) hlt).trans ih
      (Nat.le_of_succ_le (le_significant hlt)) (ts.le_of_modifiers ..)
  | case2 => exact .refl ts _
  | case3 => exact .refl ts _

theorem nests_classParents {nameAt : Nat} {list? : Option Bool} {bases interfaces : List Text}
    (h : ts.classParents nameAt stop list? i = .ok (bases, interfaces, j)) : ts.Nests i j := by
  have hstep : ∀ {i}, ts.NoBracket i → i < stop → ts.Nests (ts.significant (i + 1) stop) j →
      ts.significant (i + 1) stop ≤ j → ts.Nests i j := fun hno hlt h hle =>
    (nests_next hno hlt).trans h (Nat.le_of_succ_le (le_significant hlt)) hle
  fun_induction classParents ts nameAt stop list? i generalizing bases interfaces with
  | case1 =>
    cases h
    exact .refl ts _
  | case2 list? i hopen hlt next _ hk =>
    rename_i ih
    exact hstep (not_bracket_of_isName (Bool.and_eq_true_iff.1 hk).1) hlt (ih h)
      (le_of_classParents h)
  | case3 list? i hopen hlt next _ hno hk =>
    rename_i ih
    exact hstep (not_bracket_of_isName (Bool.and_eq_true_iff.1 hk).1) hlt (ih h)
      (le_of_classParents h)
  | case4 => cases h
  | case5 i hopen hlt next _ hno hno' hn isInterface e hr =>
    rw [hr] at h
    cases h
  | case6 i hopen hlt next _ hno hno' hn bases' interfaces' k hr =>
    rename_i ih
    rw [hr] at h
    cases h
    exact hstep (not_bracket_of_isName hn) hlt (ih hr) (le_of_classParents hr)
  | case7 i hopen hlt next _ hno hno' hn isInterface bases' interfaces' k hfalse hr =>
    rename_i ih
    rw [hr] at h
    simp only [hfalse] at h
    cases h
    exact hstep (not_bracket_of_isName hn) hlt (ih hr) (le_of_classParents hr)
  | case8 list? i hopen hlt next _ hno hno' hn hk =>
    rename_i ih
    exact hstep (not_bracket_of_isPunct hk fun b => by cases b <;> decide) hlt (ih h)
      (le_of_classParents h)
  | case9 => cases h
  | case10 => cases h

/-- From the keyword on. -/
theorem nests_classDecl {c : ClassStart} (h : ts.classDecl start c stop = .ok r)
    (hkey : ts.isName c.keyword = true)
    (hname : ts.isName (ts.significant (c.keyword + 1) stop) = true) (hc : c.keyword ≤ stop) :
    ts.Nests c.keyword r.2 := by
  have hlt := keyword_lt_of_classDecl h hc
  unfold classDecl at h
  dsimp only at h
  split at h
  · cases h
  rename_i opening hp
  split at h
  · cases h
  rename_i closing hm
  split at h
  · cases h
  cases h
  have hle := le_of_classParents hp
  have hbound := matching_bounds hm
  generalize hk : ts.significant (c.keyword + 1) stop = k at *
  have hmin := ts.min_le_significant (c.keyword + 1) stop
  have hmin' := ts.min_le_significant (k + 1) stop
  have hfront := nests_next (not_bracket_of_isName hkey) (show c.keyword < stop by omega)
  rw [hk] at hfront hmin
  have hmid := nests_next (not_bracket_of_isName hname) (show k < stop by omega)
  have hhead := (hfront.trans hmid (by omega) (by omega)).trans (nests_classParents hp)
    (by omega) hle
  exact hhead.trans (nests_matching hm) (by omega) (by omega)

theorem nests_declaration (h : ts.declaration start first stop = .ok r) (hs : first < stop) :
    ts.Nests first r.2 := by
  unfold declaration at h
  split at h
  · exact nests_importDecl h
  split at h
  · rename_i c hc
    unfold classStart? at hc
    split at hc
    · cases hc
    rename_i head ha
    dsimp only at hc
    split at hc
    · rename_i hnames
      obtain ⟨hname, hname'⟩ := Bool.and_eq_true_iff.1 hnames
      obtain ⟨kind, -, rfl⟩ := Option.map_eq_some_iff.1 hc
      have hhead := skipAttributes_le ha (Nat.le_of_lt hs)
      have hmods := ts.le_of_modifiers classModifiers head stop
      have hmle := ts.modifiers_le classModifiers hhead
      exact ((nests_skipAttributes ha (Nat.le_of_lt hs)).trans
        (nests_modifiers ts classModifiers head stop) (le_of_skipAttributes ha) hmods).trans
          (nests_classDecl h hname hname' hmle) (by have := le_of_skipAttributes ha; omega)
            (Nat.le_of_lt (keyword_lt_of_classDecl h hmle))
    · cases hc
  split at h
  · cases h
  · exact nests_verbatim h

/-! Lists of entries. -/

theorem plain_trailing (ts : Tokens) (i stop : Nat) : ts.Plain i (ts.trailing i stop) := by
  intro k hk hkt
  have hkind : ∀ {k kind}, ts.kind? k = some kind → kind.isCode = false → ts.isCode k = false := by
    intro k kind h hc
    rw [isCode, h, Option.any_some, hc]
  unfold trailing at hkt
  dsimp only at hkt
  split at hkt
  · rename_i hspace
    split at hkt
    · rename_i hc
      rcases Nat.lt_or_eq_of_le hk with hlt | rfl
      · obtain rfl : k = i + 1 := by omega
        exact hkind hc.2 rfl
      · exact hkind (beq_iff_eq.1 (Bool.and_eq_true_iff.1 hspace).1) rfl
    · omega
  · split at hkt
    · rename_i hc
      obtain rfl : k = i := by omega
      exact hkind hc.2 rfl
    · omega

theorem nests_finish (h : ts.Nests first r.2) (hle : first ≤ r.2) :
    ts.Nests first (ts.finish stop r).2 := by
  unfold finish
  split
  · exact h
  · rw [withTrailing_snd]
    have htrail := ts.le_trailing r.2 stop
    exact h.trans (nests_of_plain htrail (ts.plain_trailing r.2 stop)) hle htrail

variable {p : Place} {ns : List Node} {last : Nat}

/-- Entries one behind the other, if each has its brackets closed. -/
theorem Items.nests (h : ts.Items p stop i ns last)
    (hentry : ∀ {start first r}, first < stop → ts.entry p start first stop = .ok r →
      ts.Nests first r.2) : ts.Nests i last := by
  induction h with
  | nil => exact .refl ts _
  | @cons i r ns last hs he h ih =>
    have hi : i ≤ ts.significant i stop := le_firstFrom_of_lt hs
    have hlt := lt_of_entry he hs
    have hfinish := ts.le_finish stop r
    exact ((nests_significant (by omega)).trans (nests_finish (hentry hs he) (Nat.le_of_lt hlt)) hi
      (by omega)).trans ih (by omega) h.le

theorem nests_entry_scope {braced : Bool} (h : ts.entry (.scope braced) start first stop = .ok r)
    (hs : first < stop) : ts.Nests first r.2 := by
  unfold entry at h
  dsimp only at h
  split at h
  · cases h
  · exact nests_declaration h hs

theorem nests_declarations {braced : Bool} (h : ts.declarations braced i stop = .ok (ns, last)) :
    ts.Nests i last :=
  (items_of_declarations h).1.nests fun hs he => nests_entry_scope he hs

theorem nests_scopeHead {keyword : Nat} (h : ts.isNamespace keyword stop = true) :
    ts.Nests keyword (ts.scopeHead keyword stop).2 ∧ keyword ≤ (ts.scopeHead keyword stop).2 := by
  unfold isNamespace at h
  simp only [Bool.and_eq_true, decide_eq_true_eq] at h
  obtain ⟨⟨hkey, hlt⟩, -⟩ := h
  have hle : keyword + 1 ≤ ts.significant (keyword + 1) stop := le_firstFrom_of_lt hlt
  have hfront : ts.Nests keyword (ts.significant (keyword + 1) stop) :=
    nests_next (not_bracket_of_isName (Bool.and_eq_true_iff.1 hkey).1) (by omega)
  unfold scopeHead
  dsimp only
  split
  · rename_i hname
    have hle' : ts.significant (keyword + 1) stop + 1 ≤
        ts.significant (ts.significant (keyword + 1) stop + 1) stop := le_significant hlt
    have hbehind := nests_next (not_bracket_of_isName hname) hlt
    exact ⟨hfront.trans hbehind (by omega) (by omega), by omega⟩
  · exact ⟨hfront, by omega⟩

theorem nests_namespaceDecl {keyword : Nat} (h : ts.namespaceDecl start keyword stop = .ok r)
    (hn : ts.isNamespace keyword stop = true) : ts.Nests keyword r.2 := by
  obtain ⟨hhead, hle⟩ := nests_scopeHead hn
  rcases namespaceDecl_cases h with
    ⟨-, hsemi, children, hd, -⟩ | ⟨-, closing, children, last, hm, -, rfl⟩
  · exact (hhead.trans (nests_succ (not_bracket_of_isPunct hsemi fun b => by cases b <;> decide)) hle
      (Nat.le_succ _)).trans (nests_declarations hd) (by omega) (le_of_declarations hd)
  · exact hhead.trans (nests_matching hm) hle (by have := (matching_bounds hm).1; omega)

/-- A declaration of a file or a namespace. -/
theorem nests_entry (hp : p ≠ .members) (h : ts.entry p start first stop = .ok r)
    (hs : first < stop) : ts.Nests first r.2 := by
  cases p with
  | file =>
    unfold entry at h
    dsimp only at h
    split at h
    · exact nests_namespaceDecl h ‹_›
    · exact nests_declaration h hs
  | scope braced => exact nests_entry_scope h hs
  | members => exact absurd rfl hp

/-- The brackets of a body. -/
theorem nests_statements {sts : List Text} (h : ts.statements i stop = .ok sts) (hi : i ≤ stop) :
    ts.Nests i stop := by
  fun_induction statements ts i stop generalizing sts with
  | case1 => cases h
  | case2 => cases h
  | case3 => cases h
  | case4 i first start hs head ha next he =>
    rename_i rest hrest ih
    have hbounds := statementEnd_bounds he
    have htrail := ts.le_trailing next stop
    have htrail' : ts.trailing next stop ≤ stop := trailing_le hbounds.2
    have hfirst : i ≤ first := le_significant hi
    have hstatement := (nests_significant hi).trans (nests_statementEnd he) hfirst
      (Nat.le_of_lt hbounds.1)
    have hline := hstatement.trans (nests_of_plain htrail (ts.plain_trailing next stop)) (by omega)
      htrail
    exact hline.trans (ih hrest htrail') (by omega) htrail'
  | case5 i first start hs =>
    have hend : first = stop := Nat.le_antisymm (significant_le ..) (Nat.le_of_not_lt hs)
    have hplain : ts.Nests i first := nests_significant hi
    rwa [hend] at hplain

end Tokens
end PhpGraft
