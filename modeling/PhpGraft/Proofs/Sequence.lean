import PhpGraft.Proofs.Placement

/-!
The lists that the parser reads: what stands in a file, in a namespace and in a class. They are read
entry by entry, each entry with the comment that ends its last line.
-/
namespace PhpGraft

/-- Where a list of entries stands. -/
inductive Place where
  | file
  | scope (braced : Bool)
  | members
  deriving DecidableEq

namespace Tokens

/-- The entry that starts at `first`, up to the end of its code. -/
def entry (ts : Tokens) (p : Place) (start first stop : Nat) : Except ParseError (Node × Nat) :=
  match p with
  | .file =>
    if ts.isNamespace first stop then ts.namespaceDecl start first stop
    else ts.declaration start first stop
  | .scope _ =>
    if ts.isNamespace first stop then .error (ts.fault .nestedNamespace first)
    else ts.declaration start first stop
  | .members => ts.member start first stop

/-- The comment that ends its last line belongs to any entry but a namespace. -/
def finish (ts : Tokens) (stop : Nat) (r : Node × Nat) : Node × Nat :=
  if r.1.decl.isScope then r else ts.withTrailing stop r

/-- What ends a list: the end of the range or, without braces around it, the next namespace. -/
def Halts (ts : Tokens) (p : Place) (i stop : Nat) : Prop :=
  ts.significant i stop < stop → p = .scope false ∧ ts.isNamespace (ts.significant i stop) stop = true

/-- Entries that are read one after the other, from one index up to another. -/
inductive Items (ts : Tokens) (p : Place) (stop : Nat) : Nat → List Node → Nat → Prop
  | nil {i} : Items ts p stop i [] i
  | cons {i r ns last} : ts.significant i stop < stop →
      ts.entry p (ts.leading i (ts.significant i stop)) (ts.significant i stop) stop = .ok r →
      Items ts p stop (ts.finish stop r).2 ns last →
      Items ts p stop i ((ts.finish stop r).1 :: ns) last

variable {ts : Tokens} {p : Place} {start first i stop last : Nat} {r : Node × Nat} {ns : List Node}

theorem Items.append {mid : Nat} {ms : List Node} (h : ts.Items p stop i ns mid)
    (h' : ts.Items p stop mid ms last) : ts.Items p stop i (ns ++ ms) last := by
  induction h with
  | nil => exact h'
  | cons hs he _ ih => exact .cons hs he (ih h')

theorem Items.split {ms : List Node} (h : ts.Items p stop i (ns ++ ms) last) :
    ∃ mid, ts.Items p stop i ns mid ∧ ts.Items p stop mid ms last := by
  induction ns generalizing i with
  | nil => exact ⟨i, .nil, h⟩
  | cons n ns ih =>
    cases h with
    | cons hs he h =>
      obtain ⟨mid, h₁, h₂⟩ := ih h
      exact ⟨mid, .cons hs he h₁, h₂⟩

/-! Which entry is a namespace. -/

theorem isScope_of_importDecl (h : ts.importDecl start first stop = .ok r) :
    r.1.decl.isScope = false := by
  unfold importDecl verbatim at h
  split at h
  · cases h
  split at h
  · cases h
    rfl
  · split at h
    · cases h
    · cases h
      rfl

theorem isScope_of_verbatim {block : Bool} (h : ts.verbatim start first stop block = .ok r) :
    r.1.decl.isScope = false := by
  unfold verbatim at h
  split at h
  · cases h
  · cases h
    rfl

theorem isScope_of_declaration (h : ts.declaration start first stop = .ok r) :
    r.1.decl.isScope = false := by
  unfold declaration at h
  split at h
  · exact isScope_of_importDecl h
  split at h
  · unfold classDecl at h
    dsimp only at h
    split at h
    · cases h
    split at h
    · cases h
    split at h
    · cases h
    cases h
    rfl
  split at h
  · cases h
  · exact isScope_of_verbatim h

theorem isScope_of_member (h : ts.member start first stop = .ok r) :
    r.1.decl.isScope = false := by
  unfold member at h
  split at h
  · cases h
  dsimp only at h
  split at h
  · unfold method at h
    dsimp only at h
    split at h
    · cases h
    split at h
    · cases h
    split at h
    · cases h
    split at h
    · cases h
    cases h
    rfl
  · exact isScope_of_verbatim h

theorem isScope_of_namespaceDecl {keyword : Nat} (h : ts.namespaceDecl start keyword stop = .ok r) :
    r.1.decl.isScope = true := by
  unfold namespaceDecl at h
  extract_lets i name? j at h
  split at h
  · split at h
    · cases h
    · cases h
      rfl
  split at h
  · cases h
  split at h
  · cases h
  split at h
  · cases h
  · cases h
    rfl

/-! The parser's loops read entries until one of their ends. -/

theorem members_cons {i stop : Nat} {r : Node × Nat} {rest : List Node}
    (hs : ts.significant i stop < stop)
    (hr : ts.member (ts.leading i (ts.significant i stop)) (ts.significant i stop) stop = .ok r)
    (hrest : ts.members (ts.withTrailing stop r).2 stop = .ok rest) :
    ts.members i stop = .ok ((ts.withTrailing stop r).1 :: rest) := by
  rw [members, dif_pos hs]
  split
  · rename_i hr'
    rw [hr] at hr'
    cases hr'
  · rename_i hr'
    rw [hr] at hr'
    cases hr'
    simp only [hrest]

theorem members_nil {i stop : Nat} (hs : ¬ ts.significant i stop < stop) :
    ts.members i stop = .ok (ts.closingComments i stop) := by
  rw [members, dif_neg hs]

theorem declarations_cons {braced : Bool} {i stop next : Nat} {r : Node × Nat}
    {rest : List Node} (hs : ts.significant i stop < stop)
    (hno : ts.isNamespace (ts.significant i stop) stop = false)
    (hr : ts.declaration (ts.leading i (ts.significant i stop)) (ts.significant i stop) stop = .ok r)
    (hrest : ts.declarations braced (ts.withTrailing stop r).2 stop = .ok (rest, next)) :
    ts.declarations braced i stop = .ok ((ts.withTrailing stop r).1 :: rest, next) := by
  rw [declarations, dif_pos hs, if_neg (by rw [hno]; nofun)]
  split
  · rename_i hr'
    rw [hr] at hr'
    cases hr'
  · rename_i hr'
    rw [hr] at hr'
    cases hr'
    simp only [hrest]

theorem declarations_nil {braced : Bool} {i stop : Nat}
    (hs : ts.significant i stop < stop →
      braced = false ∧ ts.isNamespace (ts.significant i stop) stop = true) :
    ts.declarations braced i stop = .ok ([], i) := by
  rw [declarations]
  split
  · rename_i hlt
    obtain ⟨rfl, hn⟩ := hs hlt
    rw [if_pos hn]
    rfl
  · rfl

theorem fileItems_cons {i stop : Nat} {r : Node × Nat} {rest : List Node}
    (hs : ts.significant i stop < stop)
    (hr : ts.fileItem (ts.leading i (ts.significant i stop)) (ts.significant i stop) stop = .ok r)
    (hrest : ts.fileItems r.2 stop = .ok rest) : ts.fileItems i stop = .ok (r.1 :: rest) := by
  rw [fileItems, dif_pos hs]
  split
  · rename_i hr'
    rw [hr] at hr'
    cases hr'
  · rename_i hr'
    rw [hr] at hr'
    cases hr'
    simp only [hrest]

theorem fileItems_nil {i stop : Nat} (hs : ¬ts.significant i stop < stop) :
    ts.fileItems i stop = .ok [] := by
  rw [fileItems, dif_neg hs]

theorem fileItem_eq (ts : Tokens) (start first stop : Nat) :
    ts.fileItem start first stop = (ts.entry .file start first stop).map (ts.finish stop) := by
  unfold fileItem entry
  split
  · cases h : ts.namespaceDecl start first stop with
    | error => rfl
    | ok r => rw [Except.map, finish, if_pos (isScope_of_namespaceDecl h)]
  · cases h : ts.declaration start first stop with
    | error => rfl
    | ok r => rw [Except.map, finish, isScope_of_declaration h, if_neg Bool.false_ne_true]

theorem items_of_fileItems (h : ts.fileItems i stop = .ok ns) :
    ∃ last, ts.Items .file stop i ns last ∧ ts.Halts .file last stop := by
  fun_induction fileItems ts i stop generalizing ns with
  | case1 => cases h
  | case2 => cases h
  | case3 =>
    rename_i i first hs r hr _ _ rest hrest ih
    cases h
    obtain ⟨last, hitems, hhalts⟩ := ih hrest
    rw [fileItem_eq] at hr
    cases he : ts.entry .file (ts.leading i first) first stop with
    | error e =>
      rw [he] at hr
      cases hr
    | ok q =>
      rw [he] at hr
      cases hr
      exact ⟨last, .cons hs he hitems, hhalts⟩
  | case4 =>
    rename_i i first hs
    cases h
    exact ⟨i, .nil, fun hlt => absurd hlt hs⟩

theorem fileItems_of_items (h : ts.Items .file stop i ns last) (hend : ts.Halts .file last stop) :
    ts.fileItems i stop = .ok ns := by
  induction h with
  | nil =>
    refine fileItems_nil fun hlt => ?_
    cases (hend hlt).1
  | cons hs he _ ih =>
    refine fileItems_cons hs ?_ (ih hend)
    rw [fileItem_eq, he]
    rfl

theorem entry_scope {braced : Bool} (hno : ts.isNamespace first stop = false) :
    ts.entry (.scope braced) start first stop = ts.declaration start first stop := by
  rw [entry, hno]
  rfl

theorem finish_of_declaration (h : ts.declaration start first stop = .ok r) :
    ts.finish stop r = ts.withTrailing stop r := by
  rw [finish, isScope_of_declaration h, if_neg Bool.false_ne_true]

theorem finish_of_member (h : ts.member start first stop = .ok r) :
    ts.finish stop r = ts.withTrailing stop r := by
  rw [finish, isScope_of_member h, if_neg Bool.false_ne_true]

theorem items_of_declarations {braced : Bool}
    (h : ts.declarations braced i stop = .ok (ns, last)) :
    ts.Items (.scope braced) stop i ns last ∧ ts.Halts (.scope braced) last stop := by
  fun_induction declarations ts braced i stop generalizing ns last with
  | case1 => cases h
  | case2 =>
    rename_i i first hs hnamespace hb
    cases h
    exact ⟨.nil, fun _ => ⟨by rw [Bool.eq_false_iff.2 hb], hnamespace⟩⟩
  | case3 => cases h
  | case4 => cases h
  | case5 =>
    rename_i i first hs hnamespace r hr _ _ _ rest hrest ih
    cases h
    obtain ⟨hitems, hhalts⟩ := ih hrest
    have he : ts.entry (.scope braced) (ts.leading i first) first stop = .ok r :=
      (entry_scope (Bool.eq_false_iff.2 hnamespace)).trans hr
    rw [← finish_of_declaration hr] at hitems ⊢
    exact ⟨.cons hs he hitems, hhalts⟩
  | case6 =>
    rename_i i first hs
    cases h
    exact ⟨.nil, fun hlt => absurd hlt hs⟩

theorem declarations_of_items {braced : Bool} (h : ts.Items (.scope braced) stop i ns last)
    (hend : ts.Halts (.scope braced) last stop) : ts.declarations braced i stop = .ok (ns, last) := by
  induction h with
  | nil =>
    refine declarations_nil fun hlt => ?_
    obtain ⟨hb, hn⟩ := hend hlt
    cases hb
    exact ⟨rfl, hn⟩
  | @cons i r ns last hs he _ ih =>
    unfold entry at he
    dsimp only at he
    split at he
    · cases he
    rename_i hno
    rw [finish_of_declaration he] at ih ⊢
    exact declarations_cons hs (Bool.eq_false_iff.2 hno) he (ih hend)

theorem items_of_members (h : ts.members i stop = .ok ns) : ∃ ms last,
    ns = ms ++ ts.closingComments last stop ∧ ts.Items .members stop i ms last ∧
      ts.Halts .members last stop := by
  fun_induction members ts i stop generalizing ns with
  | case1 => cases h
  | case2 => cases h
  | case3 i first hs r hr =>
    rename_i rest hrest ih
    cases h
    obtain ⟨ms, last, rfl, hitems, hhalts⟩ := ih hrest
    rw [← finish_of_member hr] at hitems ⊢
    exact ⟨_ :: ms, last, rfl, .cons hs hr hitems, hhalts⟩
  | case4 =>
    rename_i i first hs
    cases h
    exact ⟨[], i, rfl, .nil, fun hlt => absurd hlt hs⟩

theorem members_of_items (h : ts.Items .members stop i ns last)
    (hend : ts.Halts .members last stop) :
    ts.members i stop = .ok (ns ++ ts.closingComments last stop) := by
  induction h with
  | nil =>
    refine members_nil fun hlt => ?_
    cases (hend hlt).1
  | @cons i r ns last hs he _ ih =>
    rw [finish_of_member he] at ih ⊢
    exact members_cons hs he (ih hend)

/-! Namespaces. -/

/-- The name of a namespace, if it has one, and where its semicolon or its brace stands. -/
def scopeHead (ts : Tokens) (keyword stop : Nat) : Option Text × Nat :=
  let i := ts.significant (keyword + 1) stop
  if ts.isName i then (some (ts.text i), ts.significant (i + 1) stop) else (none, i)

theorem namespaceDecl_eq (ts : Tokens) (start keyword stop : Nat) :
    ts.namespaceDecl start keyword stop =
      if (ts.scopeHead keyword stop).1.isSome && ts.isPunct (ts.scopeHead keyword stop).2 ';' then
        (ts.declarations false ((ts.scopeHead keyword stop).2 + 1) stop).map fun q =>
          (.ofSource (.scope (ts.scopeHead keyword stop).1 false) ⟨start, q.2⟩
            (some ⟨(ts.scopeHead keyword stop).2 + 1, q.2⟩) q.1, q.2)
      else if !ts.isPunct (ts.scopeHead keyword stop).2 '{' then
        .error (ts.fault .missingNamespaceBody (ts.scopeHead keyword stop).2)
      else (ts.matching .curly (ts.scopeHead keyword stop).2 stop).bind fun closing =>
        (ts.declarations true ((ts.scopeHead keyword stop).2 + 1) closing).map fun q =>
          (.ofSource (.scope (ts.scopeHead keyword stop).1 true) ⟨start, closing + 1⟩
            (some ⟨(ts.scopeHead keyword stop).2 + 1, closing⟩) q.1, closing + 1) := by
  have hname : (if ts.isName (ts.significant (keyword + 1) stop) then
      some (ts.text (ts.significant (keyword + 1) stop)) else none) =
        (ts.scopeHead keyword stop).1 := by
    unfold scopeHead
    dsimp only
    split <;> rfl
  have hbody : (if (ts.scopeHead keyword stop).1.isSome then
      ts.significant (ts.significant (keyword + 1) stop + 1) stop
      else ts.significant (keyword + 1) stop) = (ts.scopeHead keyword stop).2 := by
    unfold scopeHead
    dsimp only
    split <;> rfl
  unfold namespaceDecl
  simp only [hname, hbody]
  split
  · cases ts.declarations false ((ts.scopeHead keyword stop).2 + 1) stop <;> rfl
  split
  · rfl
  · cases ts.matching .curly (ts.scopeHead keyword stop).2 stop with
    | error e => rfl
    | ok closing =>
      simp only [Except.bind]
      cases ts.declarations true ((ts.scopeHead keyword stop).2 + 1) closing <;> rfl

/-- How a namespace was read. -/
theorem namespaceDecl_cases {keyword : Nat} (h : ts.namespaceDecl start keyword stop = .ok r) :
    ((ts.scopeHead keyword stop).1.isSome = true ∧
      ts.isPunct (ts.scopeHead keyword stop).2 ';' = true ∧
        ∃ children, ts.declarations false ((ts.scopeHead keyword stop).2 + 1) stop = .ok (children, r.2) ∧
          r.1 = .ofSource (.scope (ts.scopeHead keyword stop).1 false) ⟨start, r.2⟩
            (some ⟨(ts.scopeHead keyword stop).2 + 1, r.2⟩) children) ∨
      ts.isPunct (ts.scopeHead keyword stop).2 '{' = true ∧
        ∃ closing children last, ts.matching .curly (ts.scopeHead keyword stop).2 stop = .ok closing ∧
          ts.declarations true ((ts.scopeHead keyword stop).2 + 1) closing = .ok (children, last) ∧
          r = (.ofSource (.scope (ts.scopeHead keyword stop).1 true) ⟨start, closing + 1⟩
            (some ⟨(ts.scopeHead keyword stop).2 + 1, closing⟩) children, closing + 1) := by
  rw [namespaceDecl_eq] at h
  split at h
  · rename_i hsemi
    obtain ⟨hname, hsemi⟩ := Bool.and_eq_true_iff.1 hsemi
    cases hd : ts.declarations false ((ts.scopeHead keyword stop).2 + 1) stop with
    | error e =>
      rw [hd] at h
      cases h
    | ok q =>
      rw [hd] at h
      cases h
      exact .inl ⟨hname, hsemi, _, rfl, rfl⟩
  split at h
  · cases h
  rename_i hbrace
  rw [Bool.not_eq_true', Bool.not_eq_false] at hbrace
  refine .inr ⟨hbrace, ?_⟩
  cases hm : ts.matching .curly (ts.scopeHead keyword stop).2 stop with
  | error e =>
    rw [hm] at h
    cases h
  | ok closing =>
    rw [hm] at h
    simp only [Except.bind] at h
    cases hd : ts.declarations true ((ts.scopeHead keyword stop).2 + 1) closing with
    | error e =>
      rw [hd] at h
      cases h
    | ok q =>
      rw [hd] at h
      cases h
      exact ⟨closing, _, _, rfl, hd, rfl⟩

theorem namespaceDecl_statement {keyword next : Nat} {children : List Node}
    (hname : (ts.scopeHead keyword stop).1.isSome = true)
    (hsemi : ts.isPunct (ts.scopeHead keyword stop).2 ';' = true)
    (h : ts.declarations false ((ts.scopeHead keyword stop).2 + 1) stop = .ok (children, next)) :
    ts.namespaceDecl start keyword stop =
      .ok (.ofSource (.scope (ts.scopeHead keyword stop).1 false) ⟨start, next⟩
        (some ⟨(ts.scopeHead keyword stop).2 + 1, next⟩) children, next) := by
  rw [namespaceDecl_eq, hname, hsemi, Bool.and_self, if_pos rfl, h]
  rfl

theorem namespaceDecl_block {keyword closing : Nat} {children : List Node}
    (hbrace : ts.isPunct (ts.scopeHead keyword stop).2 '{' = true)
    (hm : ts.matching .curly (ts.scopeHead keyword stop).2 stop = .ok closing)
    (h : ts.declarations true ((ts.scopeHead keyword stop).2 + 1) closing = .ok (children, last)) :
    ts.namespaceDecl start keyword stop =
      .ok (.ofSource (.scope (ts.scopeHead keyword stop).1 true) ⟨start, closing + 1⟩
        (some ⟨(ts.scopeHead keyword stop).2 + 1, closing⟩) children, closing + 1) := by
  rw [namespaceDecl_eq, not_isPunct_of_ne hbrace (by decide), Bool.and_false,
    if_neg Bool.false_ne_true, hbrace, Bool.not_true, if_neg Bool.false_ne_true, hm]
  simp only [Except.bind, h]
  rfl

/-! Where entries end. -/

theorem lt_of_entry (h : ts.entry p start first stop = .ok r) (hs : first < stop) : first < r.2 := by
  unfold entry at h
  split at h
  · split at h
    · exact lt_of_namespaceDecl h hs
    · exact lt_of_declaration h hs
  · split at h
    · cases h
    · exact lt_of_declaration h hs
  · exact lt_of_member h hs

theorem le_finish (ts : Tokens) (stop : Nat) (r : Node × Nat) : r.2 ≤ (ts.finish stop r).2 := by
  unfold finish
  split
  · exact Nat.le_refl _
  · exact ts.le_withTrailing stop r

theorem stands_entry (h : ts.entry p start first stop = .ok r) (hs : start ≤ first)
    (hlt : first < stop) (hsize : stop ≤ ts.size) (hend : ts.isPunct stop ';' = false) :
    Stands ts start stop r := by
  unfold entry at h
  split at h
  · split at h
    · exact stands_namespaceDecl h hs hlt hsize hend
    · exact stands_declaration h hs hlt hsize
  · split at h
    · cases h
    · exact stands_declaration h hs hlt hsize
  · exact stands_member h hs hlt hsize hend

theorem stands_finish (h : Stands ts start stop r) (hsize : stop ≤ ts.size) :
    Stands ts start stop (ts.finish stop r) := by
  unfold finish
  split
  · exact h
  · exact stands_withTrailing h hsize

theorem Items.le (h : ts.Items p stop i ns last) : i ≤ last := by
  induction h with
  | nil => exact Nat.le_refl _
  | @cons i r ns last hs he _ ih =>
    have hlt := lt_of_entry he hs
    have hle := ts.le_finish stop r
    have hi : i ≤ ts.significant i stop := le_firstFrom_of_lt hs
    omega

theorem Items.le_stop (h : ts.Items p stop i ns last) (hi : i ≤ stop) (hsize : stop ≤ ts.size)
    (hend : ts.isPunct stop ';' = false) : last ≤ stop := by
  induction h with
  | nil => exact hi
  | @cons i r ns last hs he _ ih =>
    exact ih (stands_finish (stands_entry he (ts.leading_le i _) hs hsize hend) hsize).le_stop

end Tokens
end PhpGraft
