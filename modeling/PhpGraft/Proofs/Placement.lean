import PhpGraft.Layout
import PhpGraft.Proofs.Search

/-!
Where the nodes of a parsed file stand. The tokens of a node enclose those of its body, the children
stand in the body one behind the other, and only loose tokens stand in front of a child.
-/
namespace PhpGraft

/-- How the body of a container lies in its span when its last child ends at `last`. -/
structure Encloses (ts : Tokens) (decl : Decl) (span body : Span) (last : Nat) : Prop where
  start_le : span.start ≤ body.start
  opened : ∃ k, body.start = k + 1 ∧ ts.isComment k = false
  last_le : last ≤ body.stop
  stop_le : body.stop ≤ span.stop
  nonempty : span.start < span.stop
  le_size : span.stop ≤ ts.size
  plain : ts.Plain last body.stop
  loose : decl.isClass = true → ts.Loose last body.stop
  braces : Container.ofDecl decl = .block →
    span.start < body.start ∧ ts.isPunct (body.start - 1) '{' = true ∧
      body.stop < span.stop ∧ ts.isPunct body.stop '}' = true

mutual

inductive Placed (ts : Tokens) : Node → Prop
  | leaf {id decl span} : decl.isContainer = false → span.start < span.stop → span.stop ≤ ts.size →
      Placed ts ⟨id, .anchored ⟨span, none⟩, decl, []⟩
  | container {id decl span body children last} : decl.isContainer = true →
      Siblings ts body.start children last → Encloses ts decl span body last →
      Placed ts ⟨id, .anchored ⟨span, some body⟩, decl, children⟩

/-- Nodes that stand one behind the other from one index up to another. -/
inductive Siblings (ts : Tokens) : Nat → List Node → Nat → Prop
  | nil {i} : Siblings ts i [] i
  | cons {i n a ns last} : n.origin = .anchored a → i ≤ a.span.start → ts.Loose i a.span.start →
      Placed ts n → Siblings ts a.span.stop ns last → Siblings ts i (n :: ns) last

end

/-- Induction on a node and its children; `Q` is what is shown of siblings. -/
@[elab_as_elim]
theorem Placed.induct {ts : Tokens} {motive : ∀ n, Placed ts n → Prop}
    {Q : ∀ i ns last, Siblings ts i ns last → Prop}
    (leaf : ∀ {id decl span} (hd : decl.isContainer = false) (hs : span.start < span.stop)
      (hsize : span.stop ≤ ts.size), motive ⟨id, .anchored ⟨span, none⟩, decl, []⟩ (.leaf hd hs hsize))
    (container : ∀ {id decl span body children last} (hd : decl.isContainer = true)
      (hs : Siblings ts body.start children last) (he : Encloses ts decl span body last),
      Q _ _ _ hs → motive ⟨id, .anchored ⟨span, some body⟩, decl, children⟩ (.container hd hs he))
    (nil : ∀ {i}, Q i [] i .nil)
    (cons : ∀ {i n a ns last} (ho : n.origin = .anchored a) (hi : i ≤ a.span.start)
      (hl : ts.Loose i a.span.start) (hp : Placed ts n) (hs : Siblings ts a.span.stop ns last),
      motive n hp → Q _ _ _ hs → Q i (n :: ns) last (.cons ho hi hl hp hs))
    {n : Node} (h : Placed ts n) : motive n h :=
  @Placed.rec ts motive Q leaf container nil cons n h

theorem Placed.start_lt {ts : Tokens} {n : Node} {a : Anchor} (h : Placed ts n)
    (ho : n.origin = .anchored a) : a.span.start < a.span.stop := by
  cases h with
  | leaf _ hs _ => cases ho; exact hs
  | container _ _ he => cases ho; exact he.nonempty

theorem Siblings.le {ts : Tokens} {i last : Nat} {ns : List Node} (h : Siblings ts i ns last) :
    i ≤ last := by
  induction ns generalizing i with
  | nil =>
    cases h
    exact Nat.le_refl _
  | cons n ns ih =>
    cases h with
    | cons ho hi _ hp hs =>
      exact Nat.le_trans hi (Nat.le_trans (Nat.le_of_lt (hp.start_lt ho)) (ih hs))

theorem Siblings.split {ts : Tokens} {i last : Nat} {ns ms : List Node}
    (h : Siblings ts i (ns ++ ms) last) : ∃ mid, Siblings ts i ns mid ∧ Siblings ts mid ms last := by
  induction ns generalizing i with
  | nil => exact ⟨i, .nil, h⟩
  | cons n ns ih =>
    cases h with
    | cons ho hi hl hp hs =>
      obtain ⟨mid, h1, h2⟩ := ih hs
      exact ⟨mid, .cons ho hi hl hp h1, h2⟩

theorem Siblings.placed {ts : Tokens} {i last : Nat} {ns : List Node} (h : Siblings ts i ns last) :
    ∀ n ∈ ns, Placed ts n := by
  induction ns generalizing i with
  | nil => exact fun n hn => nomatch hn
  | cons m ns ih =>
    cases h with
    | cons _ _ _ hp hs =>
      intro n hn
      rcases List.mem_cons.1 hn with rfl | hn
      · exact hp
      · exact ih hs n hn

theorem Siblings.bounds {ts : Tokens} {i last : Nat} {ns : List Node} {n : Node} {a : Anchor}
    (h : Siblings ts i ns last) (hn : n ∈ ns) (ho : n.origin = .anchored a) :
    i ≤ a.span.start ∧ a.span.stop ≤ last := by
  obtain ⟨before, behind, rfl⟩ := List.append_of_mem hn
  obtain ⟨mid, hbefore, hs⟩ := h.split
  cases hs with
  | cons ho' hi _ _ hs =>
    obtain rfl := Origin.anchored.inj (ho'.symm.trans ho)
    exact ⟨Nat.le_trans hbefore.le hi, hs.le⟩

theorem Placed.anchor {ts : Tokens} {n : Node} (h : Placed ts n) : ∃ a, n.origin = .anchored a := by
  cases h <;> exact ⟨_, rfl⟩

/-- A node with children has a body that they stand in. -/
theorem Placed.body {ts : Tokens} {n c : Node} (h : Placed ts n) (hc : c ∈ n.children) :
    ∃ span body last, n.origin = .anchored ⟨span, some body⟩ ∧
      Siblings ts body.start n.children last ∧ Encloses ts n.decl span body last := by
  cases h with
  | leaf => cases hc
  | container _ hs he => exact ⟨_, _, _, rfl, hs, he⟩

/-- The tokens of a node enclose those of the nodes below it. -/
theorem Placed.bounds {ts : Tokens} {p n : Node} {a b : Anchor} {path : List Nat}
    (h : Placed ts p) (hn : p.at? path = some n) (hb : p.origin = .anchored b)
    (ha : n.origin = .anchored a) : b.span.start ≤ a.span.start ∧ a.span.stop ≤ b.span.stop := by
  induction path generalizing p b with
  | nil =>
    cases hn
    obtain rfl := Origin.anchored.inj (hb.symm.trans ha)
    exact ⟨Nat.le_refl _, Nat.le_refl _⟩
  | cons i path ih =>
    obtain ⟨m, hm, hnode⟩ := Option.bind_eq_some_iff.1 hn
    cases h with
    | leaf => cases hm
    | container _ hs he =>
      cases hb
      have hmem := List.mem_of_getElem? hm
      obtain ⟨c, hc⟩ := (hs.placed m hmem).anchor
      have hout := hs.bounds hmem hc
      have hin := ih (hs.placed m hmem) hnode hc
      exact ⟨Nat.le_trans he.start_le (Nat.le_trans hout.1 hin.1),
        Nat.le_trans hin.2 (Nat.le_trans hout.2 (Nat.le_trans he.last_le he.stop_le))⟩

theorem Placed.at? {ts : Tokens} {p n : Node} {path : List Nat} (h : Placed ts p)
    (hn : p.at? path = some n) : Placed ts n := by
  induction path generalizing p with
  | nil =>
    cases hn
    exact h
  | cons i path ih =>
    obtain ⟨m, hm, hnode⟩ := Option.bind_eq_some_iff.1 hn
    cases h with
    | leaf => cases hm
    | container _ hs _ => exact ih (hs.placed m (List.mem_of_getElem? hm)) hnode

/-- Where the last of the nodes ends. -/
def Node.lastStop (start : Nat) (ns : List Node) : Nat :=
  ((ns.getLast?.bind (·.origin.anchor?)).map (·.span.stop)).getD start

theorem Siblings.last_eq {ts : Tokens} {i last : Nat} {ns : List Node} (h : Siblings ts i ns last) :
    last = Node.lastStop i ns := by
  induction ns generalizing i with
  | nil =>
    cases h
    rfl
  | cons n ns ih =>
    cases h with
    | cons ho _ _ _ hs =>
      rw [ih hs, Node.lastStop, Node.lastStop, List.getLast?_cons]
      cases hl : ns.getLast? with
      | none => simp [ho, Origin.anchor?]
      | some m =>
        obtain ⟨a, ha⟩ := (hs.placed m (List.mem_of_getLast? hl)).anchor
        simp [ha, Origin.anchor?]

/-- What is read from `start` on is a node that ends where reading goes on. -/
structure Stands (ts : Tokens) (start stop : Nat) (r : Node × Nat) : Prop where
  placed : Placed ts r.1
  origin : ∃ body?, r.1.origin = .anchored ⟨⟨start, r.2⟩, body?⟩
  le_stop : r.2 ≤ stop

namespace Tokens

variable {ts : Tokens} {start first i stop : Nat} {r : Node × Nat}

theorem stands_verbatim {block : Bool} (h : ts.verbatim start first stop block = .ok r)
    (hs : start ≤ first) (hsize : stop ≤ ts.size) : Stands ts start stop r := by
  unfold verbatim at h
  split at h
  · cases h
  · rename_i next he
    have hn := statementEnd_bounds he
    cases h
    exact ⟨.leaf rfl (show start < next by omega) (show next ≤ ts.size by omega), ⟨_, rfl⟩, hn.2⟩

theorem stands_importDecl (h : ts.importDecl start first stop = .ok r) (hs : start ≤ first)
    (hsize : stop ≤ ts.size) : Stands ts start stop r := by
  unfold importDecl at h
  split at h
  · cases h
  rename_i next he
  split at h
  · have hn := statementEnd_bounds he
    cases h
    exact ⟨.leaf rfl (show start < next by omega) (show next ≤ ts.size by omega), ⟨_, rfl⟩, hn.2⟩
  · exact stands_verbatim h hs hsize

theorem methodBody_le {next : Nat} {body? : Option (List Text)}
    (h : ts.methodBody i stop = .ok (body?, next)) (hi : i ≤ stop)
    (hend : ts.isPunct stop ';' = false) : next ≤ stop := by
  have := @matching_bounds ts .curly i stop
  unfold methodBody at h
  grind

theorem returnType_le (ts : Tokens) (hi : i ≤ stop) : (ts.returnType i stop).2 ≤ stop := by
  have := fun p => firstFrom_le p (i + 1) stop
  unfold returnType
  grind

theorem stands_method {function : Nat} {modifiers : List Text}
    (h : ts.method start first function modifiers stop = .ok r) (hs : start ≤ first)
    (hf : first ≤ function) (hlt : first < stop) (hsize : stop ≤ ts.size)
    (hend : ts.isPunct stop ';' = false) : Stands ts start stop r := by
  obtain ⟨n, next⟩ := r
  have hn := lt_of_method h hf hlt
  unfold method at h
  dsimp only at h
  split at h
  · cases h
  split at h
  · cases h
  split at h
  · cases h
  rename_i closing _
  split at h
  · cases h
  rename_i hb
  have hb := methodBody_le hb (ts.returnType_le (ts.significant_le (closing + 1) stop)) hend
  cases h
  exact ⟨.leaf rfl (Nat.lt_of_le_of_lt hs hn) (Nat.le_trans hb hsize), ⟨_, rfl⟩, hb⟩

theorem stands_member (h : ts.member start first stop = .ok r) (hs : start ≤ first)
    (hlt : first < stop) (hsize : stop ≤ ts.size) (hend : ts.isPunct stop ';' = false) :
    Stands ts start stop r := by
  unfold member at h
  split at h
  · cases h
  rename_i i hi
  dsimp only at h
  split at h
  · exact stands_method h hs (Nat.le_trans (le_of_skipAttributes hi) (le_of_modifiers ..)) hlt
      hsize hend
  · exact stands_verbatim h hs hsize

/-- A comment that ends the line widens the node in front of it. -/
theorem stands_withTrailing (h : Stands ts start stop r) (hsize : stop ≤ ts.size) :
    Stands ts start stop (ts.withTrailing stop r) := by
  obtain ⟨⟨id, origin, decl, children⟩, next⟩ := r
  obtain ⟨hp, ⟨body?, ho⟩, hle⟩ := h
  dsimp only at ho hp hle
  subst ho
  have hl := ts.le_trailing next stop
  have hr : ts.trailing next stop ≤ stop := trailing_le hle
  have hm : max next (ts.trailing next stop) = ts.trailing next stop := Nat.max_eq_right hl
  refine ⟨?_, ⟨body?, ?_⟩, hr⟩
  · simp only [Tokens.withTrailing, hm]
    cases hp with
    | leaf hd hn _ => exact .leaf hd (Nat.lt_of_lt_of_le hn hl) (Nat.le_trans hr hsize)
    | container hd hc he =>
      refine .container hd hc ⟨he.start_le, he.opened, he.last_le, Nat.le_trans he.stop_le hl,
        Nat.lt_of_lt_of_le he.nonempty hl, Nat.le_trans hr hsize, he.plain, he.loose, fun hb => ?_⟩
      obtain ⟨h1, h2, h3, h4⟩ := he.braces hb
      exact ⟨h1, h2, Nat.lt_of_lt_of_le h3 hl, h4⟩
  · simp only [Tokens.withTrailing, hm]

/-- What is put in front of more siblings. -/
theorem siblings_of_stands {ns : List Node} {last : Nat} (h : Stands ts start stop r)
    (hi : i ≤ start) (hl : ts.Loose i start) (hns : Siblings ts r.2 ns last) :
    Siblings ts i (r.1 :: ns) last := by
  obtain ⟨body?, ho⟩ := h.origin
  exact .cons ho hi hl h.placed hns

theorem not_isComment_of_dropWhile {start k : Nat}
    (hk : start + ((ts.extract start stop).toList.reverse.dropWhile
      (!·.kind.isComment)).length ≤ k) (hstop : k < stop) (hsize : stop ≤ ts.size) :
    ts.isComment k = false := by
  generalize hl : (ts.extract start stop).toList = l at hk
  have hsplit := congrArg List.reverse
    (List.takeWhile_append_dropWhile (p := fun t : Token => !t.kind.isComment) (l := l.reverse))
  rw [List.reverse_append, List.reverse_reverse] at hsplit
  have hlen : l.length = stop - start := by
    rw [← hl, Array.length_toList, Array.size_extract]
    omega
  have hget : l[k - start]? = ts[k]? := by
    rw [← hl, Array.getElem?_toList, Array.getElem?_extract]
    simp only [show k - start < min stop ts.size - start by omega, if_true]
    congr 1
    omega
  rw [← hsplit, List.getElem?_append_right (by rw [List.length_reverse]; omega)] at hget
  have hlt : k < ts.size := by omega
  rw [Array.getElem?_eq_getElem hlt] at hget
  have hmem := List.mem_of_getElem? hget
  rw [List.mem_reverse] at hmem
  have := List.all_eq_true.1 List.all_takeWhile _ hmem
  simp only [Bool.not_eq_true'] at this
  simp [isComment, kind?, Array.getElem?_eq_getElem hlt, this]

theorem dropWhile_extract_le (ts : Tokens) (p : Token → Bool) (i stop : Nat) :
    ((ts.extract i stop).toList.reverse.dropWhile p).length ≤ stop - i := by
  refine Nat.le_trans (List.dropWhile_suffix _).length_le ?_
  rw [List.length_reverse, Array.length_toList, Array.size_extract]
  omega

theorem siblings_closingComments (hplain : ts.Plain i stop) (hi : i ≤ stop)
    (hsize : stop ≤ ts.size) : ∃ last, Siblings ts i (ts.closingComments i stop) last ∧
      last ≤ stop ∧ ts.Loose last stop := by
  have hstart : i ≤ ts.leading i stop := le_leading hi
  have hle := ts.leading_le i stop
  have hlead : ∀ k, i ≤ k → k < ts.leading i stop → ts.isComment k = false :=
    fun k => not_of_lt_firstFrom
  have hrest := fun k => @not_isComment_of_dropWhile ts stop (ts.leading i stop) k
  have hsz := ts.dropWhile_extract_le (!·.kind.isComment) (ts.leading i stop) stop
  unfold closingComments
  dsimp only
  generalize ((ts.extract (ts.leading i stop) stop).toList.reverse.dropWhile
    (!·.kind.isComment)).length = size at hrest hsz
  split
  · refine ⟨i, .nil, hi, fun k hk hs => ⟨hplain k hk hs, ?_⟩⟩
    rcases Nat.lt_or_ge k (ts.leading i stop) with h | h
    · exact hlead k hk h
    · exact hrest k (by omega) hs hsize
  · refine ⟨ts.leading i stop + size, ?_, by omega,
      fun k hk hs => ⟨hplain k (by omega) hs, hrest k hk hs hsize⟩⟩
    refine .cons rfl hstart (fun k hk hs => ⟨hplain k hk ?_, hlead k hk hs⟩)
      (.leaf rfl ?_ ?_) .nil
    · exact Nat.lt_of_lt_of_le hs hle
    · exact Nat.lt_add_of_pos_right (by omega)
    · show ts.leading i stop + size ≤ ts.size
      omega

theorem siblings_members {children : List Node} (h : ts.members i stop = .ok children)
    (hi : i ≤ stop) (hsize : stop ≤ ts.size) (hend : ts.isPunct stop ';' = false) :
    ∃ last, Siblings ts i children last ∧ last ≤ stop ∧ ts.Loose last stop := by
  fun_induction members ts i stop generalizing children with
  | case1 => cases h
  | case2 => cases h
  | case3 =>
    rename_i i first hs r hr _ _ _ rest hrest ih
    have hfirst : i ≤ ts.significant i stop := le_significant hi
    have hr := stands_withTrailing (stands_member hr (ts.leading_le i _) hs hsize hend) hsize
    obtain ⟨last, hrest, hlast⟩ := ih hrest hr.le_stop
    cases h
    exact ⟨last, siblings_of_stands hr (le_leading hfirst) (ts.loose_leading i stop) hrest, hlast⟩
  | case4 =>
    rename_i i first hs
    cases h
    have hplain := ts.plain_significant i stop
    have hle := ts.significant_le i stop
    refine siblings_closingComments (fun k hk hks => hplain k hk ?_) hi hsize
    omega

theorem classParents_opens {nameAt j : Nat} {list? : Option Bool} {bases interfaces : List Text}
    (h : ts.classParents nameAt stop list? i = .ok (bases, interfaces, j)) :
    ts.isPunct j '{' = true := by
  fun_induction classParents ts nameAt stop list? i generalizing bases interfaces <;> grind

theorem stands_classDecl {c : ClassStart} (h : ts.classDecl start c stop = .ok r)
    (hs : start ≤ c.keyword) (hlt : start < stop) (hsize : stop ≤ ts.size) :
    Stands ts start stop r := by
  unfold classDecl at h
  dsimp only at h
  split at h
  · cases h
  rename_i bases interfaces opening hp
  split at h
  · cases h
  rename_i closing hm
  split at h
  · cases h
  rename_i children hch
  have hopen := classParents_opens hp
  have hclose := matching_closes (b := .curly) hopen hm
  have hbound := matching_bounds hm
  have hstart : start ≤ opening := by
    have := le_of_classParents hp
    have := ts.min_le_significant (c.keyword + 1) stop
    have := ts.min_le_significant (ts.significant (c.keyword + 1) stop + 1) stop
    omega
  obtain ⟨last, hsib, hlast, hloose⟩ := siblings_members hch hclose.1 (by omega)
    (not_isPunct_of_ne hclose.2 (by decide))
  cases h
  refine ⟨.container rfl hsib ⟨?_, ⟨opening, rfl, not_isComment_of_isPunct hopen⟩, hlast, ?_, ?_, ?_,
    hloose.plain, fun _ => hloose, fun _ => ?_⟩, ⟨_, rfl⟩, hbound.2⟩
  · exact Nat.le_succ_of_le hstart
  · exact Nat.le_succ _
  · exact Nat.lt_succ_of_le (Nat.le_trans hstart hbound.1)
  · exact Nat.le_trans hbound.2 hsize
  · exact ⟨Nat.lt_succ_of_le hstart, hopen, Nat.lt_succ_self _, hclose.2⟩

theorem stands_declaration (h : ts.declaration start first stop = .ok r) (hs : start ≤ first)
    (hlt : first < stop) (hsize : stop ≤ ts.size) : Stands ts start stop r := by
  unfold declaration at h
  split at h
  · exact stands_importDecl h hs hsize
  split at h
  · rename_i c hc
    exact stands_classDecl h (Nat.le_trans hs (le_of_classStart? hc)) (by omega) hsize
  split at h
  · cases h
  · exact stands_verbatim h hs hsize

theorem siblings_declarations {braced : Bool} {ns : List Node} {next : Nat}
    (h : ts.declarations braced i stop = .ok (ns, next)) (hi : i ≤ stop) (hsize : stop ≤ ts.size) :
    Siblings ts i ns next ∧ next ≤ stop ∧ (braced = true → ts.Plain next stop) := by
  fun_induction declarations ts braced i stop generalizing ns next with
  | case1 => cases h
  | case2 =>
    rename_i hb
    cases h
    exact ⟨.nil, hi, fun h => absurd h hb⟩
  | case3 => cases h
  | case4 => cases h
  | case5 =>
    rename_i i first hs _ r hr _ _ _ rest hrest ih
    have hfirst : i ≤ ts.significant i stop := le_significant hi
    have hr := stands_withTrailing (stands_declaration hr (ts.leading_le i _) hs hsize) hsize
    obtain ⟨hsib, hle⟩ := ih hrest hr.le_stop
    cases h
    exact ⟨siblings_of_stands hr (le_leading hfirst) (ts.loose_leading i stop) hsib, hle⟩
  | case6 =>
    rename_i i first hs
    cases h
    have hplain := ts.plain_significant i stop
    refine ⟨.nil, hi, fun _ k hk hks => hplain k hk ?_⟩
    omega

theorem stands_namespaceDecl {keyword : Nat} (h : ts.namespaceDecl start keyword stop = .ok r)
    (hs : start ≤ keyword) (hlt : keyword < stop) (hsize : stop ≤ ts.size)
    (hend : ts.isPunct stop ';' = false) : Stands ts start stop r := by
  obtain ⟨n, next⟩ := r
  have hn := lt_of_namespaceDecl h hlt
  unfold namespaceDecl at h
  extract_lets i name? j at h
  have hij : start < j := by
    have := ts.min_le_significant (keyword + 1) stop
    have := ts.min_le_significant (i + 1) stop
    have : start < i := by omega
    simp only [j]
    split <;> omega
  have hj : j ≤ stop := by
    simp only [j]
    split
    · exact ts.significant_le ..
    · exact ts.significant_le ..
  split at h
  · rename_i hsemi
    obtain ⟨hname, hsemi⟩ := Bool.and_eq_true_iff.1 hsemi
    obtain ⟨name, hname⟩ := Option.isSome_iff_exists.1 hname
    have hlt : j < stop := by
      refine Nat.lt_of_le_of_ne hj fun he => ?_
      rw [he, hend] at hsemi
      cases hsemi
    split at h
    · cases h
    rename_i children next' hd
    obtain ⟨hsib, hle, -⟩ := siblings_declarations hd hlt hsize
    have := le_of_declarations hd
    cases h
    refine ⟨.container rfl hsib ⟨?_, ⟨j, rfl, not_isComment_of_isPunct hsemi⟩, Nat.le_refl _,
      Nat.le_refl _, ?_, ?_, ?_, fun hd => absurd hd Bool.false_ne_true, ?_⟩, ⟨_, rfl⟩, hle⟩
    · exact Nat.le_succ_of_le (Nat.le_of_lt hij)
    · exact Nat.lt_of_le_of_lt hs hn
    · exact Nat.le_trans hle hsize
    · exact fun k hk hks => absurd hks (Nat.not_lt_of_le hk)
    · rw [hname]
      intro hblock
      cases hblock
  split at h
  · cases h
  rename_i hopen
  simp only [Bool.not_eq_true', Bool.not_eq_false] at hopen
  split at h
  · cases h
  rename_i closing hm
  split at h
  · cases h
  rename_i children _ hd
  have hclose := matching_closes (b := .curly) hopen hm
  have hbound := matching_bounds hm
  obtain ⟨hsib, hle, hplain⟩ := siblings_declarations hd hclose.1 (by omega)
  cases h
  refine ⟨.container rfl hsib ⟨?_, ⟨j, rfl, not_isComment_of_isPunct hopen⟩, hle, ?_, ?_, ?_,
    hplain rfl, fun hd => absurd hd Bool.false_ne_true, fun _ => ?_⟩, ⟨_, rfl⟩, hbound.2⟩
  · exact Nat.le_succ_of_le (Nat.le_of_lt hij)
  · exact Nat.le_succ _
  · exact Nat.lt_of_le_of_lt hs hn
  · exact Nat.le_trans hbound.2 hsize
  · exact ⟨Nat.lt_succ_of_lt hij, hopen, Nat.lt_succ_self _, hclose.2⟩

theorem stands_fileItem (h : ts.fileItem start first stop = .ok r) (hs : start ≤ first)
    (hlt : first < stop) (hsize : stop ≤ ts.size) (hend : ts.isPunct stop ';' = false) :
    Stands ts start stop r := by
  unfold fileItem at h
  split at h
  · exact stands_namespaceDecl h hs hlt hsize hend
  split at h
  · cases h
  · rename_i hd
    cases h
    exact stands_withTrailing (stands_declaration hd hs hlt hsize) hsize

theorem siblings_fileItems {ns : List Node} (h : ts.fileItems i stop = .ok ns) (hi : i ≤ stop)
    (hsize : stop ≤ ts.size) (hend : ts.isPunct stop ';' = false) :
    ∃ last, Siblings ts i ns last ∧ last ≤ stop ∧ ts.Plain last stop := by
  fun_induction fileItems ts i stop generalizing ns with
  | case1 => cases h
  | case2 => cases h
  | case3 =>
    rename_i i first hs r hr _ _ rest hrest ih
    have hfirst : i ≤ ts.significant i stop := le_significant hi
    have hr := stands_fileItem hr (ts.leading_le i _) hs hsize hend
    obtain ⟨last, hsib, hlast⟩ := ih hrest hr.le_stop
    cases h
    exact ⟨last, siblings_of_stands hr (le_leading hfirst) (ts.loose_leading i stop) hsib, hlast⟩
  | case4 =>
    rename_i i first hs
    cases h
    have hplain := ts.plain_significant i stop
    refine ⟨i, .nil, hi, fun k hk hks => hplain k hk ?_⟩
    omega

theorem codeSpan?_bounds {body : Span} (h : ts.codeSpan? = some body) :
    (∃ k, body.start = k + 1 ∧ ts.isComment k = false) ∧ body.start ≤ body.stop ∧
      body.stop ≤ ts.size ∧ ts.isPunct body.stop ';' = false := by
  obtain ⟨first, hf, rfl⟩ := Option.map_eq_some_iff.1 h
  obtain ⟨hlt, hopen, -⟩ := Array.findIdx?_eq_some_iff_getElem.1 hf
  have hlast : ts.toList.reverse.findIdx (·.kind == .openTag) ≤ ts.size - 1 - first := by
    refine Nat.le_of_not_lt fun hgt => ?_
    have := List.not_of_lt_findIdx hgt
    simp only [List.getElem_reverse, Array.length_toList, Array.getElem_toList,
      show ts.size - 1 - (ts.size - 1 - first) = first by omega] at this
    rw [hopen] at this
    cases this
  refine ⟨⟨first, rfl, ?_⟩, ?_, firstFrom_le .., ?_⟩
  · have hkind := beq_iff_eq.1 hopen
    simp [isComment, kind?, Array.getElem?_eq_getElem hlt, hkind, TokenKind.isComment]
  · refine Nat.le_trans (m := ts.size - 1 - ts.toList.reverse.findIdx (·.kind == .openTag) + 1) ?_
      (le_firstFrom _ ?_)
    · show first + 1 ≤ _
      omega
    · omega
  · dsimp only
    generalize hstop : firstFrom _ _ ts.size = stop
    rcases Nat.lt_or_ge stop ts.size with h | h
    · have := firstFrom_pos (hstop ▸ h)
      rw [hstop] at this
      simp only [kind?, beq_iff_eq, Option.map_eq_some_iff] at this
      obtain ⟨t, ht, hk⟩ := this
      refine Bool.eq_false_iff.2 fun hp => ?_
      rw [isPunct_iff.1 hp] at ht
      cases ht
      cases hk
    · simp [isPunct, Array.getElem?_eq_none h]

/-- A file is read into nodes that stand where its tokens do. -/
theorem placed_file {root : Node} (h : ts.file = .ok root) : Placed ts root := by
  unfold file at h
  split at h
  · cases h
  rename_i body hb
  obtain ⟨⟨k, hk, hcomment⟩, hle, hsize, hend⟩ := codeSpan?_bounds hb
  split at h
  · cases h
  rename_i children hc
  obtain ⟨last, hsib, hlast, hplain⟩ := siblings_fileItems hc hle hsize hend
  cases h
  refine .container rfl hsib ⟨Nat.zero_le _, ⟨k, hk, hcomment⟩, hlast, hsize, ?_, Nat.le_refl _,
    hplain, fun h => absurd h Bool.false_ne_true, fun h => absurd h (by decide)⟩
  show 0 < ts.size
  omega

end Tokens
end PhpGraft
