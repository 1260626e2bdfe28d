import PhpGraft.Proofs.Merging
import PhpGraft.Proofs.Rereading
import PhpGraft.Proofs.Seams

/-!
Reading a file whose imports were gathered. The text in front of the scope is read as before, the scope
as the entries that were printed, and what stands behind it as before.
-/
namespace PhpGraft

namespace Lexer

variable {u t w T : Text} {c : Char} {xs zs Z : List Token} {x : Token}

/-- Behind an open tag other white space may stand; a line break at its start may go to the tag. -/
theorem openTag?_behind (h : openTag? c (u ++ t) = some u.length) (ht : t ≠ [])
    (hw : ∀ c ∈ w, isSpace c = true) (hT : T.head?.any isSpace = false) :
    ∃ u' w', openTag? c (u' ++ (w' ++ T)) = some u'.length ∧ u' ++ w' = u ++ w ∧
      (∀ c ∈ w', isSpace c = true) ∧ (u.getLast? ≠ some '\r' → w' = w) := by
  obtain ⟨rfl, ⟨hu, v, hv⟩ | ⟨a, v, hv, ha, hcases⟩⟩ := openTag?_cases h
  · refine ⟨u, w, ?_, rfl, hw, fun _ => rfl⟩
    match u, hu with
    | [d, e], _ =>
      obtain ⟨rfl, rfl, -⟩ : d = '?' ∧ e = '=' ∧ _ := by simpa using hv
      rfl
  have hlen : a.length = 4 := length_of_lower ha
  obtain ⟨b, rfl⟩ : a <+: u := by
    refine List.prefix_of_prefix_length_le ⟨v, hv.symm⟩ (List.prefix_append _ _) ?_
    omega
  obtain rfl : b ++ t = v := by
    rw [List.append_assoc] at hv
    exact List.append_cancel_left hv
  rw [List.length_append, hlen] at hcases
  rcases hcases with ⟨-, hv⟩ | ⟨hb, s, hv⟩ | ⟨hb, d, s, hv, hd, -⟩
  · exact absurd (List.append_eq_nil_iff.1 hv).2 ht
  · obtain ⟨d, e, rfl⟩ := List.length_eq_two.1 (show b.length = 2 by omega)
    obtain ⟨rfl, rfl, -⟩ : d = '\r' ∧ e = '\n' ∧ _ := by simpa using hv
    refine ⟨a ++ ['\r', '\n'], w, ?_, rfl, hw, fun _ => rfl⟩
    rw [List.append_assoc, openTag?_php ha, List.length_append, hlen]
    rfl
  · obtain ⟨d', rfl⟩ := List.length_eq_one_iff.1 (show b.length = 1 by omega)
    obtain ⟨rfl, -⟩ := List.cons.inj hv
    by_cases hbreak : d' = '\r' ∧ ∃ s, w = '\n' :: s
    · obtain ⟨rfl, s, rfl⟩ := hbreak
      refine ⟨a ++ ['\r', '\n'], s, ?_, by simp, (List.forall_mem_cons.1 hw).2,
        fun hcr => absurd List.getLast?_concat hcr⟩
      rw [List.append_assoc, openTag?_php ha, List.length_append, hlen]
      rfl
    · refine ⟨a ++ [d'], w, ?_, rfl, hw, fun _ => rfl⟩
      rw [List.append_assoc, openTag?_php ha, List.length_append, hlen]
      split
      · contradiction
      · rename_i r heq
        obtain ⟨rfl, hr⟩ := List.cons.inj heq
        replace hr : w ++ T = '\n' :: r := hr
        cases w with
        | nil =>
          rw [show T = '\n' :: r from hr] at hT
          cases hT
        | cons e s =>
          obtain ⟨rfl, -⟩ := List.cons.inj hr
          exact absurd ⟨rfl, s, rfl⟩ hbreak
      · rename_i heq
        rw [← (List.cons.inj heq).1, if_pos hd]
        rfl

theorem Reads.behind_tag (h : Reads .html (xs ++ x :: zs) t) (hxs : ∀ y ∈ xs, y.kind ≠ .openTag)
    (hx : x.kind = .openTag) (hzs : zs ≠ []) (hw : ∀ c ∈ w, isSpace c = true)
    (hT : T.head?.any isSpace = false) (hZ : Reads .code Z T) :
    ∃ x' w', x'.kind = .openTag ∧ (∀ c ∈ w', isSpace c = true) ∧
      ((Token.spell (xs ++ [x])).getLast? ≠ some '\r' → w' = w) ∧
      Reads .html (xs ++ x' :: (Lexer.blank w' ++ Z)) (Token.spell (xs ++ [x]) ++ (w ++ T)) := by
  induction xs generalizing t with
  | nil =>
    cases h with
    | @cons _ c u t k _ hs hr =>
      obtain rfl : k = .openTag := hx
      rcases kind_scanHtml c (u ++ t) with ⟨n, hopen, he⟩ | ⟨-, he⟩
      · obtain rfl : u.length = n := congrArg Prod.snd ((Except.ok.inj hs).symm.trans he)
        have ht : t ≠ [] := by
          rintro rfl
          have hnil : Reads .code (zs ++ []) [] := by rwa [List.append_nil]
          exact spell_append_ne hnil hzs hr.spell
        obtain ⟨u', w', hopen', happend, hw', hkeep⟩ := openTag?_behind hopen ht hw hT
        refine ⟨⟨.openTag, c :: u'⟩, w', rfl, hw', fun hcr => hkeep fun hu => hcr ?_, ?_⟩
        · simp [Token.spell, List.getLast?_cons, hu]
        have hscan : scan .html c (u' ++ (w' ++ T)) = .ok (.openTag, u'.length) :=
          congrArg Except.ok (by rw [scanHtml, hopen'])
        have hread : Reads .html _ _ := .cons hscan (.blank hw' hT hZ)
        rw [← List.append_assoc, happend, List.append_assoc] at hread
        simpa [Token.spell] using hread
      · cases (Except.ok.inj hs).symm.trans he
  | cons y xs ih =>
    obtain ⟨hy, hrest⟩ := List.forall_mem_cons.1 hxs
    have hchain := h.precedes
    cases h with
    | @cons _ c u t k _ hs hr =>
      rcases kind_scanHtml c (u ++ t) with ⟨n, -, he⟩ | ⟨-, he⟩
      · exact absurd (congrArg Prod.fst ((Except.ok.inj hs).symm.trans he)) hy
      · obtain rfl : k = .inlineHtml := congrArg Prod.fst ((Except.ok.inj hs).symm.trans he)
        -- Text outside of code goes on up to the tag.
        obtain rfl : xs = [] := by
          cases xs with
          | nil => rfl
          | cons y' xs =>
            exact absurd ((List.isChain_cons_cons.1 hchain).1.2.1 rfl) (hrest y' List.mem_cons_self)
        obtain ⟨x', w', hx', hw', hkeep, hread⟩ := ih hr hrest
        have htag : Reads .html (x :: ([] ++ zs)) t := hr
        obtain ⟨hmem, hzero⟩ := htag.opens_cut hx
        have ht : t = Token.spell [x] ++ Token.spell zs :=
          hr.spell.symm.trans (spell_append [x] zs)
        rw [ht] at hs
        have hcut := scanHtml_excerpt (Except.ok.inj hs) fun _ => ⟨hmem, hzero⟩
        have hne : Token.spell [x] ≠ [] := fun hnil => by
          rw [hnil] at hmem
          cases hmem
        have hscan : scan .html c (u ++ (Token.spell [x] ++ (w ++ T))) = .ok (.inlineHtml, u.length) :=
          congrArg Except.ok (scanHtml_append hne hcut (w ++ T) fun _ => ⟨hmem, (hread.opens hx').2⟩)
        refine ⟨x', w', hx', hw', fun hcr => hkeep fun hlast => hcr ?_, ?_⟩
        · rw [List.nil_append] at hlast
          rw [← List.singleton_append, List.append_nil, spell_append, List.getLast?_append, hlast]
          rfl
        have hcons : Reads .html _ _ := .cons hscan hread
        simpa [Token.spell] using hcons

end Lexer

namespace Tokens

open Lexer

variable {ts : Tokens} {p : Place} {b e i j k last stop : Nat} {ns : List Node} {text w T : Text}
  {Z P M : List Token} {body : Span}

/-! Code up to the end of the file. -/

theorem Coded.mono (h : ts.Coded b) (hj : b ≤ j) : ts.Coded j :=
  ⟨h.onward hj, fun k hk => h.whole k (Nat.le_trans hj hk)⟩

section

variable (hbody : ts.codeSpan? = some body) (hwhole : ∀ k, ts.kind? k ≠ some .closeTag)
include hbody

theorem stop_of_codeSpan? (hwhole : ∀ k, ts.kind? k ≠ some .closeTag) : body.stop = ts.size := by
  obtain ⟨first, last, hs, -⟩ := spanned_of_codeSpan? hbody
  exact Nat.le_antisymm hs.le_size (Nat.le_of_not_lt fun hlt => hwhole _ (hs.stop hlt))

theorem toList_opened : ∃ first x, body.start = first + 1 ∧ x.kind = .openTag ∧
    ts.toList = (ts.extract 0 first).toList ++ x :: ts.toList.drop (first + 1) ∧
    ∀ y ∈ (ts.extract 0 first).toList, y.kind ≠ .openTag := by
  obtain ⟨first, last, hs, hstart⟩ := spanned_of_codeSpan? hbody
  obtain ⟨x, hx, hkind⟩ := Option.map_eq_some_iff.1 hs.first
  refine ⟨first, x, hstart, hkind, ?_, forall_extract fun k _ hk t ht he => ?_⟩
  · have hdrop := ts.drop_split (Nat.zero_le first)
    rw [ts.drop_split (Nat.le_succ first), extract_singleton hx] at hdrop
    exact hdrop
  · exact hs.before k hk ((kind?_of ht).trans (congrArg some he))

theorem coded_file (hreads : Reads .html ts.toList text) (hwhole : ∀ k, ts.kind? k ≠ some .closeTag) :
    ts.Coded body.start := by
  obtain ⟨first, x, hstart, hx, hlist, -⟩ := toList_opened hbody
  refine ⟨?_, fun k _ => hwhole k⟩
  rw [hlist, ← List.singleton_append, ← List.append_assoc] at hreads
  have hrest := hreads.of_append
  rw [Mode.afterAll, List.foldl_append, List.foldl_cons, hx, List.foldl_nil] at hrest
  rwa [← hstart, spell_drop] at hrest

end

/-! What stands in front of the scope. -/

/-- Behind the tokens `P`, which are those of `ts` in front of `b` up to the text of a tag, and white
space `w'` stand other tokens. -/
structure Heads (ts : Tokens) (b : Nat) (w : Text) (Z : List Token) (T : Text) (P : List Token)
    (w' : Text) : Prop where
  length : P.length = b
  kinds : ∀ k, k < P.length → (P[k]?.map Token.kind) = ts.kind? k
  reads : Reads .html (P ++ (blank w' ++ Z)) (ts.between 0 b ++ (w ++ T))
  /-- An open tag takes a line feed from the white space only behind a carriage return. -/
  gap : (ts.between 0 b).getLast? ≠ some '\r' → w' = w

theorem getElem?_extract_zero (hk : k < b) : (ts.extract 0 b).toList[k]? = ts[k]? := by
  have h : (ts.extract 0 b).toList[_]? = _ := getElem?_extract (Nat.zero_le k) hk
  rwa [Nat.sub_zero] at h

section

variable (hreads : Reads .html ts.toList text) (hw : ∀ c ∈ w, isSpace c = true)
  (hT : T.head?.any isSpace = false) (hZ : Reads .code Z T)
include hreads hw hT hZ

theorem exists_heads (hbody : ts.codeSpan? = some body) (hlt : body.start < ts.size) :
    ∃ P w', ts.Heads body.start w Z T P w' := by
  obtain ⟨first, x, hstart, hx, hlist, hno⟩ := toList_opened hbody
  have hlen : (ts.extract 0 first).toList.length = first := by rw [length_extract (by omega), Nat.sub_zero]
  rw [hlist] at hreads
  have hne : ts.toList.drop (first + 1) ≠ [] := by
    intro hnil
    have := List.drop_eq_nil_iff.1 hnil
    rw [Array.length_toList] at this
    omega
  obtain ⟨x', w', hx', hw', hkeep, hread⟩ := hreads.behind_tag hno hx hne hw hT hZ
  have hat : ts[first]? = some x := by
    rw [← Array.getElem?_toList, hlist, List.getElem?_append_right (Nat.le_of_eq hlen), hlen, Nat.sub_self]
    rfl
  have hspell : ts.between 0 body.start = Token.spell ((ts.extract 0 first).toList ++ [x]) := by
    rw [hstart, between, ← extract_split (Nat.zero_le first) (Nat.le_succ first), extract_singleton hat]
  refine ⟨(ts.extract 0 first).toList ++ [x'], w', ⟨?_, fun k hk => ?_, ?_, hspell ▸ hkeep⟩⟩
  · rw [List.length_append, hlen, hstart]
    rfl
  · rw [List.length_append, hlen, List.length_singleton] at hk
    rcases Nat.lt_or_eq_of_le (show k ≤ first by omega) with hlt | rfl
    · rw [List.getElem?_append_left (by omega), getElem?_extract_zero hlt]
      rfl
    · rw [List.getElem?_append_right (Nat.le_of_eq hlen), hlen, Nat.sub_self, kind?_of hat, hx]
      exact congrArg some hx'
  · rw [hspell, List.append_assoc]
    exact hread

/-- The code of a namespace stands behind a brace or a semicolon. -/
theorem exists_heads_fronted {z : Char} (hz : z = '\x7b' ∨ z = ';') (hpos : 0 < b)
    (hp : ts.isPunct (b - 1) z = true) : ∃ P, ts.Heads b w Z T P w ∧ ts.Fronted P := by
  have hlt := lt_size_of_isCode (isCode_of_isPunct hp)
  have hlen : (ts.extract 0 b).toList.length = b := by rw [length_extract (by omega), Nat.sub_zero]
  have hfront : ∀ k, k < (ts.extract 0 b).toList.length → (ts.extract 0 b).toList[k]? = ts[k]? :=
    fun k hk => getElem?_extract_zero (by omega)
  have hsplit : (ts.extract 0 b).toList = (ts.extract 0 (b - 1)).toList ++ [⟨.punct, [z]⟩] := by
    rw [← extract_split (Nat.zero_le (b - 1)) (Nat.sub_le b 1)]
    congr 1
    have h := extract_singleton (isPunct_iff.1 hp)
    rwa [Nat.sub_add_cancel hpos] at h
  have hbarrier : isBarrier z = true := by rcases hz with rfl | rfl <;> rfl
  refine ⟨(ts.extract 0 b).toList, ⟨hlen, fun k hk => ?_, ?_, fun _ => rfl⟩, hfront, by omega, z, hz,
    by rwa [hlen]⟩
  · rw [hfront k hk]
    rfl
  · have hlist := ts.drop_split (Nat.zero_le b)
    rw [hsplit, List.append_assoc, List.singleton_append] at hlist
    rw [List.drop_zero] at hlist
    rw [hlist] at hreads
    have hread := hreads.barrier hbarrier (.blank hw hT hZ)
    have hspell : ts.between 0 b = Token.spell (ts.extract 0 (b - 1)).toList ++ [z] := by
      rw [between, hsplit, spell_append]
      rfl
    rw [hspell, hsplit, List.append_assoc, List.append_assoc]
    exact hread

end

/-! Lists behind loose tokens. -/

theorem halts_of_skip (hij : i ≤ j) (hj : j ≤ stop) (hplain : ts.Plain i j) :
    ts.Halts p i stop ↔ ts.Halts p j stop := by
  rw [Halts, Halts, significant_of_skip hij hj hplain]

theorem entries_of_skip (hij : i ≤ j) (hj : j ≤ stop) (hl : ts.Loose i j) :
    ts.Entries p stop i ns ↔ ts.Entries p stop j ns := by
  have hsig := significant_of_skip hij hj hl.plain
  have hhalts := halts_of_skip (p := p) hij hj hl.plain
  have hlead : ts.leading i (ts.significant j stop) = ts.leading j (ts.significant j stop) :=
    leading_of_skip hij (le_significant hj) fun k hk hkj => (hl k hk hkj).2
  constructor
  · rintro ⟨last, hitems, hend⟩
    cases hitems with
    | nil => exact ⟨j, .nil, hhalts.1 hend⟩
    | cons hs he hrest =>
      rw [hsig] at hs he
      rw [hlead] at he
      exact ⟨last, .cons hs he hrest, hend⟩
  · rintro ⟨last, hitems, hend⟩
    cases hitems with
    | nil => exact ⟨i, .nil, hhalts.2 hend⟩
    | cons hs he hrest =>
      rw [← hsig] at hs
      rw [← hlead] at he
      rw [← hsig] at he
      exact ⟨last, .cons hs he hrest, hend⟩

/-! The end of a scope. -/

theorem Brink.isOneOf (h : ts.Brink stop) (words : List Text) : ts.isOneOf stop words = false := by
  have hname : ts.isName stop = false := by
    unfold isName
    cases hk : ts.kind? stop with
    | none => rfl
    | some kind =>
      rw [h.kind? hk]
      rfl
  rw [Tokens.isOneOf, List.any_eq_false]
  intro word _
  rw [isKeyword, hname]
  exact Bool.false_ne_true

theorem Brink.significant_eq (h : ts.Brink stop) (hi : i ≤ stop) :
    ts.significant i ts.size = ts.significant i stop := by
  have hle := ts.significant_le i stop
  refine firstFrom_eq (le_significant hi) (Nat.le_trans hle h.le_size) (fun k hk hks => ?_) fun hlt => ?_
  · exact plain_significant ts i stop k hk hks
  · rcases Nat.lt_or_eq_of_le hle with hlt' | heq
    · exact isCode_significant hlt'
    · rw [heq] at hlt ⊢
      rcases h with rfl | hclose
      · exact absurd hlt (Nat.lt_irrefl _)
      · exact isCode_of_isPunct hclose

theorem Brink.continues_eq (h : ts.Brink stop) (hi : i ≤ stop) :
    ts.continues i ts.size = ts.continues i stop := by
  rw [continues, continues, h.significant_eq hi]
  rcases Nat.lt_or_eq_of_le (ts.significant_le i stop) with hlt | heq
  · rw [decide_eq_true hlt, decide_eq_true (Nat.lt_of_lt_of_le hlt h.le_size)]
  · rw [heq, h.isOneOf, Bool.and_false, Bool.and_false]

theorem Independent.of_brink {n : Node} (h : ts.Independent ts.size n) (hbrink : ts.Brink stop) :
    ts.Independent stop n where
  braced := h.braced
  calm := fun a ha => by
    rcases Nat.lt_or_ge stop a.span.start with hlt | hle
    · have hstop : ts.significant a.span.start stop = stop := by
        rw [significant, firstFrom, if_neg (by omega)]
      rw [hstop, hbrink.isOneOf]
    · rw [← hbrink.significant_eq hle]
      exact h.calm a ha

theorem independent_of_number (h : ∀ n ∈ (Node.numberList k ns).1, ts.Independent stop n) :
    ∀ n ∈ ns, ts.Independent stop n := by
  induction ns generalizing k with
  | nil => exact List.forall_mem_nil _
  | cons n ns ih =>
    rw [Node.numberList] at h
    obtain ⟨hn, hns⟩ := List.forall_mem_cons.1 h
    refine List.forall_mem_cons.2 ⟨⟨fun name? => ?_, fun a ha => ?_⟩, ih hns⟩
    · rw [← number_decl k n]
      exact hn.braced name?
    · exact hn.calm a (by rwa [number_origin])

/-- What gathering the imports of `n` needs to keep its other declarations apart. -/
structure Separate (ts : Tokens) (n : Node) : Prop where
  independent : ∀ m ∈ n.children, ts.Independent ts.size m
  settled : ts.Settled n

instance (ts : Tokens) (n : Node) : Decidable (ts.Separate n) :=
  decidable_of_iff ((∀ m ∈ n.children, ts.Independent ts.size m) ∧ ts.Settled n)
    ⟨fun h => ⟨h.1, h.2⟩, fun h => ⟨h.independent, h.settled⟩⟩

end Tokens

/-! Declared classes. -/

namespace Node

variable {m n : Node} {ns ms : List Node}

/-- Names of the classes that a declaration of a file declares. -/
def classNames (n : Node) : List Text :=
  match n.decl with
  | .scope name? _ =>
    n.children.filterMap fun m =>
      match m.decl with
      | .classLike head => some (Name.qualify name? head.name)
      | _ => none
  | .classLike head => [head.name]
  | _ => []

theorem filterMap_containers {α : Type} {f : Decl → Option α} (hf : ∀ d, d.isContainer = false → f d = none)
    (ns : List Node) : (containers ns).filterMap (f ·.decl) = ns.filterMap (f ·.decl) := by
  rw [containers, List.filterMap_filter, List.filterMap_map]
  congr 1
  funext n
  rw [Function.comp_apply, bare_decl]
  split
  · rfl
  · exact (hf _ (Bool.eq_false_iff.2 ‹_›)).symm

theorem classNames_congr (hd : m.decl = n.decl) (hc : containers m.children = containers n.children) :
    m.classNames = n.classNames := by
  unfold classNames
  rw [hd]
  cases n.decl with
  | scope name? braced =>
    have hnone : ∀ d : Decl, d.isContainer = false → (match d with
        | .classLike head => some (Name.qualify name? head.name)
        | _ => none) = none := by
      intro d h
      cases d <;> first | rfl | cases h
    exact (filterMap_containers hnone _).symm.trans ((congrArg _ hc).trans (filterMap_containers hnone _))
  | _ => rfl

theorem classNames_bare (n : Node) : n.bare.classNames = n.classNames := by
  unfold classNames
  rw [bare_decl, bare_children]
  cases n.decl with
  | scope name? braced =>
    simp only [List.filterMap_map]
    congr 1
    funext m
    rw [Function.comp_apply, bare_decl]
  | _ => rfl

theorem classNames_of_not_isContainer (h : n.decl.isContainer = false) : n.classNames = [] := by
  unfold classNames
  cases hd : n.decl <;> first | rfl | (rw [hd] at h; cases h)

theorem declaredClasses_eq_flatMap (n : Node) :
    n.declaredClasses = (containers n.children).flatMap classNames := by
  change n.children.flatMap classNames = _
  induction n.children with
  | nil => rfl
  | cons m ms ih =>
    rw [← List.singleton_append, containers_append, List.flatMap_append, List.flatMap_append, ih]
    congr 1
    cases h : m.decl.isContainer with
    | true =>
      have hm : containers [m] = [m.bare] := by
        rw [containers, List.map_singleton, List.filter_cons_of_pos (by rw [bare_decl, h]), List.filter_nil]
      simp only [hm, List.flatMap_cons, List.flatMap_nil, classNames_bare]
    | false =>
      rw [containers_leaves (List.forall_mem_singleton.2 h)]
      simp only [List.flatMap_cons, List.flatMap_nil, classNames_of_not_isContainer h, List.append_nil]

theorem declaredClasses_of_containers (h : containers m.children = containers n.children) :
    m.declaredClasses = n.declaredClasses := by
  rw [declaredClasses_eq_flatMap, h, declaredClasses_eq_flatMap]

theorem declaredClasses_modify {root : Node} {k : Nat} (hn : root.children[k]? = some n)
    (hc : containers ns = containers n.children) :
    (root.modifyAt (.withChildren fun _ => ns) [k]).declaredClasses = root.declaredClasses := by
  obtain ⟨before, after, hsplit, rfl⟩ := split_of_getElem? hn
  have hclasses : classNames (n.withChildren fun _ => ns) = n.classNames := classNames_congr rfl hc
  change ((root.children.modify before.length _).flatMap classNames) = root.children.flatMap classNames
  rw [hsplit, modify_append_cons, List.flatMap_append, List.flatMap_append, List.flatMap_cons,
    List.flatMap_cons, ← hclasses]
  rfl

/-- Without places, a node with other declarations in one of its scopes is told by what it was and by them. -/
theorem bare_withChildren_congr (h : m.bare = n.bare) (hns : ns.map bare = ms.map bare) (path : List Nat) :
    (m.modifyAt (.withChildren fun _ => ns) path).bare =
      (n.modifyAt (.withChildren fun _ => ms) path).bare := by
  have hdecl := decl_of_bare h
  induction path generalizing m n with
  | nil =>
    rw [modifyAt, modifyAt, Tokens.bare_eta, Tokens.bare_eta (n.withChildren _)]
    exact congrArg₂ (Node.mk _ _ · ·) hdecl hns
  | cons i path ih =>
    have hchildren := congrArg Node.children h
    rw [bare_children, bare_children] at hchildren
    rw [modifyAt, modifyAt, Tokens.bare_eta, Tokens.bare_eta (Node.mk ..)]
    refine congrArg₂ (Node.mk _ _ · ·) hdecl (List.ext_getElem? fun j => ?_)
    have hj := congrArg (·[j]?) hchildren
    simp only [List.getElem?_map, List.getElem?_modify] at hj ⊢
    cases hm : m.children[j]? with
    | none =>
      cases hn : n.children[j]? with
      | none => rfl
      | some b =>
        rw [hm, hn] at hj
        cases hj
    | some a =>
      cases hn : n.children[j]? with
      | none =>
        rw [hm, hn] at hj
        cases hj
      | some b =>
        rw [hm, hn] at hj
        replace hj : a.bare = b.bare := Option.some.inj hj
        by_cases hij : i = j
        · simpa [hij] using ih hj (decl_of_bare hj)
        · simpa [hij] using hj

end Node

namespace Source.ClassScope

open Tokens Lexer

variable {s : Source} {sc : s.ClassScope} {p : Place} {b e last stop : Nat} {is : List Node} {t w T : Text}
  {ps : List Part} {P M Y : List Token}

/-- The tokens of the text that `t` is printed in: `P` in front of the scope, and what is read of `t` up to
the code from `e` on; the scope ended at `z`. -/
structure Exchanged (sc : s.ClassScope) (style : Style) (p : Place) (is : List Node) (b e z : Nat) (t : Text)
    (Y P M : List Token) : Prop where
  length : P.length = b
  exchanges : s.tokens.Exchanges P M e
  reads : Reads .html (s.tokens.exchange P M e).toList (s.tokens.between 0 b ++ t)
  items : ∀ stop, e ≤ stop → stop ≤ s.tokens.size → ∃ ns last,
    (s.tokens.exchange P M e).Items p (shift e (P.length + M.length) stop) b ns last ∧
      Node.containers ns = Node.containers sc.node.children ∧ last ≤ P.length + M.length ∧
      (s.tokens.exchange P M e).Plain last (P.length + M.length) ∧
      (Y = [] → (s.tokens.exchange P M e).Loose last (P.length + M.length)) ∧
      (sc.Steady style b is → (Container.ofDecl sc.node.decl = .block → e = z) →
        s.tokens.isPunct stop ';' = false →
          sc.Regains style is (s.tokens.exchange P M e) b (P.length + M.length) ns)

variable {style : Style} {limit z : Nat}

/-- Entries that were printed are read behind what stands in front of the scope. -/
theorem Printed.exists_exchanged (h : sc.Printed style p stop b is z e t ps w Y T)
    (his : sc.Imports limit is) (hread : ∀ x ∈ sc.node.children, x.origin ≠ .synthesized)
    (hc : s.tokens.Coded b) (hb : b ≤ e) (he : e ≤ s.tokens.size) {Q : List Token → Prop}
    (hfront : ∀ {w : Text} {Z : List Token} {T : Text}, (∀ c ∈ w, isSpace c = true) →
      T.head?.any isSpace = false → Reads .code Z T → ∃ P w', s.tokens.Heads b w Z T P w' ∧ Q P) :
    ∃ P M, Q P ∧ sc.Exchanged style p is b e z t Y P M := by
  obtain ⟨cs, w₁, T₁, hcs, hall, hw₁, htext, hhead⟩ :=
    follows_of_parts h.sound h.closing.follows h.closing.white h.linked
  obtain ⟨P, w', hP, hQ⟩ := hfront hw₁ hcs.solid hcs.reads
  obtain ⟨hlen, hkinds, hreads, hkeep⟩ := hP
  have htokens : P ++ (blank w' ++ (Chunk.all cs ++ (Y ++ s.tokens.toList.drop e))) =
      P ++ ((blank w' ++ (Chunk.all cs ++ Y)) ++ s.tokens.toList.drop e) := by
    simp only [List.append_assoc]
  have hexchange : s.tokens.exchange P (blank w' ++ (Chunk.all cs ++ Y)) e =
      (P ++ (blank w' ++ (Chunk.all cs ++ (Y ++ s.tokens.toList.drop e)))).toArray := by
    rw [htokens]
    rfl
  have hnodes : cs.map (·.node.bare) = (ps.map Part.node).map Node.bare := by
    rw [List.map_map]
    have hbare := congrArg (List.map fun q : List Token × Node => q.2.bare) hall.map
    rw [List.map_map, List.map_map] at hbare
    exact hbare
  obtain ⟨front, P₀, back, rest, left, t', rfl, hd, ht⟩ := h.displays
  refine ⟨P, blank w' ++ (Chunk.all cs ++ Y), hQ, hlen, ⟨hkinds, by omega, he, fun k hk _ t ht => ?_,
    fun t ht => ?_⟩, ?_, fun stop hstop hsize => ?_⟩
  · exact (hc.token (by omega) ht).1
  · rcases List.mem_append.1 ht with ht | ht
    · rw [kind_blank w' t ht]
      rfl
    rcases List.mem_append.1 ht with ht | ht
    · exact hcs.inside t ht
    · exact (h.closing.trivia t ht).2
  · rw [hexchange, h.text, ← htext]
    exact hreads
  · obtain ⟨ns, last, hitems, hbare, hlast, hwhite, hspans⟩ := items_of_chunks (g := blank w') hcs.fit P
      (kind_blank w')
      (show _ ≤ shift e (P.length + (blank w' ++ (Chunk.all cs ++ Y)).length) stop by
        simp only [List.length_append, shift]
        omega)
      (by simp only [List.length_append, List.length_drop, Array.length_toList, shift]; omega)
    rw [← hexchange] at hitems hwhite hspans
    have hlen' : P.length + (blank w' ++ (Chunk.all cs ++ Y)).length =
        P.length + (blank w').length + (Chunk.all cs).length + Y.length := by
      simp only [List.length_append]
      omega
    refine ⟨ns, last, hlen ▸ hitems, ?_, by omega, fun k hk hks => ?_, fun hY k hk hks => ?_,
      fun hsteady hz hpunct => ?_⟩
    · rw [Node.containers_of_bare (hbare.trans hnodes)]
      exact hd.containers his
    · by_cases hlt : k < P.length + (blank w').length + (Chunk.all cs).length
      · rw [isCode, hwhite k hk hlt]
        rfl
      · obtain ⟨t, ht, hat⟩ := getElem?_between (A := P ++ (blank w' ++ Chunk.all cs)) (g := Y)
          (B := s.tokens.toList.drop e) (k := k) (by simp only [List.length_append]; omega)
          (by simp only [List.length_append]; omega)
        simp only [List.append_assoc] at hat
        rw [← hexchange] at hat
        rw [isCode_of hat]
        exact (h.closing.trivia t ht).1
    · have hkind := hwhite k hk (by rw [hlen', hY] at hks; exact hks)
      exact ⟨by rw [isCode, hkind]; rfl, by rw [isComment, hkind]; rfl⟩
    · have hspell := h.closing.follows.reads.spell
      rw [hlen', ← hlen, hexchange]
      refine hd.regains (hlen ▸ hsteady) hread hall (fun hnil => ?_) hbare (hspans ?_) fun hblock => ?_
      · obtain ⟨rfl, -⟩ := hhead P₀ (by rw [hnil]; rfl)
        rw [spell_blank]
        exact hkeep hsteady.tag
      · rw [isPunct, exchange_back hstop]
        exact hpunct
      · rw [spell_drop, hz hblock, ht, ← hz hblock]
        congr 2
        exact hspell.symm

variable {text : Text} {span body : Span}

/-- Where code goes on behind the entries that are read of the printed scope. -/
structure Regathered (sc : s.ClassScope) (style : Style) (p : Place) (body : Span) (last : Nat)
    (is : List Node) (e : Nat) (P M : List Token) : Prop where
  ge : body.stop ≤ e
  le_size : e ≤ s.tokens.size
  loose : s.tokens.Loose body.stop e
  exchanged : ∃ Y, (last = body.stop → Y = []) ∧
    sc.Exchanged style p is body.start e body.stop (sc.arrangedText style body is) Y P M

/-- The scope with its imports gathered is read behind what stands in front of it. -/
theorem Rows.exists_regathered (hr : sc.Rows p stop body.start last) (hf : s.Faithful text)
    (hst : sc.Stands span body last) (h : sc.Imports limit is) (hi : ∀ c ∈ style.indent, isIndent c = true)
    (hsettled : s.tokens.Settled sc.node) (hbrink : s.tokens.Brink stop) (hstop : body.stop ≤ stop)
    (hhalts : s.tokens.Halts p last stop)
    (hblock : Container.ofDecl sc.node.decl = .block → stop = body.stop) {Q : List Token → Prop}
    (hfront : ∀ {w : Text} {Z : List Token} {T : Text}, (∀ c ∈ w, isSpace c = true) →
      T.head?.any isSpace = false → Reads .code Z T → ∃ P w', s.tokens.Heads body.start w Z T P w' ∧ Q P) :
    ∃ e P M, Q P ∧ sc.Regathered style p body last is e P M := by
  have hlast := hst.encloses.last_le
  have hcalm : s.tokens.continues last s.tokens.size = false := by
    rw [hbrink.continues_eq (Nat.le_trans hlast hstop)]
    exact not_continues_of_halts hhalts
  obtain ⟨e, ps, w, Y, T, hge, hsize, hloose, hempty, hprinted⟩ := exists_printed hf hst hr h hi hsettled
    hbrink (Nat.le_trans hlast hstop) hcalm hblock
  have hle := hst.siblings.le
  have hread : ∀ x ∈ sc.node.children, x.origin ≠ .synthesized := by
    intro x hx ho
    obtain ⟨a, ha⟩ := (hst.siblings.placed x hx).anchor
    rw [ho] at ha
    cases ha
  obtain ⟨P, M, hQ, hex⟩ := hprinted.exists_exchanged h hread hr.coded (by omega) hsize hfront
  exact ⟨e, P, M, hQ, hge, hsize, hloose, Y, hempty, hex⟩

/-- The declarations `ns`, read from `inner` on, are those of the scope with its imports gathered. -/
structure Refilled (sc : s.ClassScope) (style : Style) (is : List Node) (us : Tokens) (inner : Span)
    (ns : List Node) : Prop where
  containers : Node.containers ns = Node.containers sc.node.children
  regains : sc.Steady style inner.start is → ∃ j, sc.Regains style is us inner.start j ns ∧
    (Container.ofDecl sc.node.decl = .block → inner.stop = j)

/-! The three kinds of scope. -/

section

variable {body₀ : Span} {before after : List Node} {n : Node} {name? : Option Text}

theorem Regathered.file (h : sc.Regathered style .file body last is e P M)
    (hbody : s.tokens.codeSpan? = some body) (hsize : body.stop = s.tokens.size) :
    ∃ span inner ns, (s.tokens.exchange P M e).file = .ok (.ofSource .file span (some inner) ns) ∧
      inner.start = body.start ∧ sc.Refilled style is (s.tokens.exchange P M e) inner ns := by
  obtain ⟨hge, hle, -, Y, -, hlen, hE, -, hitems⟩ := h
  obtain rfl : e = body.stop := by omega
  obtain ⟨ns, last', hns, hcontainers, hlast, hplain, -, hregains⟩ := hitems body.stop (Nat.le_refl _) hle
  have hspan := hE.codeSpan? hbody (Nat.le_of_eq hlen.symm) (Nat.le_refl _)
  rw [shift_self] at hns hspan
  exact ⟨_, _, _, file_of_entries hspan ⟨last', hns, halts_of_plain hlast hplain _⟩, rfl, hcontainers,
    fun hsteady => ⟨_, hregains hsteady (fun _ => rfl) (not_isPunct_stop hbody _), fun _ => rfl⟩⟩

variable (hbody : s.tokens.codeSpan? = some body₀) (hP : s.tokens.Fronted P)
  (hn : s.tokens.Entries .file body₀.stop body₀.start (before ++ n :: after))
  (ho : n.origin = .anchored ⟨span, some body⟩)
include hbody hP hn ho

theorem Regathered.block (h : sc.Regathered style (.scope true) body last is e P M)
    (hdecl : n.decl = .scope name? true) (hclose : s.tokens.isPunct body.stop '\x7d' = true)
    (hstop : body.stop ≤ body₀.stop) : ∃ root ns inner,
      (s.tokens.exchange P M e).ScopeFile before after n ns inner root ∧ inner.start = body.start ∧
        sc.Refilled style is (s.tokens.exchange P M e) inner ns := by
  obtain ⟨hge, hle, hloose, Y, -, hlen, hE, -, hitems⟩ := h
  obtain rfl : e = body.stop := by
    refine Nat.le_antisymm (Nat.le_of_not_lt fun hlt => ?_) hge
    have hcode := (hloose body.stop (Nat.le_refl _) hlt).1
    rw [isCode_of_isPunct hclose] at hcode
    cases hcode
  obtain ⟨ns, last', hns, hcontainers, hlast, hplain, -, hregains⟩ := hitems body.stop (Nat.le_refl _) hle
  rw [← shift_self body.stop (P.length + M.length)] at hlast hplain
  obtain ⟨root, hroot⟩ := file_block hE hbody hP hn hdecl ho (Nat.le_of_eq hlen.symm) (Nat.le_refl _)
    hstop hns (halts_of_plain hlast hplain _) hlast
  exact ⟨root, ns, _, hroot, rfl, hcontainers, fun hsteady => ⟨_, hregains hsteady (fun _ => rfl)
    (not_isPunct_of_ne hclose (by decide)), fun _ => shift_self _ _⟩⟩

theorem Regathered.statement (h : sc.Regathered style (.scope false) body last is e P M)
    (hdecl : n.decl = .scope name? false) (hsize : body₀.stop = s.tokens.size) (hlast : last = body.stop)
    (hhalts : s.tokens.Halts (.scope false) last body₀.stop)
    (hblock : Container.ofDecl sc.node.decl ≠ .block) : ∃ root ns inner,
      (s.tokens.exchange P M e).ScopeFile before after n ns inner root ∧ inner.start = body.start ∧
        sc.Refilled style is (s.tokens.exchange P M e) inner ns := by
  obtain ⟨hge, hle, hloose, Y, hY, hlen, hE, -, hitems⟩ := h
  subst hlast
  obtain ⟨ns, last', hns, hcontainers, hlast, -, hloose', hregains⟩ :=
    hitems s.tokens.size hle (Nat.le_refl _)
  replace hloose' := hloose' (hY rfl)
  have hshift : P.length + M.length ≤ shift e (P.length + M.length) s.tokens.size := by
    unfold shift
    omega
  have hend := not_isPunct_stop hbody
  rw [hsize] at hend hhalts
  -- Up to where code goes on again there is nothing but loose tokens, in the source and in what is read.
  have hhalts' : (s.tokens.exchange P M e).Halts (.scope false) last'
      (shift e (P.length + M.length) s.tokens.size) := by
    have hback := (copy_back (P := P) (M := M) hle (hend '#')).halts
      ((halts_of_skip hge hle hloose.plain).1 hhalts) (Nat.le_refl _) (by omega)
    rw [shift_self] at hback
    exact (halts_of_skip hlast hshift hloose'.plain).2 hback
  rw [← hsize] at hns hhalts' hshift
  obtain ⟨root, hroot⟩ := file_statement_entries hE hbody hP hn hdecl ho (Nat.le_of_eq hlen.symm)
    (show e ≤ body₀.stop by omega) hns hhalts' fun hafter => by
      obtain ⟨ms, hms, hbare⟩ := entries_back (P := P) (M := M) (Nat.le_refl e)
        (show e ≤ body₀.stop by omega) (Nat.le_of_eq hsize) (not_isPunct_stop hbody)
        ((entries_of_skip hge (by omega) hloose).1 hafter)
      rw [shift_self] at hms
      exact ⟨ms, (entries_of_skip hlast hshift hloose').2 hms, hbare⟩
  exact ⟨root, ns, _, hroot, rfl, hcontainers, fun hsteady =>
    ⟨_, hregains hsteady (fun h => absurd h hblock) (hend ';'), fun h => absurd h hblock⟩⟩

end

/-- The tokens `us` are read as the file with other declarations in the scope, those of the node `n`: the
scope with its imports gathered. -/
structure Reopened (sc : s.ClassScope) (style : Style) (is : List Node) (b : Nat) (us : Tokens)
    (root n : Node) : Prop where
  file : us.file = .ok root
  bare : root.bare = (s.tree.root.modifyAt (.withChildren fun _ => n.children) sc.path).bare
  reached : root.at? sc.path = some n
  filled : ∃ inner, n.origin.anchor?.bind Anchor.body? = some inner ∧ inner.start = b ∧
    sc.Refilled style is us inner n.children

theorem Reopened.declaredClasses {us : Tokens} {root n : Node} (h : sc.Reopened style is b us root n) :
    root.declaredClasses = s.tree.root.declaredClasses := by
  obtain ⟨inner, -, -, hfilled⟩ := h.filled
  rw [← Node.declaredClasses_bare root, h.bare, Node.declaredClasses_bare]
  rcases sc.decl_cases with ⟨hpath, hnode⟩ | ⟨k, hpath, hk, -⟩
  · rw [hpath, ← hnode]
    exact Node.declaredClasses_of_containers hfilled.containers
  · rw [hpath]
    exact Node.declaredClasses_modify hk hfilled.containers

/-! The file. -/

section

variable {root n : Node} {body₀ : Span} {j last₀ : Nat} {before after : List Node}

theorem exists_rows (hnode : sc.node = (n.number j).1) (hst : sc.Stands span body last)
    (hsep : s.tokens.Separate sc.node) (hp : p ≠ .members) (hc : s.tokens.Coded body.start)
    (hbrink : s.tokens.Brink stop) (hitems : s.tokens.Items p stop body.start n.children last₀)
    (hhalts : s.tokens.Halts p last₀ stop) : last₀ = last ∧ sc.Rows p stop body.start last := by
  have hchildren : sc.node.children = (Node.numberList j n.children).1 := by
    rw [hnode]
    cases n
    rw [Node.number]
  have hindependent := hsep.independent
  rw [hchildren] at hindependent
  have hrow := row_of_items hitems hhalts hbrink
    (fun m hm => (independent_of_number hindependent m hm).of_brink hbrink) j
  rw [← hchildren] at hrow
  obtain rfl := hrow.last_eq hst.siblings
  exact ⟨rfl, hp, hc, hrow⟩

theorem exists_parse {us : Tokens} (hreads : Reads .html us.toList t) (hroot : us.file = .ok root) :
    ∃ s', Source.parse t = .ok s' ∧ s'.tokens = us ∧ s'.tree.root = (root.number 0).1 :=
  ⟨_, Source.parse_of_reads hreads hroot, rfl, rfl⟩

variable (hf : s.Faithful text) (hreads : Reads .html s.tokens.toList text)
  (hbody : s.tokens.codeSpan? = some body₀) (hwhole : ∀ k, s.tokens.kind? k ≠ some .closeTag)
  (hst : sc.Stands span body last) (hsep : s.tokens.Separate sc.node) (h : sc.Imports limit is)
  (hi : ∀ c ∈ style.indent, isIndent c = true) (hnode : sc.node = (n.number j).1)
include hf hreads hbody hwhole hst hsep h hi hnode

/-- A class outside of namespaces. -/
theorem exists_file (hn : s.tokens.Entries .file body₀.stop body₀.start n.children)
    (hbody₀ : body = body₀) (hdecl : n.decl = .file) (hpath : sc.path = [])
    (hroot : s.tree.root = sc.node) : ∃ P M e root m, Reads .html (s.tokens.exchange P M e).toList
      (s.tokens.between 0 body.start ++ sc.arrangedText style body is) ∧
      sc.Reopened style is body.start (s.tokens.exchange P M e) root m := by
  subst hbody₀
  have hsize := stop_of_codeSpan? hbody hwhole
  obtain ⟨last₀, hitems, hhalts⟩ := hn
  have hbrink : s.tokens.Brink body.stop := .inl hsize
  obtain ⟨rfl, hr⟩ := exists_rows hnode hst hsep (by rintro ⟨⟩) (coded_file hbody hreads hwhole) hbrink
    hitems hhalts
  obtain ⟨a, ha⟩ := (hst.siblings.placed _ (cls_mem sc)).anchor
  have hlt := (hst.siblings.placed _ (cls_mem sc)).start_lt ha
  have hbounds := hst.siblings.bounds (cls_mem sc) ha
  have hlast := hst.encloses.last_le
  have hdecl' : sc.node.decl = .file := by rw [hnode, number_decl, hdecl]
  obtain ⟨e, P, M, -, hgathered⟩ := hr.exists_regathered hf hst h hi hsep.settled hbrink (Nat.le_refl _)
    hhalts (fun _ => rfl) (Q := fun _ => True) fun hw hT hZ => by
      obtain ⟨P, w', hP⟩ := exists_heads hreads hw hT hZ hbody (by omega)
      exact ⟨P, w', hP, trivial⟩
  obtain ⟨span, inner, ns, hfile, hstart, hfilled⟩ := hgathered.file hbody hsize
  obtain ⟨Y, -, hex⟩ := hgathered.exchanged
  refine ⟨P, M, e, _, .ofSource .file span (some inner) ns, hex.reads, hfile, ?_, ?_,
    inner, rfl, hstart, hfilled⟩
  · rw [hpath, hroot, Node.modifyAt, bare_eta (Node.withChildren _ _), bare_eta (Node.ofSource ..)]
    exact congrArg (Node.mk _ _ · _) hdecl'.symm
  · rw [hpath]
    rfl

/-- A class in a namespace. -/
theorem exists_scope (hn : s.tokens.Entries .file body₀.stop body₀.start (before ++ n :: after))
    (hscope : n.decl.isScope = true) (hpath : sc.path = [before.length])
    (hroot : s.tree.root.bare = root.bare) (hdecl₀ : root.decl = .file)
    (hchildren₀ : root.children = before ++ n :: after) :
    ∃ P M e root m, Reads .html (s.tokens.exchange P M e).toList
      (s.tokens.between 0 body.start ++ sc.arrangedText style body is) ∧
      sc.Reopened style is body.start (s.tokens.exchange P M e) root m := by
  have hsize := stop_of_codeSpan? hbody hwhole
  have horigin : n.origin = .anchored ⟨span, some body⟩ := by
    rw [← number_origin j n, ← hnode]
    exact hst.origin
  have hdecl : sc.node.decl = n.decl := by rw [hnode, number_decl]
  -- A namespace that is read again takes its place in the file.
  have hreopened : ∀ {us root' ns inner}, us.ScopeFile before after n ns inner root' →
      inner.start = body.start → sc.Refilled style is us inner ns →
        ∃ m, sc.Reopened style is body.start us root' m := by
    intro us root' ns inner hfile hstart hfilled
    obtain ⟨m, hm, rfl, hinner⟩ := hfile.scope
    refine ⟨m, hfile.file, ?_, ?_, inner, hinner, hstart, hfilled⟩
    · rw [hpath, Node.bare_withChildren_congr hroot rfl, bare_withMember _ _ hchildren₀, hfile.bare, hdecl₀,
        bare_eta (Node.withChildren _ _)]
      rfl
    · rw [hpath, Node.at?, hm]
      rfl
  obtain ⟨last₁, hitems, -⟩ := id hn
  obtain ⟨mid, hbefore, hrest⟩ := hitems.split
  obtain ⟨r, hr, rfl, -⟩ := scopeAt_of_items hrest hscope
  have hge := hbefore.le
  have hhead : mid < (s.tokens.scopeHead (s.tokens.significant mid body₀.stop) body₀.stop).2 :=
    Nat.lt_of_le_of_lt (le_firstFrom_of_lt hr.lt) (lt_scopeHead hr.lt)
  have hcoded : s.tokens.Coded
      ((s.tokens.scopeHead (s.tokens.significant mid body₀.stop) body₀.stop).2 + 1) :=
    (coded_file hbody hreads hwhole).mono (by omega)
  rcases namespaceDecl_cases hr.read with
    ⟨hname, hsemi, children, hd, hnode'⟩ | ⟨hbrace, closing, children, inner, hm, hd, hr'⟩
  · obtain ⟨name, hname⟩ := Option.isSome_iff_exists.1 hname
    have hchildren : r.1.children = children := by rw [hnode']; rfl
    have hdecl' : r.1.decl = .scope (some name) false := by rw [hnode', ← hname]; rfl
    have hblock : Container.ofDecl sc.node.decl ≠ .block := fun h => by
      rw [hdecl, hdecl'] at h
      cases h
    obtain rfl : body = ⟨_, r.2⟩ := by
      rw [hnode'] at horigin
      exact (Option.some.inj (congrArg Anchor.body? (Origin.anchored.inj horigin))).symm
    obtain ⟨hin, hhalts⟩ := items_of_declarations hd
    rw [← hchildren] at hin
    have hbrink : s.tokens.Brink body₀.stop := .inl hsize
    obtain ⟨rfl, hrows⟩ := exists_rows hnode hst hsep (by rintro ⟨⟩) hcoded hbrink hin hhalts
    have hle : r.2 ≤ body₀.stop := hsize ▸ Nat.le_trans hst.encloses.stop_le hst.encloses.le_size
    obtain ⟨e, P, M, hP, hgathered⟩ := hrows.exists_regathered hf hst h hi hsep.settled hbrink hle
      hhalts (fun h => absurd h hblock)
      (Q := s.tokens.Fronted) fun hw hT hZ => by
        obtain ⟨P, hP, hfront⟩ := exists_heads_fronted hreads hw hT hZ (.inr rfl) (Nat.succ_pos _) hsemi
        exact ⟨P, _, hP, hfront⟩
    obtain ⟨root', ns, inner, hfile, hstart, hfilled⟩ := hgathered.statement hbody hP hn horigin hdecl' hsize
      rfl hhalts hblock
    obtain ⟨Y, -, hex⟩ := hgathered.exchanged
    obtain ⟨m, hm⟩ := hreopened hfile hstart hfilled
    exact ⟨P, M, e, root', m, hex.reads, hm⟩
  · subst hr'
    obtain rfl : body = ⟨_, closing⟩ :=
      (Option.some.inj (congrArg Anchor.body? (Origin.anchored.inj horigin))).symm
    obtain ⟨hin, hhalts⟩ := items_of_declarations hd
    have hclose := (matching_closes (b := .curly) hbrace hm).2
    have hbrink : s.tokens.Brink closing := .inr hclose
    obtain ⟨rfl, hrows⟩ := exists_rows hnode hst hsep (by rintro ⟨⟩) hcoded hbrink hin hhalts
    obtain ⟨e, P, M, hP, hgathered⟩ := hrows.exists_regathered hf hst h hi hsep.settled hbrink
      (Nat.le_refl _) hhalts (fun _ => rfl) (Q := s.tokens.Fronted) fun hw hT hZ => by
        obtain ⟨P, hP, hfront⟩ := exists_heads_fronted hreads hw hT hZ (.inl rfl) (Nat.succ_pos _) hbrace
        exact ⟨P, _, hP, hfront⟩
    obtain ⟨root', ns, inner, hfile, hstart, hfilled⟩ := hgathered.block hbody hP hn horigin rfl hclose
      (Nat.le_of_lt (matching_bounds hm).2)
    obtain ⟨Y, -, hex⟩ := hgathered.exchanged
    obtain ⟨m, hm⟩ := hreopened hfile hstart hfilled
    exact ⟨P, M, e, root', m, hex.reads, hm⟩

end

/-- The text of a file whose imports were gathered is read again. -/
theorem Arranged.exists_reopened {tree : Tree} (h : sc.Arranged is tree) (hparse : Source.parse text = .ok s)
    (hwhole : ∀ k, s.tokens.kind? k ≠ some .closeTag) (hsep : s.tokens.Separate sc.node)
    (hi : ∀ c ∈ style.indent, isIndent c = true) (hst : sc.Stands span body last) :
    ∃ s' root n, Source.parse (s.print style 0 tree.root) = .ok s' ∧
      s'.tree.root = (root.number 0).1 ∧ sc.Reopened style is body.start s'.tokens root n := by
  have hf := faithful_of_parse hparse
  obtain ⟨root, hfile, htree, hreads⟩ := Source.parse_eq hparse
  obtain ⟨body₀, hbody, hentries, hroot⟩ := entries_of_file hfile
  have hnumber : s.tree.root = (root.number 0).1 := by rw [htree]; rfl
  have hdecl : root.decl = .file := by rw [hroot]; rfl
  have hread : ∃ P M e root' n, Reads .html (s.tokens.exchange P M e).toList
      (s.tokens.between 0 body.start ++ sc.arrangedText style body is) ∧
      sc.Reopened style is body.start (s.tokens.exchange P M e) root' n := by
    rcases sc.decl_cases with ⟨hpath, hnode⟩ | ⟨k, hpath, hk, hscope⟩
    · refine exists_file hf hreads hbody hwhole hst hsep h.imports hi (hnode.trans hnumber) hentries ?_ hdecl
        hpath hnode.symm
      have ho := hst.origin
      rw [hnode, hnumber, number_origin, hroot] at ho
      exact (Option.some.inj (congrArg Anchor.body? (Origin.anchored.inj ho))).symm
    · have hchildren : (root.number 0).1.children = (Node.numberList 0 root.children).1 := by
        cases root
        rw [Node.number]
      rw [hnumber, hchildren] at hk
      obtain ⟨n, j, hn, hnode⟩ := Node.getElem?_numberList hk
      obtain ⟨before, after, hsplit, rfl⟩ := Node.split_of_getElem? hn
      rw [hnode, number_decl] at hscope
      rw [hsplit] at hentries
      exact exists_scope hf hreads hbody hwhole hst hsep h.imports hi hnode hentries hscope hpath
        (hnumber ▸ Node.bare_number 0 root) hdecl hsplit
  obtain ⟨P, M, e, root', n, hreads', hn⟩ := hread
  obtain ⟨s', hs', htokens, hroot'⟩ := exists_parse hreads' hn.file
  rw [← htokens] at hn
  refine ⟨s', root', n, ?_, hroot', hn⟩
  rw [print_children hparse h.root hst, List.append_assoc]
  exact hs'

end Source.ClassScope

def Node.editedScope? (root : Node) : Option Node := root.classScope?.bind fun p => root.at? p.1

open Tokens in
/-- Where a scope without close tags keeps its declarations apart, the text with imports gathered is read
again, and it declares the classes of the source. -/
theorem reread_addAllImports {text : Text} {style : Style} {e e' : Editor} {calls : List (List Text)}
    (h : Editor.parse text style = .ok e) (hi : ∀ c ∈ style.indent, Lexer.isIndent c = true)
    (hwhole : ∀ t ∈ e.source.tokens, t.kind ≠ .closeTag)
    (hsep : ∀ n ∈ e.source.tree.root.editedScope?, e.source.tokens.Separate n)
    (ha : e.addAllImports calls = .ok e') : ∃ s, Source.parse e'.render = .ok s ∧
      s.tree.root.declaredClasses = e.source.tree.root.declaredClasses := by
  obtain ⟨s, hparse, rfl⟩ := Editor.parse_eq h
  cases calls with
  | nil =>
    cases ha
    exact ⟨s, by rw [Editor.render, Source.print_of_parse hparse, hparse], rfl⟩
  | cons names calls =>
    have hf := Source.faithful_of_parse hparse
    obtain ⟨hsource, hstyle, sc, is, hw, -⟩ := Editor.addAllImports_parsed hf rfl ha
    have hscope : s.tree.root.editedScope? = some sc.node := by
      rw [Node.editedScope?, sc.edited]
      exact sc.reached
    have hkinds : ∀ k, s.tokens.kind? k ≠ some .closeTag := fun k hk => by
      obtain ⟨t, ht, hkind⟩ := Option.map_eq_some_iff.1 hk
      exact hwhole t (Array.mem_of_getElem? ht) hkind
    have hi' : ∀ c ∈ (style.matching text).indent, Lexer.isIndent c = true := hi
    obtain ⟨span, body, last, hst⟩ := sc.stands hf
    rw [Editor.render, hsource, hstyle]
    obtain ⟨s', root, n, hs', hroot, hn⟩ := hw.exists_reopened hparse hkinds (hsep _ hscope) hi' hst
    refine ⟨s', hs', ?_⟩
    rw [hroot, ← Node.declaredClasses_bare, Node.bare_number, Node.declaredClasses_bare]
    exact hn.declaredClasses

/-- Two namespaces, the first with an import behind the comment at the end of its class. -/
theorem reread_addAllImports_comment : ∃ e e' s,
    Editor.parse
      "<?php\nnamespace N;\nif ($x) f();\nclass C \x7b\x7d // c\nuse A;\nnamespace M;\nclass D \x7b\x7d" =
        .ok e ∧ (∀ t ∈ e.source.tokens, t.kind ≠ .closeTag) ∧
      (∀ n ∈ e.source.tree.root.editedScope?, e.source.tokens.Separate n) ∧
      e.addAllImports [["A"], ["X\\Y"]] = .ok e' ∧ Source.parse e'.render = .ok s ∧
      s.tree.root.declaredClasses = e.source.tree.root.declaredClasses := by
  let text : Text :=
    "<?php\nnamespace N;\nif ($x) f();\nclass C \x7b\x7d // c\nuse A;\nnamespace M;\nclass D \x7b\x7d"
  have hrun : (Editor.parse text).toOption.any (fun e =>
      decide ((∀ t ∈ e.source.tokens, t.kind ≠ .closeTag) ∧
        ∀ n ∈ e.source.tree.root.editedScope?, e.source.tokens.Separate n) &&
      (e.addAllImports [["A"], ["X\\Y"]]).isOk) = true := by
    decide +kernel
  obtain ⟨e, h, hrun⟩ := Steps.exists_of_any hrun
  obtain ⟨hsound, hok⟩ := Bool.and_eq_true_iff.1 hrun
  obtain ⟨hwhole, hsep⟩ := of_decide_eq_true hsound
  obtain ⟨e', ha⟩ := Steps.exists_of_isOk hok
  obtain ⟨s, hs, hclasses⟩ := reread_addAllImports h (List.all_eq_true.1 rfl) hwhole hsep ha
  exact ⟨e, e', s, h, hwhole, hsep, ha, hs, hclasses⟩

/-- A comment takes in what stands behind it when the import that ended its line goes to the front. -/
theorem addImports_loses_class : ∃ e e' s,
    Editor.parse "<?php namespace N; class C \x7b\x7d // c\nuse A; namespace M; class D \x7b\x7d" = .ok e ∧
      (∀ t ∈ e.source.tokens, t.kind ≠ .closeTag) ∧ e.addImports ["A"] = .ok e' ∧
      Source.parse e'.render = .ok s ∧ e.source.tree.root.declaredClasses = ["N\\C", "M\\D"] ∧
      s.tree.root.declaredClasses = ["N\\C"] := by
  have hrun : (Editor.parse
      "<?php namespace N; class C \x7b\x7d // c\nuse A; namespace M; class D \x7b\x7d").toOption.any
      (fun (e : Editor) => (e.addImports ["A"]).toOption.any fun (e' : Editor) =>
        (Source.parse e'.render).toOption.any fun (s : Source) =>
          decide ((∀ t ∈ e.source.tokens, t.kind ≠ .closeTag) ∧
            e.source.tree.root.declaredClasses = ["N\\C", "M\\D"] ∧
            s.tree.root.declaredClasses = ["N\\C"])) = true := by
    decide +kernel
  obtain ⟨e, h, hrun⟩ := Steps.exists_of_any hrun
  obtain ⟨e', ha, hrun⟩ := Steps.exists_of_any hrun
  obtain ⟨s, hs, hrun⟩ := Steps.exists_of_any hrun
  obtain ⟨hwhole, hclasses, hlost⟩ := of_decide_eq_true hrun
  exact ⟨e, e', s, h, hwhole, ha, hs, hclasses, hlost⟩

end PhpGraft
