import PhpGraft.Proofs.Gathering
import PhpGraft.Proofs.LineEnding
import PhpGraft.Proofs.Merging

/-!
Imports that are gathered already. Merging names that they bind gives them back, and where the class stands
behind the gap that is printed for it, the arranged scope is printed as it was read.
-/
namespace PhpGraft

namespace Node

variable {bound : List (ImportKind × Text)} {ns ms is left : List Node} {next next' : Nat}
  {names : List Text}

/-! Merging again. -/

theorem distinctImports_append (bound : List (ImportKind × Text)) (ns ms : List Node) :
    (distinctImports bound (ns ++ ms)).1 =
      (distinctImports bound ns).1 ++ (distinctImports (bound ++ ns.flatMap importBindings) ms).1 := by
  induction ns generalizing bound with
  | nil => rw [List.flatMap_nil, List.append_nil]; rfl
  | cons n ns ih =>
    rw [List.flatMap_cons, ← List.append_assoc]
    simp only [List.cons_append, distinctImports]
    split <;> simp [ih]

/-- Imports that bind nothing new are left out. -/
theorem distinctImports_eq_nil (h : ∀ b ∈ ns.flatMap importBindings, b ∈ bound) :
    (distinctImports bound ns).1 = [] := by
  refine List.eq_nil_iff_forall_not_mem.2 fun n hn => ?_
  induction ns generalizing bound with
  | nil => cases hn
  | cons m ns ih =>
    rw [List.flatMap_cons, List.forall_mem_append] at h
    have hall : m.importBindings.all (bound.contains ·) = true :=
      List.all_eq_true.2 fun b hb => List.contains_iff_mem.2 (h.1 b hb)
    rw [distinctImports, if_pos hall] at hn
    exact ih (fun b hb => List.mem_append_left _ (h.2 b hb)) hn

theorem length_distinctImports (h : ns.map importBindings = ms.map importBindings) :
    (distinctImports bound ns).1.length = (distinctImports bound ms).1.length := by
  induction ns generalizing bound ms with
  | nil =>
    obtain rfl := List.map_eq_nil_iff.1 h.symm
    rfl
  | cons n ns ih =>
    obtain ⟨m, ms, rfl, hm, hms⟩ := List.map_eq_cons_iff.1 h.symm
    simp only [distinctImports, hm]
    split
    · exact ih hms.symm
    · rw [List.length_cons, List.length_cons, ih hms.symm]

theorem distinctImports_self_congr (h : ns.map importBindings = ms.map importBindings)
    (hns : (distinctImports bound ns).1 = ns) : (distinctImports bound ms).1 = ms := by
  refine (distinctImports_sublist bound ms).eq_of_length ?_
  rw [← length_distinctImports h, hns, ← List.length_map (f := importBindings), h, List.length_map]

theorem sortImports_of_sorted (h : Sorted ns) : sortImports ns = ns :=
  (sorted_sortImports ns).ext h (named_sortImports · ns)

theorem Sorted.congr (h : Sorted ns) (hnames : ns.map importName = ms.map importName) : Sorted ms := by
  have hmap : ∀ ns, Sorted ns ↔ (ns.map importName).Pairwise (Text.shortLexLE · · = true) :=
    fun ns => (List.pairwise_map (R := (Text.shortLexLE · · = true))).symm
  rw [hmap] at h ⊢
  rwa [← hnames]

theorem map_of_decl {α : Type} {f : Node → α} {g : Decl → α} (hf : ∀ n, f n = g n.decl)
    (h : ns.map Node.decl = ms.map Node.decl) : ns.map f = ms.map f := by
  have hg := congrArg (List.map g) h
  rw [List.map_map, List.map_map] at hg
  rwa [funext hf]

/-- The same names, merged once more into imports that they were merged into, and into those that were
left out. -/
theorem mergeImports_again (hms : ms.filter isImport = is ++ left)
    (his : is.map Node.decl = (mergeImports next names ns).map Node.decl)
    (hself : (distinctImports [] (mergeImports next names ns)).1 = mergeImports next names ns)
    (hleft : ∀ b ∈ left.flatMap importBindings, b ∈ (ns.filter isImport).flatMap importBindings) :
    mergeImports next' names ms = is := by
  have hbindings : (mergeImports next names ns).map importBindings = is.map importBindings :=
    map_of_decl (g := fun d => (d.import?.map Import.bindings).getD []) (fun _ => rfl) his.symm
  have hnames : (mergeImports next names ns).map importName = is.map importName :=
    map_of_decl (g := fun d => (d.import?.map Import.name).getD []) (fun _ => rfl) his.symm
  have hflat : is.flatMap importBindings = (mergeImports next names ns).flatMap importBindings := by
    rw [List.flatMap_def, List.flatMap_def, hbindings]
  have hold : (distinctImports [] (ms.filter isImport)).1 = is := by
    rw [hms, distinctImports_append, distinctImports_self_congr hbindings hself, List.nil_append,
      distinctImports_eq_nil fun b hb => ?_, List.append_nil]
    rw [hflat]
    exact mem_bindings_mergeImports.2 (.inl (hleft b hb))
  have hnew : newImports next' names ms = [] := by
    have hunbound : unboundNames (distinctImports [] (ms.filter isImport)).2 names = [] := by
      refine List.eq_nil_iff_forall_not_mem.2 fun name hname => ?_
      obtain ⟨hmem, hnot⟩ := mem_unboundNames.1 hname
      rw [distinctImports_bound, hms, List.flatMap_append, hflat] at hnot
      refine hnot (List.mem_append_right _ (List.mem_append_left _ ?_))
      exact mem_bindings_mergeImports.2 (.inr ⟨name, hmem, rfl⟩)
    rw [newImports, hunbound]
    rfl
  rw [mergeImports, hold, hnew, List.append_nil]
  exact sortImports_of_sorted ((sorted_sortImports _).congr hnames)

end Node

/-! The first line break. -/

namespace LineEnding

variable {t : Text}

theorem detect?_append (h : '\n' ∈ t) (u : Text) : detect? (t ++ u) = detect? t := by
  fun_induction detect? t with
  | case1 => cases h
  | case2 => rfl
  | case3 => rfl
  | case4 c t hlf hcrlf ih =>
    have ht : '\n' ∈ t := (List.mem_cons.1 h).resolve_left fun hc => hlf hc.symm
    rw [List.cons_append, detect?.eq_4 c _ hlf, ih ht]
    rintro r rfl hr
    cases t with
    | nil => cases ht
    | cons d t =>
      obtain ⟨rfl, -⟩ := List.cons.inj hr
      exact hcrlf t rfl rfl

theorem detect?_text (ending : LineEnding) (ht : '\n' ∉ t)
    (hlast : ending = .lf → t.getLast? ≠ some '\r') (u : Text) :
    detect? (t ++ (ending.text ++ u)) = some ending := by
  induction t with
  | nil => cases ending <;> rfl
  | cons c t ih =>
    obtain ⟨hc, ht'⟩ := not_or.1 (mt List.mem_cons.2 ht)
    rw [List.cons_append, detect?.eq_4 c _ (fun h => hc h.symm)]
    · refine ih ht' fun he hcr => hlast he ?_
      rw [List.getLast?_cons, hcr]
      rfl
    · rintro r rfl hr
      cases t with
      | nil =>
        cases ending with
        | lf => exact hlast rfl rfl
        | crlf => cases hr
      | cons d t => exact ht' ((List.cons.inj hr).1 ▸ List.mem_cons_self)

end LineEnding

open Text in
theorem Style.matching_newline (style : Style) {t v : Text} (hp : isPaired (t ++ v) = true) (u : Text) :
    style.matching (t ++ ((style.matching (t ++ v)).newline ++ u)) = style.matching (t ++ v) := by
  by_cases ht : '\n' ∈ t
  · rw [matching, LineEnding.detect?_append ht, matching, LineEnding.detect?_append ht]
  rw [matching, newline, LineEnding.detect?_text _ ht fun hlf hcr => ?_]
  · rfl
  have hv := head?_of_isPaired hp hcr
  obtain ⟨t, rfl⟩ := List.getLast?_eq_some_iff.1 hcr
  obtain ⟨v, rfl⟩ := List.head?_eq_some_iff.1 hv
  have hcrlf := LineEnding.detect?_text .crlf (fun h => ht (List.mem_append_left _ h))
    (fun h => by cases h) v
  rw [matching, List.append_assoc] at hlf
  rw [show ['\r'] ++ '\n' :: v = LineEnding.crlf.text ++ v from rfl, hcrlf] at hlf
  cases hlf

namespace Source

open Tokens

variable {s : Source} {text : Text} {style : Style} {c : Container} {level stop i last : Nat}
  {p n : Node} {xs ns before behind : List Node} {cur : Cursor} {prev? : Option Node} {span body : Span}

/-! Printing again. -/

/-- What is printed in front of a child that does not keep its place starts with a line break; up to there
the source is printed. -/
theorem exists_printList_newline (cur : Cursor) (hxs : ∀ x ∈ xs, ∀ a, x.origin = .anchored a →
      a.span.start ≤ a.span.stop ∧ ∀ level, s.print style level x = s.tokens.slice a.span)
    (hmoved : ∃ x ∈ xs, ∀ cur, s.keeps p.id cur x = false) :
    ∃ k t, cur.index ≤ k ∧ s.printList style c level p.id stop cur xs =
      s.tokens.between cur.index k ++ (style.newline ++ t) := by
  induction xs generalizing cur with
  | nil =>
    obtain ⟨x, hx, -⟩ := hmoved
    cases hx
  | cons x xs ih =>
    obtain ⟨hx, hxs⟩ := List.forall_mem_cons.1 hxs
    cases hk : s.keeps p.id cur x with
    | false =>
      obtain ⟨k, hgap⟩ := c.exists_gap (cur.prev?.map Node.decl) x.decl
      refine ⟨cur.index, style.newlines k ++ (style.indentation (c.childLevel level) ++
        (s.print style (c.childLevel level) x ++
          s.printList style c level p.id stop (cur.pass false x) xs)), Nat.le_refl _, ?_⟩
      rw [printList, between_self, List.nil_append]
      simp only [hk, gap_new, hgap, Skeleton.newlines_succ, List.append_assoc]
    | true =>
      obtain ⟨a, ho, hstart, -⟩ := keeps_cases hk
      obtain ⟨hle, hprint⟩ := hx a ho
      obtain ⟨y, hy, hmoved⟩ := hmoved
      have hy : y ∈ xs := by
        rcases List.mem_cons.1 hy with rfl | hy
        · rw [hmoved cur] at hk
          cases hk
        · exact hy
      obtain ⟨k, t, hstop, ht⟩ := ih ⟨a.span.stop, some x, true⟩ hxs ⟨y, hy, hmoved⟩
      replace hstop : a.span.stop ≤ k := hstop
      refine ⟨k, t, by omega, ?_⟩
      rw [printList_cons_kept ho hstart hle hk, ht, hprint, Tokens.slice,
        ← between_append hstart (Nat.le_trans hle hstop), ← between_append hle hstop]
      simp only [List.append_assoc]

/-- Children that stand behind the one that they were read behind are printed as they were read. -/
theorem printList_behind (hd : s.tree.root.Distinct) (hp : p ∈ s.tree.root.subnodes)
    (hc : p.children = before ++ ns ++ behind) (hs : Siblings s.tokens i ns last) (hstop : last ≤ stop)
    (hprev : cur.prev?.map Node.id = before.getLast?.map Node.id) (hi : cur.index = i)
    (hns : ∀ n ∈ ns, s.Intact style n) (htail : ns = [] → s.tail style c level cur stop =
      s.tokens.between i stop) :
    s.printList style c level p.id stop cur ns = s.tokens.between i stop := by
  cases ns with
  | nil => exact htail rfl
  | cons n ns =>
    -- Whether the one in front kept its place shows in what stands behind the last child alone.
    have hkept : s.printList style c level p.id stop cur (n :: ns) =
        s.printList style c level p.id stop ⟨i, cur.prev?, true⟩ ((n :: ns) ++ []) := by
      rw [List.append_nil, printList, printList, ← hi]
      rfl
    rw [hkept, printList_append hd hp hc hs hprev hns, printList]
    have htail' : s.tail style c level ⟨last, (n :: ns).getLast?.or cur.prev?, true⟩ stop =
        s.tokens.between last stop := by
      simp [tail]
    rw [htail', between_append hs.le hstop]

namespace ClassScope

variable {sc : s.ClassScope} {is left : List Node} {t : Tree} {limit : Nat} {a : Anchor}

/-- The text with imports gathered goes on with a line break where it leaves its source. -/
theorem Arranged.exists_newline (h : sc.Arranged is t) (hp : Source.parse text = .ok s) (style : Style) :
    ∃ k u, s.print style 0 t.root = s.tokens.between 0 k ++ (style.newline ++ u) := by
  have hf := faithful_of_parse hp
  obtain ⟨span, body, last, hst⟩ := sc.stands hf
  have hread : ∀ x ∈ sc.arranged is, ∀ a, x.origin = .anchored a →
      a.span.start ≤ a.span.stop ∧ ∀ level, s.print style level x = s.tokens.slice a.span := by
    intro x hx a ha
    rcases h.imports.cases hx with ⟨m, hm, rfl | rfl, -⟩ | ⟨id, name, -, -, -, rfl⟩
    · have hplaced := hst.siblings.placed x hm
      exact ⟨Nat.le_of_lt (hplaced.start_lt ha), fun level => intact_of_placed hf.distinct hplaced
        (Node.mem_subnodes_of_child hm (node_mem sc)) level a ha⟩
    · obtain ⟨b, hb⟩ := (hst.siblings.placed m hm).anchor
      rw [Node.detach, hb] at ha
      cases ha
    · cases ha
  obtain ⟨k, u, hk, hlist⟩ : ∃ k u, body.start ≤ k ∧ s.printList style (.ofDecl sc.node.decl) 0 sc.node.id
      body.stop ⟨body.start, none, true⟩ (sc.arranged is) =
        s.tokens.between body.start k ++ (style.newline ++ u) :=
    exists_printList_newline ⟨body.start, none, true⟩ hread
      ⟨sc.cls.detach, by simp [arranged], fun _ => keeps_detach ..⟩
  refine ⟨k, u ++ s.tokens.between body.stop s.tokens.size, ?_⟩
  rw [print_children hp h.root hst, hlist, ← between_append (Nat.zero_le body.start) hk]
  simp only [List.append_assoc]

/-- The imports `is` stand in front of the scope, in which the class was read from `a`, behind the gap that
is printed for it; the imports `left` stand at its end. -/
structure Gathered (sc : s.ClassScope) (style : Style) (body : Span) (is left : List Node) (a : Anchor) :
    Prop where
  ahead : sc.before = is ++ Node.others sc.before
  behind : sc.behind = Node.others sc.behind ++ left
  place : sc.cls.origin = .anchored a
  gap : s.tokens.between (Node.lastStop body.start sc.before) a.span.start = sc.classGap style is
  ends : Container.ofDecl sc.node.decl = .block → Node.others sc.behind = [] →
    '\n' ∈ s.tokens.between a.span.stop body.stop

/-- Gathering imports that are gathered changes nothing. -/
theorem Gathered.print_eq (h : sc.Gathered style body is left a) (hp : Source.parse text = .ok s)
    (hst : sc.Stands span body last)
    (ht : t.root = s.tree.root.modifyAt (.withChildren fun _ => sc.arranged is) sc.path) :
    s.print style 0 t.root = text := by
  have hf := faithful_of_parse hp
  have hintact : ∀ n ∈ sc.node.children, s.Intact style n := fun n hn =>
    intact_of_placed hf.distinct (hst.siblings.placed n hn) (Node.mem_subnodes_of_child hn (node_mem sc))
  have harranged : sc.arranged is = sc.before ++ sc.cls.detach :: Node.others sc.behind := by
    rw [arranged, ← List.append_assoc, ← h.ahead]
  have hchildren : sc.node.children = sc.before ++ sc.cls :: (Node.others sc.behind ++ left) := by
    rw [sc.split, ← h.behind]
  have hs := hst.siblings
  rw [hchildren] at hs
  obtain ⟨mid, hbefore, hs⟩ := hs.split
  cases hs with
  | @cons _ _ a' _ _ ho hi _ hcls hs =>
    obtain rfl := Origin.anchored.inj (ho.symm.trans h.place)
    obtain ⟨mid', hbehind, hleft⟩ := hs.split
    have hlt := hcls.start_lt ho
    have hlast := hst.encloses.last_le
    have hstart := hbefore.le
    have hle := hbehind.le
    have hle' := hleft.le
    -- The class is set off as it stands, and behind it nothing moved.
    have hrest : s.printList style (.ofDecl sc.node.decl) 0 sc.node.id body.stop
        ⟨mid, sc.before.getLast?.or none, true⟩ (sc.cls.detach :: Node.others sc.behind) =
          s.tokens.between mid body.stop := by
      have hgap := h.gap
      rw [← hbefore.last_eq, classGap, ← h.ahead] at hgap
      have hpass : Cursor.pass ⟨mid, sc.before.getLast?, true⟩ false sc.cls.detach =
          ⟨a'.span.stop, some sc.cls.detach, false⟩ := by
        rw [Cursor.pass, Node.anchor?_detach, ho]
        simp only [Origin.anchor?]
        rw [Nat.max_eq_right (by omega)]
      have htail : Node.others sc.behind = [] → s.tail style (.ofDecl sc.node.decl) 0
          ⟨a'.span.stop, some sc.cls.detach, false⟩ body.stop = s.tokens.between a'.span.stop body.stop := by
        intro hnil
        refine if_neg fun hif => ?_
        simp only [Bool.and_eq_true, decide_eq_true_eq] at hif
        have hends := List.contains_iff_mem.2 (h.ends hif.1.2 hnil)
        rw [hends] at hif
        cases hif.2
      rw [printList, keeps_detach, gap_new, Option.or_none, print_detach, hintact sc.cls (cls_mem sc) _ a' ho,
        hpass, printList_behind hf.distinct (node_mem sc)
          (show _ = (sc.before ++ [sc.cls]) ++ Node.others sc.behind ++ left by simp [hchildren])
          hbehind (by omega) (by simp [Node.detach]) rfl
          (fun n hn => hintact n (by rw [hchildren]; simp [hn])) htail]
      change style.newlines ((Container.ofDecl sc.node.decl).gap (sc.before.getLast?.map Node.decl)
        sc.cls.decl) ++ style.indentation ((Container.ofDecl sc.node.decl).childLevel 0) ++ _ ++ _ = _
      rw [← hgap, Tokens.slice, between_append hi (by omega), between_append (by omega) (by omega)]
    have hlist : s.printList style (.ofDecl sc.node.decl) 0 sc.node.id body.stop ⟨body.start, none, true⟩
        (sc.before ++ sc.cls.detach :: Node.others sc.behind) = _ :=
      printList_append hf.distinct (node_mem sc)
        (show _ = [] ++ sc.before ++ sc.cls :: (Node.others sc.behind ++ left) by simp [hchildren])
        hbefore rfl fun n hn => hintact n (by rw [hchildren]; simp [hn])
    rw [print_children hp ht hst, harranged, hlist, hrest, between_append hstart (by omega),
      between_append (Nat.zero_le _) (by omega), between_append (Nat.zero_le _)
        (Nat.le_trans hst.encloses.stop_le hst.encloses.le_size), between_size, hf.spells]

end ClassScope
end Source

end PhpGraft
