import PhpGraft.Proofs.Interleaving
import PhpGraft.Proofs.Leading

/-!
Names in the edited text. The imports stand in front of their scope, and the new methods behind what is
printed in front of them and ends in a brace, a semicolon or a comment; so the names that were asked for
are among the tokens that the text begins with.
-/
namespace PhpGraft

namespace Tokens

open Lexer

variable {style : Style} {level k last : Nat} {r : Rendering style level}
  {rs : List (Rendering style level)} {cs : List Chunk} {c : Chunk} {ts : Tokens} {m : Mode} {w T : Text}
  {behind Z : List Token}

/-! Methods. -/

/-- Chunks of code that ends with a brace: the last brace stands behind all of the code. -/
theorem Chunk.exists_last {α : Type} {f : α → List Token} {qs : List α} (hne : qs ≠ [])
    (h : cs.map Chunk.code = qs.map (f · ++ [brace])) :
    ∃ xs zs, Chunk.all cs = xs ++ brace :: zs ∧ ∀ q ∈ qs, f q ⊆ xs := by
  induction qs generalizing cs with
  | nil => exact absurd rfl hne
  | cons q qs ih =>
    obtain ⟨c, cs, rfl, hc, hcs⟩ := List.map_eq_cons_iff.1 h
    have hall : Chunk.all (c :: cs) = f q ++ brace :: (c.note ++ c.gap ++ Chunk.all cs) := by
      simp [Chunk.all, Chunk.tokens, hc]
    by_cases hqs : qs = []
    · subst hqs
      exact ⟨f q, _, hall, List.forall_mem_singleton.2 (List.Subset.refl _)⟩
    · obtain ⟨xs, zs, hxs, hmem⟩ := ih hqs hcs
      refine ⟨f q ++ brace :: (c.note ++ c.gap ++ xs), zs, ?_, List.forall_mem_cons.2 ⟨?_, fun p hp => ?_⟩⟩
      · rw [hall, hxs]
        simp only [List.append_assoc, List.cons_append]
      · exact List.subset_append_left _ _
      · intro t ht
        simp [hmem p hp ht]

theorem Rendering.Chunks.exists_last (h : r.Chunks rs behind c cs T) : ∃ xs zs,
    Chunk.all (c :: cs) = xs ++ brace :: zs ∧ ∀ q ∈ r :: rs, ⟨.name, q.decl.name⟩ ∈ xs := by
  have hcodes : (c :: cs).map Chunk.code =
      (r :: rs).map fun q => (q.method.head style level q.gap ++ q.tokens) ++ [brace] := by
    have hparts := congrArg (List.map Prod.fst) h.parts
    simpa [Function.comp_def, Rendering.part, methodPart, methodTokens] using hparts
  obtain ⟨xs, zs, hall, hmem⟩ := Chunk.exists_last (List.cons_ne_nil r rs) hcodes
  refine ⟨xs, zs, hall, fun q hq => hmem q hq ?_⟩
  rw [show q.decl.name = q.method.name from (congrArg Method.name q.rendered.placed).symm]
  simp [NewMethod.head]

/-- A semicolon, a curly brace or a comment stands in front of index `k`. -/
def Concludes (ts : Tokens) (k : Nat) : Prop :=
  (∃ z, isBarrier z = true ∧ ts.isPunct (k - 1) z = true) ∨ ts.isComment (k - 1) = true

namespace Concludes

variable (h : ts.Concludes last) (hk : k < last)
  (hreads : Reads m (ts.toList.drop k) (ts.between k ts.size))
include h hk hreads

theorem exists_behind (hw : ∀ c ∈ w, isSpace c = true) (hbreaks : Breaks w)
    (hT : T.head?.any isSpace = false) (hZ : Reads .code Z T) :
    ∃ us, Reads m (us ++ Z) (ts.between k last ++ (w ++ T)) := by
  obtain ⟨i, rfl⟩ := Nat.exists_eq_succ_of_ne_zero (Nat.ne_of_gt (Nat.zero_lt_of_lt hk))
  obtain ⟨t, ht, hended⟩ : ∃ t, ts[i]? = some t ∧
      ((∃ z, isBarrier z = true ∧ t = ⟨.punct, [z]⟩) ∨ t.kind.isComment = true) := by
    rcases h with ⟨z, hz, hp⟩ | hcomment
    · exact ⟨_, isPunct_iff.1 hp, .inl ⟨z, hz, rfl⟩⟩
    · obtain ⟨kind, hkind, hcomment⟩ := (Option.any_eq_true _ _).1 hcomment
      obtain ⟨t, ht, rfl⟩ := Option.map_eq_some_iff.1 hkind
      exact ⟨t, ht, .inr hcomment⟩
  have hle : k ≤ i := Nat.le_of_lt_succ hk
  have hbetween : ts.between k (i + 1) = Token.spell ((ts.extract k i).toList ++ [t]) := by
    rw [← extract_singleton ht, extract_split hle (Nat.le_succ i), between]
  rw [ts.drop_split hle, ts.drop_split (Nat.le_succ i), extract_singleton ht] at hreads
  rw [hbetween]
  exact hreads.behind_ended hended hw (.inr (hbreaks.append T)) hT hZ

/-- Methods behind the code. -/
theorem exists_names (hi : ∀ c ∈ style.indent, isIndent c = true) (hrs : rs ≠ []) (isFirst : Bool) :
    ∃ us zs, Reads m (us ++ brace :: (zs ++ [brace])) (ts.between k last ++
        (Method.appendix style level isFirst (rs.map (·.decl)) ++ ['\x7d'])) ∧
      ∀ q ∈ rs, ⟨.name, q.decl.name⟩ ∈ us := by
  obtain ⟨r, rs, rfl⟩ := List.exists_cons_of_ne_nil hrs
  have hbrace : Reads .code [brace] (Token.spell [brace]) := .cons (u := []) (scanCode_barrier rfl _) .nil
  obtain ⟨cs, hfollows, hparts⟩ := follows_methods hi r rs (List.forall_mem_nil _) hbrace
  obtain ⟨c, cs, rfl⟩ : ∃ c cs', cs = c :: cs' := by
    cases cs with
    | nil => cases hparts
    | cons c cs => exact ⟨c, cs, rfl⟩
  have hw : ∀ c ∈ style.newlines (if isFirst then 1 else 2) ++ style.indentation level, isSpace c = true :=
    Rendering.isSpace_gap hi _
  have hbreaks : Breaks (style.newlines (if isFirst then 1 else 2) ++ style.indentation level) :=
    Rendering.breaks_gap style level (by split <;> decide)
  obtain ⟨us, hread⟩ := h.exists_behind hk hreads hw hbreaks hfollows.solid hfollows.reads
  obtain ⟨xs, zs, hall, hnames⟩ := Rendering.Chunks.exists_last ⟨hfollows, hparts⟩
  refine ⟨us ++ xs, zs, ?_, fun q hq => List.mem_append_right _ (hnames q hq)⟩
  rw [hall] at hread
  rw [List.map_cons, Method.appendix]
  simpa [Token.spell, brace] using hread

end Concludes

end Tokens

namespace Source

open Tokens Lexer

variable {s : Source} {text : Text} {style : Style} {sc : s.ClassScope} {site : Site} {root c : Node}
  {b lead last : Nat} {ms : List Node}

/-- Where no close tag stands in front of the methods, it is the end of a member or a comment, or the opening
brace. -/
theorem Sited.concludes (h : s.Sited site root c b lead last ms) (hreads : Reads .html s.tokens.toList text)
    (hend : s.tokens.kind? (site.last - 1) ≠ some .closeTag) : s.tokens.Concludes site.last := by
  rcases Nat.lt_or_eq_of_le h.closes.le_site with hlt | heq
  · exact .inr (h.closes.final hlt)
  rw [← heq, h.closes.empty heq] at hend ⊢
  rcases h.items.cases_last with ⟨-, hb⟩ | ⟨before, mid, r, -, hbefore, hs, he, hr⟩
  · rw [hb]
    exact .inl ⟨_, rfl, h.opening⟩
  have hlt := lt_of_entry he hs
  have hopen : ∀ name?, r.1.decl ≠ .scope name? false := fun name? hd => by
    have hno := isScope_of_member he
    rw [hd] at hno
    cases hno
  rw [hr] at hend ⊢
  have hended := (ended_entry he hopen).resolve_left (not_closeTag_of_finish hreads (by omega) hend)
  rw [finish_of_member he, withTrailing_snd]
  refine (ended_trailing hended site.closing).imp_right fun hline => ?_
  rw [isComment, hline]
  rfl

namespace ClassScope

variable {t : Tree} {is : List Node} {span body : Span} {last : Nat}

/-- What is printed up to the class, and the class. -/
theorem Arranged.exists_print (h : sc.Arranged is t) (hp : Source.parse text = .ok s)
    (hst : sc.Stands span body last) (style : Style) (new : List Node) : ∃ R,
      s.print style 0 (Node.appendAt (sc.path ++ [(is ++ Node.others sc.before).length]) new t.root) =
        s.tokens.between 0 body.start ++ (s.printFront style (.ofDecl sc.node.decl) 0 sc.node.id
            ⟨body.start, none, true⟩ (is ++ Node.others sc.before) ++ sc.classGap style is) ++
          (s.print style ((Container.ofDecl sc.node.decl).childLevel 0) (sc.cls.withChildren (· ++ new)) ++
            R) := by
  have hroot : Node.appendAt (sc.path ++ [(is ++ Node.others sc.before).length]) new t.root =
      s.tree.root.modifyAt (.withChildren fun _ => is ++ Node.others sc.before ++
        (sc.cls.withChildren (· ++ new)).detach :: Node.others sc.behind) sc.path := by
    rw [Node.appendAt, Node.modifyAt_append, h.root, Node.modifyAt_modifyAt]
    refine Node.modifyAt_congr sc.reached ?_
    rw [Node.modifyAt]
    refine congrArg (Node.mk _ _ _) ?_
    rw [Node.withChildren, arranged, ← List.append_assoc, Node.modify_append_cons]
    rfl
  have hw := (Walk.start (i := body.start)).passAll s sc.node.id (is ++ Node.others sc.before)
  rw [List.nil_append] at hw
  refine ⟨s.printList style (.ofDecl sc.node.decl) 0 sc.node.id body.stop
    ((s.passAll sc.node.id ⟨body.start, none, true⟩ (is ++ Node.others sc.before)).pass false
      (sc.cls.withChildren (· ++ new)).detach) (Node.others sc.behind) ++
        s.tokens.between body.stop s.tokens.size, ?_⟩
  refine (print_children (t := ⟨_, t.next⟩) hp hroot hst).trans ?_
  rw [printList_front, printList, keeps_detach, gap_new, hw.prev, print_detach, classGap]
  simp only [List.append_assoc]
  rfl

theorem at?_cls (sc : s.ClassScope) :
    s.tree.root.at? (sc.path ++ [sc.before.length]) = some sc.cls := by
  rw [Node.at?_append, sc.reached, Option.bind_some, Node.at?, sc.split]
  simp [Node.at?]

/-- Where imports were gathered and methods added, the names of the methods are tokens. -/
theorem Arranged.exists_names (h : sc.Arranged is t) (hparse : Source.parse text = .ok s)
    (hsite : ∀ site ∈ s.site?, s.tokens.kind? (site.last - 1) ≠ some .closeTag)
    (hfront : ∀ m ∈ sc.before, s.tokens.Terminated m) (hi : ∀ c ∈ style.indent, isIndent c = true)
    (next : Nat) {rs : List (Rendering style ((Container.ofDecl sc.node.decl).childLevel 0 + 1))}
    (hrs : rs ≠ []) : ∃ ts, (s.print style 0
        (Node.appendAt (sc.path ++ [(is ++ Node.others sc.before).length])
        (Node.ofMethods next (rs.map (·.decl))) t.root)).Begins ts ∧
      ∀ q ∈ rs, ⟨.name, q.decl.name⟩ ∈ ts := by
  have hf := faithful_of_parse hparse
  obtain ⟨-, -, -, hreads⟩ := Source.parse_eq hparse
  obtain ⟨span, body, last, hst⟩ := sc.stands hf
  obtain ⟨c, cspan, cbody, clast, hcat, -, ho, hs, he, hplace⟩ := site?_eq hf sc.edited
  obtain rfl := Option.some.inj (sc.at?_cls.symm.trans hcat)
  obtain ⟨root, c, b, lead, last', ms, hsited, -⟩ := exists_sited hparse sc.edited hplace
  obtain ⟨start, mid, stop, hat⟩ := exists_codeAt hparse hst (cls_mem sc) (.inr (.inl sc.isClass))
  obtain ⟨a, ha, hspan⟩ := hat.anchor
  obtain rfl := Origin.anchored.inj (ho.symm.trans ha)
  obtain rfl : cspan = ⟨start, stop⟩ := hspan
  have hlt : start < clast :=
    Nat.lt_of_lt_of_le (he.braces (Container.ofDecl_of_isClass sc.isClass)).1 hs.le
  obtain ⟨us, zs, hread, hnames⟩ := (hsited.concludes hreads (hsite _ hplace)).exists_names hlt
    (hat.reads_start hreads) hi hrs sc.cls.children.isEmpty
  obtain ⟨vs, hall⟩ := exists_front hparse hi hst h.imports hfront (hat.solid hreads hlt _) hread
  obtain ⟨R, hprint⟩ := h.exists_print hparse hst style (Node.ofMethods next (rs.map (·.decl)))
  refine ⟨vs ++ us ++ [brace], ?_, fun q hq => ?_⟩
  · rw [hprint, print_appended style _ next hf.distinct
      (Node.mem_subnodes_of_child (cls_mem sc) (node_mem sc)) sc.isClass ho hs he (by simpa using hrs)]
    simp only [← List.append_assoc] at hall
    have hbegins := fun R => Reads.begins_append (z := '\x7d') (x := brace) rfl hall R
    simp only [List.append_assoc] at hbegins ⊢
    exact hbegins _
  · simp [hnames q hq]

end ClassScope

end Source

namespace Editor

open Source Tokens

variable {s : Source} {style : Style} {text : Text} {e e' : Editor} {ms : List NewMethod}
  {ds : List Method} {ops : List Operation} {names : List Text} {calls : List (List Text)}

/-! Runs. -/

theorem exists_name_eq (h : List.Forall₂ (fun m d => m.method? = .ok d) ms ds) :
    ∀ m ∈ ms, ∃ d ∈ ds, d.name = m.name := by
  induction h with
  | nil => exact List.forall_mem_nil _
  | cons hd _ ih =>
    refine List.forall_mem_cons.2 ⟨⟨_, List.mem_cons_self, ?_⟩, fun m hm => ?_⟩
    · obtain ⟨sts, -, rfl⟩ := NewMethod.method?_eq hd
      rfl
    · obtain ⟨d, hd, hname⟩ := ih m hm
      exact ⟨d, List.mem_cons_of_mem _ hd, hname⟩

theorem exists_begins_appended (hparse : Source.parse text = .ok s)
    (hsite : ∀ site ∈ s.site?, s.tokens.kind? (site.last - 1) ≠ some .closeTag)
    (hi : ∀ c ∈ style.indent, Lexer.isIndent c = true) (hms : ∀ m ∈ ms, m.Movable) (hne : ms ≠ [])
    (ha : addMethods ⟨s, s.tree, style⟩ ms = .ok e') :
    ∃ ts, e'.render.Begins ts ∧ ∀ m ∈ ms, ⟨.name, m.name⟩ ∈ ts := by
  obtain ⟨-, -, -, hreads⟩ := Source.parse_eq hparse
  obtain ⟨scope, i, site, hscope, hplace, rs, hds, hrender⟩ := exists_appended hparse hi hms hne ha
  have hrs : rs ≠ [] := by
    rintro rfl
    cases hds
    exact hne rfl
  obtain ⟨root, c, b, lead, last, ns, hsited, -⟩ := exists_sited hparse hscope hplace
  have hlt : 0 < site.last := Nat.lt_of_lt_of_le hsited.pos (Nat.le_trans hsited.items.le
    (Nat.le_trans hsited.closes.le hsited.closes.le_site))
  have hzero : Lexer.Reads .html (s.tokens.toList.drop 0) (s.tokens.between 0 s.tokens.size) := by
    rwa [← spell_drop, List.drop_zero, hreads.spell]
  obtain ⟨us, zs, hread, hnames⟩ := (hsited.concludes hreads (hsite _ hplace)).exists_names hlt hzero hi hrs
    site.isEmpty
  refine ⟨us ++ [brace], ?_, fun m hm => ?_⟩
  · rw [← List.append_assoc] at hread
    have hbegins := fun R => Lexer.Reads.begins_append (z := '\x7d') (x := brace) rfl hread R
    rw [hrender, List.append_assoc _ (s.siteTail style site)]
    exact hbegins _
  · obtain ⟨d, hd, hname⟩ := exists_name_eq hds m hm
    obtain ⟨q, hq, rfl⟩ := List.mem_map.1 hd
    rw [← hname]
    exact List.mem_append_left _ (hnames q hq)

theorem exists_begins_imports (hparse : Source.parse text = .ok s)
    (hi : ∀ c ∈ style.indent, Lexer.isIndent c = true)
    (he : addAllImports ⟨s, s.tree, style⟩ (names :: calls) = .ok e) (ha : e.addMethods ms = .ok e') :
    ∃ ts, e'.render.Begins ts ∧ ∀ asked ∈ names :: calls, ∀ name ∈ asked, s.Lists ts (plainName name) := by
  have hf := faithful_of_parse hparse
  obtain ⟨hsource, hstyle, sc, is, hw, hbinds⟩ := addAllImports_parsed hf rfl he
  obtain ⟨ds, -, hsource', hstyle', hroot⟩ := addMethods_eq ha hw.classScope?
  obtain ⟨span, body, last, hst⟩ := sc.stands hf
  obtain ⟨R, hprint⟩ := hw.exists_print hparse hst style (Node.ofMethods e.working.next ds)
  obtain ⟨ts, hbegins, hlists⟩ := ClassScope.exists_begins hparse hi hst hw.imports
    (.ofDecl sc.node.decl) 0
    (s.printFront style (.ofDecl sc.node.decl) 0 sc.node.id
      (s.passAll sc.node.id ⟨body.start, none, true⟩ is) (Node.others sc.before) ++
        (sc.classGap style is ++ (s.print style ((Container.ofDecl sc.node.decl).childLevel 0)
          (sc.cls.withChildren (· ++ Node.ofMethods e.working.next ds)) ++ R)))
  refine ⟨ts, ?_, fun asked hasked name hname => ?_⟩
  · rw [render, hsource', hsource, hstyle', hstyle, hroot, hprint, printFront_append]
    simpa only [List.append_assoc] using hbegins
  · obtain ⟨x, hx, hbound⟩ := List.mem_flatMap.1 (hbinds asked hasked name hname)
    exact hlists x hx _ (Node.mem_names_of_binding hbound)

theorem exists_begins_methods (hparse : Source.parse text = .ok s)
    (hsite : ∀ site ∈ s.site?, s.tokens.kind? (site.last - 1) ≠ some .closeTag)
    (hi : ∀ c ∈ style.indent, Lexer.isIndent c = true)
    (hfront : ∀ p ∈ s.tree.root.classScope?, ∀ n ∈ s.tree.root.at? p.1, ∀ m ∈ n.children.take p.2,
      s.tokens.Terminated m) (hms : ∀ m ∈ ms, m.Movable) (hne : ms ≠ [])
    (he : addAllImports ⟨s, s.tree, style⟩ (names :: calls) = .ok e) (ha : e.addMethods ms = .ok e') :
    ∃ ts, e'.render.Begins ts ∧ ∀ m ∈ ms, ⟨.name, m.name⟩ ∈ ts := by
  obtain ⟨hsource, hstyle, sc, is, hw, -⟩ := addAllImports_parsed (faithful_of_parse hparse) rfl he
  obtain ⟨ds, hds, hsource', hstyle', hroot⟩ := addMethods_eq ha hw.classScope?
  obtain ⟨rs, rfl⟩ := exists_renderings hds (fun m hm => ⟨hms m hm, names_addMethods ha m hm⟩) hi
    ((Container.ofDecl sc.node.decl).childLevel 0 + 1)
  have hrs : rs ≠ [] := by
    rintro rfl
    cases hds
    exact hne rfl
  have hfront' : ∀ m ∈ sc.before, s.tokens.Terminated m := by
    intro m hm
    refine hfront _ sc.edited _ sc.reached m ?_
    rwa [sc.split, List.take_left]
  obtain ⟨ts, hbegins, hnames⟩ := hw.exists_names hparse hsite hfront' hi e.working.next hrs
  refine ⟨ts, ?_, fun m hm => ?_⟩
  · rwa [render, hsource', hsource, hstyle', hstyle, hroot]
  · obtain ⟨d, hd, hname⟩ := exists_name_eq hds m hm
    obtain ⟨q, hq, rfl⟩ := List.mem_map.1 hd
    rw [← hname]
    exact hnames q hq

/-- Methods that can be moved, behind a member that no close tag ends. Where imports are asked for as well, no
close tag ends a declaration in front of the class. -/
structure AdmitsMethods (e : Editor) (ops : List Operation) : Prop where
  indent : ∀ c ∈ e.style.indent, Lexer.isIndent c = true
  movable : ∀ m ∈ ops.filterMap Operation.newMethod?, m.Movable
  site : ∀ site ∈ e.source.site?, e.source.tokens.kind? (site.last - 1) ≠ some .closeTag
  front : ops.filterMap Operation.importNames? ≠ [] → ∀ p ∈ e.source.tree.root.classScope?,
    ∀ n ∈ e.source.tree.root.at? p.1, ∀ m ∈ n.children.take p.2, e.source.tokens.Terminated m

instance (e : Editor) (ops : List Operation) : Decidable (e.AdmitsMethods ops) :=
  decidable_of_iff (e.style.indent.all Lexer.isIndent = true ∧
      (∀ m ∈ ops.filterMap Operation.newMethod?, m.Movable) ∧
      (∀ site ∈ e.source.site?, e.source.tokens.kind? (site.last - 1) ≠ some .closeTag) ∧
      (ops.filterMap Operation.importNames? ≠ [] → ∀ p ∈ e.source.tree.root.classScope?,
        ∀ n ∈ e.source.tree.root.at? p.1, ∀ m ∈ n.children.take p.2, e.source.tokens.Terminated m))
    ⟨fun ⟨hi, hms, hsite, hfront⟩ => ⟨List.all_eq_true.1 hi, hms, hsite, hfront⟩,
      fun ⟨hi, hms, hsite, hfront⟩ => ⟨List.all_eq_true.2 hi, hms, hsite, hfront⟩⟩

theorem exists_begins_lists (h : Editor.parse text style = .ok e)
    (hi : ∀ c ∈ style.indent, Lexer.isIndent c = true) (ha : e.applyAll ops = .ok e') :
    ∃ ts, e'.render.Begins ts ∧ ∀ names ∈ ops.filterMap Operation.importNames?, ∀ name ∈ names,
      e.source.Lists ts (plainName name) := by
  obtain ⟨s, hparse, rfl⟩ := Editor.parse_eq h
  have hindent : ∀ c ∈ (style.matching text).indent, Lexer.isIndent c = true := hi
  obtain ⟨e₁, e₂, h₁, h₂, hrender⟩ := exists_sorted hparse ha
  rw [← hrender]
  generalize ops.filterMap Operation.importNames? = calls at *
  cases calls with
  | nil => exact ⟨[], Text.begins_nil _, List.forall_mem_nil _⟩
  | cons names calls => exact exists_begins_imports hparse hindent h₁ h₂

theorem AdmitsMethods.exists_begins (h : Editor.parse text style = .ok e) (hadm : e.AdmitsMethods ops)
    (ha : e.applyAll ops = .ok e') :
    ∃ ts, e'.render.Begins ts ∧ ∀ m ∈ ops.filterMap Operation.newMethod?, ⟨.name, m.name⟩ ∈ ts := by
  obtain ⟨s, hparse, rfl⟩ := Editor.parse_eq h
  obtain ⟨hi, hms, hsite, hfront⟩ := hadm
  obtain ⟨e₁, e₂, h₁, h₂, hrender⟩ := exists_sorted hparse ha
  rw [← hrender]
  generalize ops.filterMap Operation.newMethod? = ms at *
  generalize ops.filterMap Operation.importNames? = calls at *
  by_cases hnone : ms = []
  · subst hnone
    exact ⟨[], Text.begins_nil _, List.forall_mem_nil _⟩
  cases calls with
  | nil =>
    cases h₁
    exact exists_begins_appended hparse hsite hi hms hnone h₂
  | cons names calls =>
    exact exists_begins_methods hparse hsite hi (hfront (List.cons_ne_nil _ _)) hms hnone h₁ h₂

end Editor

/-- Where names are checked, printed and read, they are what code reads as one name token. -/
structure NamesAgree : Prop where
  qualified : ∀ t, Name.isQualified t = true ↔ ∃ x, lexCode t = .ok [x] ∧ x.kind = .name
  identifier : ∀ t, Name.isIdentifier t = true ↔
    (∃ x, lexCode t = .ok [x] ∧ x.kind = .name) ∧ '\\' ∉ t
  added : ∀ text style (e e' : Editor) ops, Editor.parse text style = .ok e → e.AdmitsMethods ops →
    e.applyAll ops = .ok e' → ∃ ts, e'.render.Begins ts ∧
      ∀ m ∈ ops.filterMap Operation.newMethod?, ⟨.name, m.name⟩ ∈ ts
  imported : ∀ text style (e e' : Editor) ops, Editor.parse text style = .ok e →
    (∀ c ∈ style.indent, Lexer.isIndent c = true) → e.applyAll ops = .ok e' → ∃ ts, e'.render.Begins ts ∧
      ∀ names ∈ ops.filterMap Operation.importNames?, ∀ name ∈ names,
        e.source.Lists ts (Editor.plainName name)
  generated : ∀ k style text, Skeleton.generate k style = .ok text → ∃ ts, lex text = .ok ts ∧
    ⟨.name, k.name⟩ ∈ ts ∧ (k.plain.scope ≠ [] → ⟨.name, k.plain.scope⟩ ∈ ts)
  token : ∀ text ts, lex text = .ok ts → ∀ x ∈ ts, x.kind = .name → Name.isQualified x.text = true
  /-- Names of namespaces, imports, classes and methods that are read. -/
  read : ∀ text s, Source.parse text = .ok s → ∀ n ∈ s.tree.root.subnodes, ∀ w ∈ n.decl.names,
    s.tokens.Spells w ∧ Name.isQualified w = true ∧ ('\\' ∉ w → Name.isIdentifier w = true)

/-- The name that a run asks for is no token of the text it comes to. -/
def Editor.Loses (text : Text) (style : Style) (ops : List Operation) (w : Text) : Prop :=
  ∃ e e', Editor.parse text style = .ok e ∧ e.applyAll ops = .ok e' ∧
    ∀ ts, lex e'.render = .ok ts → ⟨.name, w⟩ ∉ ts

theorem Editor.loses_of_any {text : Text} {style : Style} {ops : List Operation} {w : Text}
    (h : ((Editor.parse text style).toOption.any fun e => (e.applyAll ops).toOption.any fun e' =>
      (lex e'.render).toOption.all fun ts => !ts.contains ⟨.name, w⟩) = true) :
    Editor.Loses text style ops w := by
  obtain ⟨e, hparse, h⟩ := Steps.exists_of_any h
  obtain ⟨e', ha, h⟩ := Steps.exists_of_any h
  refine ⟨e, e', hparse, ha, fun ts hts hmem => ?_⟩
  rw [hts, Except.toOption, Option.all_some, List.contains_iff_mem.2 hmem] at h
  cases h

end PhpGraft
