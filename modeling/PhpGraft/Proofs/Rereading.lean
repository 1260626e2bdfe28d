import PhpGraft.Proofs.ClassParts
import PhpGraft.Proofs.Operations
import PhpGraft.Proofs.Splice

/-!
Reading the edited text. The tree that is read from it is that of the source with the methods that were
added behind the members of the class.
-/
namespace PhpGraft

def Decl.method? : Decl → Option Method
  | method m => some m
  | _ => none

namespace Node

variable {root n c : Node} {ns : List Node} {path : List Nat} {i k : Nat}

/-- The methods among the members of a class. -/
def methods (n : Node) : List Method := n.children.filterMap (·.decl.method?)

/-- The class that methods are added to. -/
def editedClass? (root : Node) : Option Node :=
  root.classScope?.bind fun (scope, classAt) => root.at? (scope ++ [classAt])

/-! Trees that differ only in their numbers and in where they were read. -/

theorem outline_bare (n : Node) : n.bare.outline = n.outline := by
  rw [outline, outline, bare_children, List.map_map]
  refine List.map_congr_left fun m _ => ?_
  rw [Function.comp_apply, bare_decl, bare_children, List.map_map]
  congr 3
  funext k
  exact bare_decl k

theorem at?_bare (path : List Nat) (n : Node) : n.bare.at? path = (n.at? path).map bare := by
  induction path generalizing n with
  | nil => rfl
  | cons i path ih =>
    rw [at?, at?, bare_children, List.getElem?_map]
    cases n.children[i]? with
    | none => rfl
    | some m => exact ih m

/-- The methods among nodes do not depend on where they were read. -/
theorem filterMap_bare (ns : List Node) :
    (ns.map bare).filterMap (·.decl.method?) = ns.filterMap (·.decl.method?) := by
  rw [List.filterMap_map]
  congr 1
  funext n
  rw [Function.comp_apply, bare_decl]

theorem methods_bare (n : Node) : n.bare.methods = n.methods := by
  rw [methods, methods, bare_children, filterMap_bare]

theorem classScope?_bare (root : Node) : root.bare.classScope? = root.classScope? :=
  classScope?_congr (outline_bare root)

theorem editedClass?_bare (root : Node) : root.bare.editedClass? = root.editedClass?.map bare := by
  rw [editedClass?, editedClass?, classScope?_bare, Option.map_bind]
  congr 1
  funext p
  exact at?_bare _ _

theorem declaredClasses_bare (root : Node) : root.bare.declaredClasses = root.declaredClasses :=
  declaredClasses_congr (outline_bare root)

theorem classScope?_of_bare {root' : Node} (h : root'.bare = root.bare) :
    root'.classScope? = root.classScope? := by
  rw [← classScope?_bare root', h, classScope?_bare]

theorem editedClass?_of_bare {root' : Node} (h : root'.bare = root.bare)
    (hc : root.editedClass? = some c) : ∃ c', root'.editedClass? = some c' ∧ c'.bare = c.bare := by
  have hedited := congrArg editedClass? h
  rw [editedClass?_bare, editedClass?_bare, hc] at hedited
  exact Option.map_eq_some_iff.1 hedited

theorem methods_of_bare (h : n.bare = c.bare) : n.methods = c.methods := by
  rw [← methods_bare n, h, methods_bare]

/-- Where another list of members stands, the rest of the tree is what it was. -/
theorem editedClass?_withMembers {scope : List Nat} {f : List Node → List Node}
    (h : root.classScope? = some (scope, i)) (hc : root.at? (scope ++ [i]) = some c) :
    (modifyAt (withChildren f) (scope ++ [i]) root).editedClass? = some (c.withChildren f) := by
  rw [editedClass?, classScope?_congr (outline_withMembers f h), h]
  exact at?_modifyAt hc

theorem declaredClasses_of_bare {root' : Node} {f : List Node → List Node}
    (h : root.classScope? = some (scope, i))
    (hbare : root'.bare = (modifyAt (withChildren f) (scope ++ [i]) root).bare) :
    root'.declaredClasses = root.declaredClasses := by
  rw [← declaredClasses_bare root', hbare, declaredClasses_bare]
  exact declaredClasses_congr (outline_withMembers f h)

theorem exists_methods_of_bare {root' : Node} {f : List Node → List Node}
    (h : root.classScope? = some (scope, i)) (hc : root.at? (scope ++ [i]) = some c)
    (hbare : root'.bare = (modifyAt (withChildren f) (scope ++ [i]) root).bare) :
    ∃ c', root'.editedClass? = some c' ∧
      c'.methods = (f c.children).filterMap (·.decl.method?) := by
  obtain ⟨c', hc', he⟩ := editedClass?_of_bare hbare (editedClass?_withMembers h hc)
  exact ⟨c', hc', methods_of_bare he⟩

/-! Numbers. -/

theorem getElem?_numberList (h : (numberList k ns).1[i]? = some c) :
    ∃ d j, ns[i]? = some d ∧ c = (d.number j).1 := by
  induction ns generalizing k i with
  | nil => cases h
  | cons n ns ih =>
    rw [numberList] at h
    cases i with
    | zero => exact ⟨n, k, rfl, (Option.some.inj h).symm⟩
    | succ i => exact ih h

theorem at?_number (h : (n.number k).1.at? path = some c) :
    ∃ d j, n.at? path = some d ∧ c = (d.number j).1 := by
  induction path generalizing n k with
  | nil => exact ⟨n, k, rfl, (Option.some.inj h).symm⟩
  | cons i path ih =>
    obtain ⟨m, hm, hc⟩ := Option.bind_eq_some_iff.1 h
    obtain ⟨id, origin, decl, children⟩ := n
    rw [number] at hm
    obtain ⟨d, j, hd, rfl⟩ := getElem?_numberList hm
    obtain ⟨e, l, he, rfl⟩ := ih hc
    refine ⟨e, l, ?_, rfl⟩
    rw [at?, hd]
    exact he

end Node

/-- The body of a node stands in that of any node around it. -/
theorem Placed.body_le {ts : Tokens} {root c : Node} {span body : Span} {b e j : Nat} {path : List Nat}
    {a : Anchor} (h : Placed ts root)
    (hb : root.origin = .anchored ⟨span, some body⟩) (hc : root.at? (j :: path) = some c)
    (ho : c.origin = .anchored a) (ha : a.body? = some ⟨b, e⟩) : e ≤ body.stop := by
  obtain ⟨m, hm, hcm⟩ := Option.bind_eq_some_iff.1 hc
  have hin : e ≤ a.span.stop := by
    cases h.at? hc with
    | leaf =>
      cases ho
      cases ha
    | container _ _ he =>
      cases ho
      cases ha
      exact he.stop_le
  cases h with
  | leaf => cases hm
  | container _ hs he =>
    cases hb
    have hmem := List.mem_of_getElem? hm
    obtain ⟨a', ha'⟩ := (hs.placed m hmem).anchor
    have hout := hs.bounds hmem ha'
    have hmid := (hs.placed m hmem).bounds hcm ha' ho
    exact Nat.le_trans hin (Nat.le_trans hmid.2 (Nat.le_trans hout.2 he.last_le))

namespace Tokens

variable {ts : Tokens} {root c : Node} {p : Place} {before after children : List Node} {P M : List Token}
  {b e i last stop : Nat} {scope : List Nat}

theorem children_finish (ts : Tokens) (stop : Nat) (r : Node × Nat) :
    (ts.finish stop r).1.children = r.1.children := by
  unfold finish
  split
  · rfl
  · unfold withTrailing
    dsimp only
    split <;> rfl

/-- The members of a class that was read. -/
theorem members_of_class (h : ts.Items p stop i (before ++ c :: after) last) (hp : p ≠ .members)
    (hclass : c.decl.isClass = true) (ho : c.origin.anchor?.bind Anchor.body? = some ⟨b, e⟩) :
    ts.members b e = .ok c.children := by
  obtain ⟨mid, -, hrest⟩ := h.split
  cases hrest with
  | @cons _ r _ _ hs he hafter =>
    rw [decl_finish] at hclass
    rw [body_finish] at ho
    obtain ⟨-, hdecl⟩ := classAt_of_entry hp he hclass
    obtain ⟨cs, bases, interfaces, opening, closing, inner, -, hmembers, hr⟩ :=
      classAt_of_declaration hdecl hs hclass
    rw [children_finish, hr]
    rw [hr] at ho
    cases ho
    exact hmembers

/-- The declarations of a namespace are read one after the other as well. -/
theorem items_of_scope {n : Node} {ns : List Node} (h : ts.Items .file stop i ns last) (hn : n ∈ ns)
    (hscope : n.decl.isScope = true) :
    ∃ braced first stop' last', ts.Items (.scope braced) stop' first n.children last' := by
  obtain ⟨before, after, rfl⟩ := List.append_of_mem hn
  obtain ⟨mid, -, hrest⟩ := h.split
  obtain ⟨r, hr, rfl, -⟩ := scopeAt_of_items hrest hscope
  rcases namespaceDecl_cases hr.read with
    ⟨-, -, children, hdecls, hnode⟩ | ⟨-, closing, children, last', -, hdecls, rfl⟩
  · rw [hnode]
    exact ⟨_, _, _, _, (items_of_declarations hdecls).1⟩
  · exact ⟨_, _, _, _, (items_of_declarations hdecls).1⟩

/-- The members of a class of a file. -/
theorem members_of_file (h : ts.file = .ok root) (hscope : root.classScope? = some (scope, i))
    (hc : root.at? (scope ++ [i]) = some c)
    (ho : c.origin.anchor?.bind Anchor.body? = some ⟨b, e⟩) : ts.members b e = .ok c.children := by
  obtain ⟨body, hbody, ⟨last, hitems, hhalts⟩, -⟩ := entries_of_file h
  rcases Node.classScope?_cases hscope with ⟨rfl, d, hd, hcl⟩ | ⟨k, n, d, rfl, hn, hns, hd, hcl⟩
  · obtain rfl : d = c := by
      rw [List.nil_append, Node.at?, hd] at hc
      exact Option.some.inj hc
    obtain ⟨before, after, hsplit, -⟩ := Node.split_of_getElem? hd
    rw [hsplit] at hitems
    exact members_of_class hitems (by rintro ⟨⟩) hcl ho
  · obtain rfl : d = c := by
      rw [List.singleton_append, Node.at?, hn, Option.bind_some, Node.at?, hd] at hc
      exact Option.some.inj hc
    obtain ⟨before, after, hsplit, -⟩ := Node.split_of_getElem? hd
    obtain ⟨_, _, _, _, hinner⟩ := items_of_scope hitems (List.mem_of_getElem? hn) hns
    rw [hsplit] at hinner
    exact members_of_class hinner (by rintro ⟨⟩) hcl ho

theorem bare_eta (n : Node) : n.bare = ⟨0, .synthesized, n.decl, n.children.map Node.bare⟩ := by
  cases n
  rw [Node.bare, Node.bareList_eq]

theorem bare_withMember (n : Node) (f : Node → Node) (hs : n.children = before ++ c :: after) :
    (Node.modifyAt f [before.length] n).bare =
      ⟨0, .synthesized, n.decl, before.map Node.bare ++ (f c).bare :: after.map Node.bare⟩ := by
  rw [bare_eta, Node.modifyAt, hs, Node.modify_append_cons, List.map_append, List.map_cons]
  rfl

/-- A file is read as before but for the members of one class. -/
theorem file_exchanged (h : ts.file = .ok root) (hscope : root.classScope? = some (scope, i))
    (hc : root.at? (scope ++ [i]) = some c)
    (ho : c.origin.anchor?.bind Anchor.body? = some ⟨P.length, e⟩) (hE : ts.Exchanges P M e)
    (hR : ts.Remembers P M e children) :
    ∃ root', (ts.exchange P M e).file = .ok root' ∧ root'.bare =
      (Node.modifyAt (Node.withChildren fun _ => children) (scope ++ [i]) root).bare := by
  obtain ⟨body, hbody, hentries, hroot⟩ := entries_of_file h
  have hplaced := placed_file h
  have hro : root.origin = .anchored ⟨⟨0, ts.size⟩, some body⟩ := by rw [hroot]; rfl
  have hrd : root.decl = .file := by rw [hroot]; rfl
  have he : e ≤ body.stop := by
    obtain ⟨a, ha⟩ := (hplaced.at? hc).anchor
    rw [ha] at ho
    cases scope with
    | nil => exact hplaced.body_le hro hc ha ho
    | cons j scope => exact hplaced.body_le hro hc ha ho
  rcases Node.classScope?_cases hscope with ⟨rfl, d, hd, hcl⟩ | ⟨k, n, d, rfl, hn, hns, hd, hcl⟩
  · obtain rfl : d = c := by
      rw [List.nil_append, Node.at?, hd] at hc
      exact Option.some.inj hc
    obtain ⟨before, after, hsplit, rfl⟩ := Node.split_of_getElem? hd
    rw [hsplit] at hentries
    obtain ⟨root', hroot', hbare⟩ := file_class hE hbody hR hentries hcl ho he
    refine ⟨root', hroot', hbare.trans ?_⟩
    rw [List.nil_append, bare_withMember _ _ hsplit, hrd, bare_eta (Node.withChildren _ _)]
    rfl
  · obtain rfl : d = c := by
      rw [List.singleton_append, Node.at?, hn, Option.bind_some, Node.at?, hd] at hc
      exact Option.some.inj hc
    obtain ⟨before, after, hsplit, rfl⟩ := Node.split_of_getElem? hn
    obtain ⟨before', after', hsplit', rfl⟩ := Node.split_of_getElem? hd
    rw [hsplit] at hentries
    obtain ⟨root', hroot', hbare⟩ := file_scope_class hE hbody hR hentries hns hsplit' hcl ho he
    refine ⟨root', hroot', hbare.trans ?_⟩
    have hpath : Node.modifyAt (Node.withChildren fun _ => children) ([before.length] ++ [before'.length])
        root = Node.modifyAt (Node.modifyAt (Node.withChildren fun _ => children) [before'.length])
          [before.length] root := rfl
    rw [hpath, bare_withMember _ _ hsplit, hrd, bare_withMember _ _ hsplit', bare_eta (Node.withChildren _ _)]
    rfl

theorem Items.lastStop {ns : List Node} (h : ts.Items p stop i ns last) (hsize : stop ≤ ts.size)
    (hend : ts.isPunct stop ';' = false) : Node.lastStop i ns = last := by
  rcases h.cases_last with ⟨rfl, rfl⟩ | ⟨before, mid, r, rfl, -, hs, he, rfl⟩
  · rfl
  · obtain ⟨body?, ho⟩ :=
      (stands_finish (stands_entry he (leading_le ..) hs hsize hend) hsize).origin
    rw [Node.lastStop, List.getLast?_concat, Option.bind_some, ho]
    rfl

/-- Where the comments at the end of a class end, or its last member if there are none. -/
theorem ClosesAt.lastStop {ns : List Node} {lead site : Nat} (h : ts.ClosesAt last stop lead site)
    (hns : Node.lastStop i ns = last) : Node.lastStop i (ns ++ ts.closingComments last stop) = site := by
  rw [h.nodes]
  split
  · rw [List.append_nil, hns, ← ‹lead = site›, h.empty ‹_›]
  · rw [Node.lastStop, List.getLast?_concat]
    rfl

theorem ClosesAt.methods {lead site : Nat} (h : ts.ClosesAt last stop lead site) :
    (ts.closingComments last stop).filterMap (·.decl.method?) = [] := by
  rw [h.nodes]
  split <;> rfl

end Tokens

/-- Numbering keeps what does not depend on numbers. -/
theorem Node.map_numberList {α : Type} {f : Node → α} (hf : ∀ k n, f (number k n).1 = f n) (k : Nat)
    (ns : List Node) : (numberList k ns).1.map f = ns.map f := by
  induction ns generalizing k with
  | nil => rfl
  | cons n ns ih => rw [numberList, List.map_cons, List.map_cons, hf, ih]

theorem Node.lastStop_numberList (i k : Nat) (ns : List Node) :
    lastStop i (numberList k ns).1 = lastStop i ns := by
  have hlast : ∀ ms : List Node, ms.getLast?.bind (·.origin.anchor?) =
      (ms.map Node.origin).getLast?.bind Origin.anchor? := fun ms => by
    rw [List.getLast?_map, Option.bind_map]
    rfl
  rw [lastStop, lastStop, hlast, hlast, map_numberList number_origin]

/-- The parts of parsing. -/
theorem Source.parse_eq {text : Text} {s : Source} (h : Source.parse text = .ok s) :
    ∃ root, s.tokens.file = .ok root ∧ s.tree = .ofRoot root ∧ Lexer.Reads .html s.tokens.toList text := by
  unfold Source.parse at h
  split at h
  · cases h
  rename_i tokens hl
  split at h
  · cases h
  rename_i root hf
  cases h
  exact ⟨root, hf, rfl, Lexer.reads_of_run hl⟩

theorem Source.parse_of_reads {text : Text} {ts : Tokens} {root : Node}
    (h : Lexer.Reads .html ts.toList text) (hf : ts.file = .ok root) :
    Source.parse text = .ok ⟨ts, .ofRoot root⟩ := by
  have hlex : lex text = .ok ts.toList := h.run .start
  rw [Source.parse, hlex]
  dsimp only
  rw [hf]

/-- The methods that are read behind the members of a class. -/
theorem Tokens.methods_nodes {style : Style} {level : Nat} (rs : List (Rendering style level)) :
    (rs.map Rendering.node).filterMap (·.decl.method?) =
      (rs.map (·.decl)).map (·.placed style level) := by
  rw [List.map_map, List.filterMap_map, ← List.filterMap_eq_map]
  rfl

/-! The edited text. -/

/-- Between the braces of the class being edited there is no close tag. -/
def Source.Unbroken (s : Source) : Prop :=
  ∀ c ∈ s.tree.root.editedClass?, ∀ body ∈ c.origin.anchor?.bind Anchor.body?,
    ∀ k < body.stop, body.start ≤ k → s.tokens.kind? k ≠ some .closeTag

instance (s : Source) : Decidable s.Unbroken :=
  inferInstanceAs (Decidable (∀ c ∈ s.tree.root.editedClass?,
    ∀ body ∈ c.origin.anchor?.bind Anchor.body?,
      ∀ k < body.stop, body.start ≤ k → s.tokens.kind? k ≠ some .closeTag))

namespace Source

open Tokens Lexer

variable {s : Source} {text : Text} {scope : List Nat} {i : Nat} {style : Style} {site : Site}

theorem isSpace_siteTail (hrest : ∀ c ∈ s.tokens.between site.last site.closing, isSpace c = true)
    (hi : ∀ c ∈ style.indent, isIndent c = true) : ∀ c ∈ s.siteTail style site, isSpace c = true := by
  unfold siteTail
  dsimp only
  split
  · exact hrest
  · intro c hc
    rcases List.mem_append.1 hc with hc | hc
    · exact Rendering.isSpace_gap hi 1 c (by simpa [Style.newlines, Text.times] using hc)
    · exact hrest c ((Text.isInfix_trim _).subset hc)

/-- The class being edited, taken apart. -/
structure Taken (s : Source) (site : Site) (root c : Node) (front behind : List Token) (B : ClassBody)
    (ms : List Node) : Prop where
  tokens : s.tokens = around front behind B.tokens
  file : s.tokens.file = .ok root
  tree : s.tree = .ofRoot root
  body : c.origin.anchor?.bind Anchor.body? =
    some ⟨front.length + 1, front.length + 1 + B.tokens.length⟩
  holds : B.Holds front behind ms
  methods : c.methods = ms.filterMap (·.decl.method?)
  upTo : s.tokens.between 0 site.last =
    Token.spell front ++ '\x7b' :: Token.spell (B.members ++ (B.gap ++ B.comments))
  rest : ∀ c ∈ s.tokens.between site.last site.closing, isSpace c = true
  onward : s.tokens.between site.closing s.tokens.size = Token.spell (brace :: behind)

/-- The members of the class being edited, read from index `b` on, and the comments behind them. -/
structure Sited (s : Source) (site : Site) (root c : Node) (b lead last : Nat) (ms : List Node) :
    Prop where
  file : s.tokens.file = .ok root
  tree : s.tree = .ofRoot root
  edited : ∃ n ∈ s.tree.root.editedClass?, n.origin = c.origin
  body : c.origin.anchor?.bind Anchor.body? = some ⟨b, site.closing⟩
  pos : 0 < b
  opening : s.tokens.isPunct (b - 1) '\x7b' = true
  closing : s.tokens.isPunct site.closing '\x7d' = true
  le : b ≤ site.closing
  le_size : site.closing ≤ s.tokens.size
  items : s.tokens.Items .members site.closing b ms last
  plain : s.tokens.Plain last site.closing
  last_le : last ≤ site.closing
  closes : s.tokens.ClosesAt last site.closing lead site.last
  children : c.children = ms ++ s.tokens.closingComments last site.closing

theorem exists_sited (hparse : Source.parse text = .ok s)
    (hscope : s.tree.root.classScope? = some (scope, i)) (hsite : s.site? = some site) :
    ∃ root c b lead last ms, s.Sited site root c b lead last ms ∧ root.at? (scope ++ [i]) = some c := by
  obtain ⟨root, hfile, htree, hreads⟩ := Source.parse_eq hparse
  have hf := Source.faithful_of_parse hparse
  obtain ⟨c, span, body, last, hc, hcl, ho, hs, he, hsite'⟩ := Source.site?_eq hf hscope
  obtain rfl := Option.some.inj (hsite.symm.trans hsite')
  obtain ⟨hstart, hopen, -, hclose⟩ := he.braces (Container.ofDecl_of_isClass hcl)
  have hedited : s.tree.root.editedClass? = some c := by
    rw [Node.editedClass?, hscope]
    exact hc
  have hroot : s.tree.root = (root.number 0).1 := by rw [htree]; rfl
  have hscope' : root.classScope? = some (scope, i) := by
    rw [← hscope, hroot, Node.classScope?_of_bare (Node.bare_number 0 root)]
  rw [hroot] at hc
  obtain ⟨d, j, hd, rfl⟩ := Node.at?_number hc
  rw [number_origin] at ho
  have hbody : d.origin.anchor?.bind Anchor.body? = some ⟨body.start, body.stop⟩ := by
    rw [ho]
    rfl
  have hmembers := members_of_file hfile hscope' hd hbody
  obtain ⟨ms, last₀, hchildren, hitems, hhalts⟩ := items_of_members hmembers
  have hsize : body.stop ≤ s.tokens.size := Nat.le_trans he.stop_le he.le_size
  have hbe : body.start ≤ body.stop := Nat.le_trans hs.le he.last_le
  have hend : s.tokens.isPunct body.stop ';' = false := not_isPunct_of_ne hclose (by decide)
  have hlast₀ := hitems.le_stop hbe hsize hend
  have hplain := plain_of_halts hhalts (by rintro ⟨⟩)
  obtain ⟨lead, site, hcloses⟩ := exists_closesAt hlast₀ hsize
  obtain rfl : last = site := by
    have hnumber : (d.number j).1.children = (Node.numberList j d.children).1 := by
      cases d
      rw [Node.number]
    rw [hs.last_eq, hnumber, Node.lastStop_numberList, hchildren]
    exact hcloses.lastStop (hitems.lastStop hsize hend)
  exact ⟨root, d, body.start, lead, last₀, ms, ⟨hfile, htree, ⟨_, hedited, number_origin j d⟩, hbody,
    by omega, hopen, hclose, hbe, hsize, hitems, hplain, hlast₀, hcloses, hchildren⟩, hd⟩

theorem exists_taken (hparse : Source.parse text = .ok s)
    (hscope : s.tree.root.classScope? = some (scope, i)) (hsite : s.site? = some site)
    (hwhole : s.Unbroken) : ∃ root c front behind B ms, s.Taken site root c front behind B ms ∧
      root.at? (scope ++ [i]) = some c := by
  obtain ⟨-, -, -, hreads⟩ := Source.parse_eq hparse
  obtain ⟨root, c, b, lead, last, ms, h, hc⟩ := exists_sited hparse hscope hsite
  have hwhole' : ∀ k, b ≤ k → k < site.closing → s.tokens.kind? k ≠ some .closeTag := by
    obtain ⟨n, hn, ho⟩ := h.edited
    exact fun k hk hks => hwhole n hn ⟨b, site.closing⟩ (by rw [ho]; exact h.body) k hks hk
  have hholds := holds_classBody h.pos h.le h.opening h.closing hreads hwhole' h.items h.plain h.last_le
    h.closes
  have htokens := tokens_classBody h.items.le h.closes
  refine ⟨root, c, _, _, _, ms, ⟨?_, h.file, h.tree, ?_, hholds, ?_,
    between_opening h.pos h.opening h.items.le h.closes, fun c hc => ?_, between_closing h.closing⟩, hc⟩
  · rw [htokens, around_extract h.pos h.le h.opening h.closing]
  · rw [h.body, htokens, length_extract_front h.pos (Nat.le_trans h.le h.le_size), length_extract h.le_size,
      Nat.add_sub_cancel' h.le]
  · rw [Node.methods, h.children, List.filterMap_append, h.closes.methods, List.append_nil]
  · obtain ⟨t, ht, hct⟩ := List.mem_flatMap.1 hc
    have hmem : t ∈ (classBody s.tokens b last lead site.last site.closing).tokens := by
      simp only [ClassBody.tokens, List.mem_append]
      exact .inr (.inr (.inr ht))
    rw [htokens] at hmem
    exact (kinds_extract h.pos h.le h.opening h.closing hreads hwhole' t hmem).2
      (hholds.white t (List.mem_append_right _ ht)) c hct

variable {root c : Node} {front behind : List Token} {B : ClassBody} {ms : List Node}

theorem Taken.bare_root (h : s.Taken site root c front behind B ms) : s.tree.root.bare = root.bare := by
  rw [h.tree]
  exact Node.bare_number 0 root

theorem Taken.methods_edited (h : s.Taken site root c front behind B ms)
    (hscope : root.classScope? = some (scope, i)) (hc : root.at? (scope ++ [i]) = some c) {d : Node}
    (hd : s.tree.root.editedClass? = some d) : d.methods = ms.filterMap (·.decl.method?) := by
  have hedited : root.editedClass? = some c := by
    rw [Node.editedClass?, hscope]
    exact hc
  obtain ⟨d', hd', he⟩ := Node.editedClass?_of_bare h.bare_root hedited
  obtain rfl := Option.some.inj (hd.symm.trans hd')
  rw [Node.methods_of_bare he, h.methods]

/-- The class with printed methods behind its members is read again. -/
theorem Taken.exists_reread (h : s.Taken site root c front behind B ms)
    (hreads : Reads .html s.tokens.toList text) (hscope : root.classScope? = some (scope, i))
    (hc : root.at? (scope ++ [i]) = some c) (hi : ∀ c ∈ style.indent, isIndent c = true)
    (r : Rendering style (site.level + 1)) (rs : List (Rendering style (site.level + 1))) {t : Text}
    (ht : t = s.tokens.between 0 site.last ++
      Method.appendix style (site.level + 1) site.isEmpty ((r :: rs).map (·.decl)) ++
        s.siteTail style site ++ s.tokens.between site.closing s.tokens.size) :
    ∃ s' children, Source.parse t = .ok s' ∧
      children.map Node.bare = ms.map Node.bare ++ (r :: rs).map Rendering.node ∧
      s'.tree.root.bare =
        (Node.modifyAt (Node.withChildren fun _ => children) (scope ++ [i]) root).bare := by
  rw [h.tokens] at hreads
  obtain ⟨G, T, hG, hread⟩ := h.holds.exists_grown hreads hi r rs site.isEmpty (isSpace_siteTail h.rest hi)
  obtain ⟨children, hR, hchildren⟩ := hG.exists_remembers h.holds
  have hE := hG.exchanges h.holds
  rw [← h.tokens] at hR hE
  obtain ⟨root', hroot', hbare⟩ := file_exchanged h.file hscope hc
    (by rw [h.body, length_front]) hE hR
  have htext : t = Token.spell front ++ '\x7b' :: (Token.spell (B.members ++ (B.gap ++ B.comments)) ++
      (Method.appendix style (site.level + 1) site.isEmpty ((r :: rs).map (·.decl)) ++
        (s.siteTail style site ++ Token.spell (brace :: behind)))) := by
    rw [ht, h.upTo, h.onward]
    simp only [List.append_assoc, List.cons_append]
  rw [← htext] at hread
  have haround : s.tokens.exchange (front ++ [⟨.punct, ['\x7b']⟩]) G.tokens
      (front.length + 1 + B.tokens.length) = around front behind G.tokens := by
    rw [h.tokens, exchange_around]
  rw [haround] at hroot'
  refine ⟨_, children, Source.parse_of_reads hread hroot', hchildren, ?_⟩
  rw [← hbare]
  exact Node.bare_number 0 root'

end Source

namespace Editor

open Tokens

/-- What is read from the text that methods were added to: the class being edited has them behind the
methods it had, each with its documentation and its statements moved to their place. -/
structure Reread (e : Editor) (ms : List NewMethod) (s : Source) : Prop where
  classes : s.tree.root.declaredClasses = e.source.tree.root.declaredClasses
  edited : ms ≠ [] → ∃ c, e.source.tree.root.editedClass? = some c
  methods : ∀ c, e.source.tree.root.editedClass? = some c → ∃ site c' added,
    e.source.site? = some site ∧ s.tree.root.editedClass? = some c' ∧
    c'.methods = c.methods ++ added ∧
    List.Forall₂ (fun m d => ∃ body, parseFragment m.body = .ok body ∧
      d = readMethod e.style (site.level + 1) m
        (body.map (reindent · (e.style.indentation (site.level + 2)) e.style.newline))) ms added

variable {e e' : Editor} {ms : List NewMethod} {text : Text} {style : Style}

theorem names_addMethods (h : e.addMethods ms = .ok e') : ∀ m ∈ ms, Name.isIdentifier m.name = true := by
  induction ms generalizing e with
  | nil => exact fun _ hm => absurd hm List.not_mem_nil
  | cons m ms ih =>
    rw [addMethods] at h
    split at h
    · cases h
    obtain ⟨-, -, -, -, -, hname, -⟩ := addMethod_eq ‹_›
    exact List.forall_mem_cons.2 ⟨hname, ih h⟩

theorem reread_nil {s : Source} (hparse : Source.parse text = .ok s) :
    Reread ⟨s, s.tree, style⟩ [] s where
  classes := rfl
  edited := fun hne => absurd rfl hne
  methods := fun c hc => by
    obtain ⟨⟨scope, i⟩, hscope, -⟩ := Option.bind_eq_some_iff.1 hc
    obtain ⟨_, _, _, _, -, -, -, -, -, hsite⟩ :=
      Source.site?_eq (Source.faithful_of_parse hparse) hscope
    exact ⟨_, c, [], hsite, hc, (List.append_nil _).symm, .nil⟩

theorem placed_of_method? {m : NewMethod} {d : Method} {level : Nat} (h : m.method? = .ok d) :
    ∃ body, parseFragment m.body = .ok body ∧ d.placed style level =
      readMethod style level m
        (body.map (reindent · (style.indentation (level + 1)) style.newline)) := by
  obtain ⟨body, hbody, rfl⟩ := NewMethod.method?_eq h
  exact ⟨body, hbody, rfl⟩

/-- Methods that can be moved are printed in the class. -/
theorem exists_appended {s : Source} (hparse : Source.parse text = .ok s)
    (hi : ∀ c ∈ style.indent, Lexer.isIndent c = true) (hms : ∀ m ∈ ms, m.Movable) (hne : ms ≠ [])
    (ha : addMethods ⟨s, s.tree, style⟩ ms = .ok e') :
    ∃ scope i site, s.tree.root.classScope? = some (scope, i) ∧ s.site? = some site ∧
      ∃ rs : List (Rendering style (site.level + 1)),
        List.Forall₂ (fun m d => m.method? = .ok d) ms (rs.map (·.decl)) ∧
        e'.render = s.tokens.between 0 site.last ++
          Method.appendix style (site.level + 1) site.isEmpty (rs.map (·.decl)) ++
            s.siteTail style site ++ s.tokens.between site.closing s.tokens.size := by
  obtain ⟨scope, i, hscope⟩ := exists_classScope? hne ha
  obtain ⟨ds, hds, hsource, hstyle, hworking⟩ := addMethods_eq ha hscope
  have hds' : ds ≠ [] := by
    rintro rfl
    cases hds
    exact hne rfl
  obtain ⟨site, hspliced⟩ := exists_spliced hparse hscope hds' hsource hstyle hworking
  obtain ⟨rs, rfl⟩ := exists_renderings hds (fun m hm => ⟨hms m hm, names_addMethods ha m hm⟩) hi
    (site.level + 1)
  exact ⟨scope, i, site, hscope, hspliced.place, rs, hds, hspliced.render⟩

end Editor

open Editor Tokens in
/-- Where methods are added to a class without close tags, the text is read again, and the class has the
added methods behind those of the source, in the order of the calls. -/
theorem reread_addMethods {text : Text} {style : Style} {e e' : Editor} {ms : List NewMethod}
    (h : Editor.parse text style = .ok e) (hi : ∀ c ∈ style.indent, Lexer.isIndent c = true)
    (hwhole : e.source.Unbroken) (hms : ∀ m ∈ ms, m.Movable) (ha : e.addMethods ms = .ok e') :
    ∃ s, Source.parse e'.render = .ok s ∧ e.Reread ms s := by
  obtain ⟨s, hparse, rfl⟩ := Editor.parse_eq h
  by_cases hne : ms = []
  · subst hne
    cases ha
    refine ⟨s, ?_, Editor.reread_nil hparse⟩
    rw [Editor.render, Source.print_of_parse hparse, hparse]
  have hi' : ∀ c ∈ (style.matching text).indent, Lexer.isIndent c = true := hi
  obtain ⟨scope, i, site, hscope, hsite, rs, hds, hrender⟩ := Editor.exists_appended hparse hi' hms hne ha
  obtain ⟨root, c, front, behind, B, ns, htaken, hc⟩ := Source.exists_taken hparse hscope hsite hwhole
  obtain ⟨r, rs, rfl⟩ : ∃ r rs', rs = r :: rs' := by
    refine List.exists_cons_of_ne_nil fun he => hne ?_
    subst he
    cases hds
    rfl
  have hscope' : root.classScope? = some (scope, i) := by
    rw [← hscope, Node.classScope?_of_bare htaken.bare_root]
  obtain ⟨-, -, -, hreads⟩ := Source.parse_eq hparse
  obtain ⟨s', children, hs', hchildren, hbare⟩ :=
    htaken.exists_reread hreads hscope' hc hi' r rs hrender
  refine ⟨s', hs', ?_, fun _ => ?_, fun d hd => ?_⟩
  · rw [Node.declaredClasses_of_bare hscope' hbare, ← Node.declaredClasses_bare root,
      ← htaken.bare_root, Node.declaredClasses_bare]
  · rw [Node.editedClass?, hscope]
    obtain ⟨d, hd, -⟩ := Node.at?_classScope? hscope
    exact ⟨d, hd⟩
  · obtain ⟨c', hc', hmethods⟩ := Node.exists_methods_of_bare hscope' hc hbare
    refine ⟨site, c', ((r :: rs).map (·.decl)).map (·.placed (style.matching text) (site.level + 1)),
      hsite, hc', ?_, List.forall₂_map_right_iff.2 (hds.imp fun _ _ => placed_of_method?)⟩
    rw [hmethods, htaken.methods_edited hscope' hc hd, ← Node.filterMap_bare, hchildren,
      List.filterMap_append, Node.filterMap_bare, methods_nodes]

/-- Two methods for a class that ends with a comment. The statement of one has lines of its own. -/
theorem reread_addMethods_comment :
    ∃ text ms e e' s, text = ("<?php\nclass A \x7b\n  const B = 1; // b\n  /* c */\n\x7d\n" : Text) ∧
      ms = [{ name := "f", body := "return [1, 2];" },
        { name := "g", body := "if ($a) \x7b\n\treturn <<<X\n\t b\n\t X;\n\x7d else g();" }] ∧
      Editor.parse text = .ok e ∧ e.source.Unbroken ∧ (∀ m ∈ ms, m.Movable) ∧
      e.addMethods ms = .ok e' ∧ Source.parse e'.render = .ok s ∧ e.Reread ms s := by
  let text : Text := "<?php\nclass A \x7b\n  const B = 1; // b\n  /* c */\n\x7d\n"
  let ms : List NewMethod := [{ name := "f", body := "return [1, 2];" },
    { name := "g", body := "if ($a) \x7b\n\treturn <<<X\n\t b\n\t X;\n\x7d else g();" }]
  have hrun : (Editor.parse text).toOption.any
      (fun e => decide e.source.Unbroken && (e.addMethods ms).isOk) = true := by
    decide +kernel
  have hms : ms.all (fun m => decide m.Movable) = true := by decide +kernel
  have hmovable : ∀ m ∈ ms, m.Movable := fun m hm => of_decide_eq_true (List.all_eq_true.1 hms m hm)
  obtain ⟨e, h, hrun⟩ := Steps.exists_of_any hrun
  obtain ⟨hunbroken, hok⟩ := Bool.and_eq_true_iff.1 hrun
  have hwhole : e.source.Unbroken := of_decide_eq_true hunbroken
  obtain ⟨e', ha⟩ := Steps.exists_of_isOk hok
  obtain ⟨s, hs, hreread⟩ := reread_addMethods h (List.all_eq_true.1 rfl) hwhole hmovable ha
  exact ⟨text, ms, e, e', s, rfl, rfl, h, hwhole, hmovable, ha, hs, hreread⟩

end PhpGraft
