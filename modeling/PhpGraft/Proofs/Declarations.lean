import PhpGraft.Proofs.Operations

/-!
The classes that a file declares, under their qualified names and with their members: which of them is
edited, and what becomes of the list of them where the class is edited or imports gather around it.
-/
namespace PhpGraft

/-- A declared class. -/
structure Declared where
  name : Text
  members : List Node
  deriving DecidableEq, Repr

namespace Declared

/-- The class with some members behind those that it has. -/
def grow (new : List Node) (c : Declared) : Declared := { c with members := c.members ++ new }

theorem grow_nil : grow [] = id := by
  funext c
  exact congrArg (Declared.mk c.name) (List.append_nil _)

theorem grow_comp (new more : List Node) : grow more ∘ grow new = grow (new ++ more) := by
  funext c
  exact congrArg (Declared.mk c.name) (List.append_assoc ..)

end Declared

namespace Node

variable {root n c : Node} {scope : List Nat} {is before behind : List Node} {i k : Nat}

/-- What a child of a namespace, or of the file itself, declares. -/
def declaredIn? (name? : Option Text) (n : Node) : Option Declared :=
  match n.decl with
  | .classLike head => some ⟨Name.qualify name? head.name, n.children⟩
  | _ => none

/-- What a child of the file declares. -/
def declared (n : Node) : List Declared :=
  match n.decl with
  | .scope name? _ => n.children.filterMap (declaredIn? name?)
  | _ => (declaredIn? none n).toList

def declarations (root : Node) : List Declared := root.children.flatMap declared

/-- The classes that a child of the file declares, with whether it is a namespace; nothing if it
declares none. -/
def group (n : Node) : List (Bool × List Declared) :=
  if n.declared.isEmpty then [] else [(n.decl.isScope, n.declared)]

/-- The groups up to the first namespace, or all of them. -/
def reached (gs : List (Bool × List Declared)) : List (Bool × List Declared) :=
  match gs.findIdx? Prod.fst with
  | some k => gs.take (k + 1)
  | none => gs

/-- Which of the declared classes is edited: the last one of the first namespace that declares one, or
else the last one of the file. -/
def target? (root : Node) : Option Nat :=
  if root.children.flatMap group = [] then none
  else some (((reached (root.children.flatMap group)).flatMap Prod.snd).length - 1)

theorem map_name_declarations (root : Node) :
    root.declarations.map Declared.name = root.declaredClasses := by
  rw [declarations, declaredClasses, List.map_flatMap]
  congr 1
  funext n
  unfold declared
  cases hd : n.decl with
  | scope name? braced =>
    dsimp only
    rw [List.map_filterMap]
    congr 1
    funext m
    unfold declaredIn?
    cases m.decl <;> rfl
  | classLike head =>
    unfold declaredIn?
    rw [hd]
    rfl
  | file | imports | method | verbatim =>
    unfold declaredIn?
    rw [hd]
    rfl

theorem flatMap_group (ns : List Node) : (ns.flatMap group).flatMap Prod.snd = ns.flatMap declared := by
  rw [List.flatMap_assoc]
  congr 1
  funext n
  unfold group
  split
  · exact (List.isEmpty_iff.1 ‹_›).symm
  · rw [List.flatMap_singleton]

theorem at?_append (path path' : List Nat) (n : Node) :
    n.at? (path ++ path') = (n.at? path).bind (at? path') := by
  induction path generalizing n with
  | nil => rfl
  | cons i path ih =>
    rw [List.cons_append, at?, at?]
    cases n.children[i]? with
    | none => rfl
    | some m => exact ih m

/-! What single nodes declare. -/

theorem declaredIn?_of_isClass (h : c.isClass = true) (name? : Option Text) : ∃ name, ∀ children,
    declaredIn? name? { c with children := children } = some ⟨name, children⟩ := by
  obtain ⟨id, origin, decl, children⟩ := c
  cases decl with
  | classLike head => exact ⟨_, fun _ => rfl⟩
  | _ => cases h

theorem declaredIn?_of_not (h : n.isClass = false) (name? : Option Text) : declaredIn? name? n = none := by
  unfold isClass at h
  unfold declaredIn?
  cases hd : n.decl with
  | classLike head =>
    rw [hd] at h
    cases h
  | _ => rfl

theorem declared_of_isScope (h : n.decl.isScope = true) : ∃ name?, ∀ children,
    declared { n with children := children } = children.filterMap (declaredIn? name?) := by
  obtain ⟨id, origin, decl, children⟩ := n
  cases decl with
  | scope name? braced => exact ⟨name?, fun _ => rfl⟩
  | _ => cases h

theorem declared_of_not_isScope (h : n.decl.isScope = false) : n.declared = (declaredIn? none n).toList := by
  unfold declared
  cases hd : n.decl with
  | scope name? braced =>
    rw [hd] at h
    cases h
  | _ => rfl

theorem lastClass?_eq_none {ns : List Node} (h : lastClass? ns = none) :
    ∀ n ∈ ns, n.isClass = false := by
  intro n hn
  have hnone := List.findIdx?_eq_none_iff.1 (Option.map_eq_none_iff.1 h)
  exact hnone n (List.mem_reverse.2 hn)

theorem declared_eq_nil (hscope : n.scopeClass? = none) (hclass : n.isClass = false) : n.declared = [] := by
  unfold scopeClass? at hscope
  split at hscope
  · obtain ⟨name?, hdeclared⟩ := declared_of_isScope ‹_›
    refine (hdeclared n.children).trans (List.filterMap_eq_nil_iff.2 fun m hm => ?_)
    exact declaredIn?_of_not (lastClass?_eq_none hscope m hm) name?
  · rw [declared_of_not_isScope (Bool.eq_false_iff.2 ‹_›), declaredIn?_of_not hclass]
    rfl

theorem group_eq_nil (hscope : n.scopeClass? = none) (hclass : n.isClass = false) : n.group = [] := by
  rw [group, declared_eq_nil hscope hclass]
  rfl

theorem group_of_ne_nil (h : n.declared ≠ []) : n.group = [(n.decl.isScope, n.declared)] :=
  if_neg fun he => h (List.isEmpty_iff.1 he)

/-- A namespace that declares a class holds one to edit. -/
theorem isScope_of_mem_group (hscope : n.scopeClass? = none) : ∀ g ∈ n.group, g.1 = false := by
  intro g hg
  unfold group at hg
  split at hg
  · cases hg
  rename_i hne
  obtain rfl := List.mem_singleton.1 hg
  refine Bool.eq_false_iff.2 fun hs => hne ?_
  have hclass : n.isClass = false := by
    unfold isClass
    change n.decl.isScope = true at hs
    cases hd : n.decl with
    | classLike head =>
      rw [hd] at hs
      cases hs
    | _ => rfl
  rw [declared_eq_nil hscope hclass]
  rfl

/-! Imports declare nothing. -/

theorem flatMap_others {α : Type} {g : Node → List α} (hg : ∀ n : Node, n.isImport = true → g n = [])
    (ns : List Node) : (others ns).flatMap g = ns.flatMap g := by
  induction ns with
  | nil => rfl
  | cons n ns ih =>
    rw [others, List.filter_cons]
    cases hn : n.isImport with
    | true =>
      rw [List.flatMap_cons, hg n hn]
      exact ih
    | false => exact congrArg (g n ++ ·) ih

/-- Gathering imports keeps all else that the children say, in order. -/
theorem flatMap_withImports {α : Type} {g : Node → List α}
    (hg : ∀ n : Node, n.isImport = true → g n = []) (hd : ∀ n : Node, g n.detach = g n) {is : List Node}
    (his : ∀ n ∈ is, n.isImport = true) (before behind : List Node) (c : Node) :
    (withImports is before.length (before ++ c :: behind)).flatMap g =
      (before ++ c :: behind).flatMap g := by
  have hnone : is.flatMap g = [] := List.flatMap_eq_nil_iff.2 fun n hn => hg n (his n hn)
  rw [withImports_split, List.flatMap_append, List.flatMap_append, List.flatMap_append,
    List.flatMap_cons, List.flatMap_cons, hnone, hd, flatMap_others hg, flatMap_others hg,
    List.nil_append]

theorem flatMap_modify {α : Type} {g : Node → List α} {f : Node → Node} {ns : List Node} {k : Nat}
    {m : Node} (hm : ns[k]? = some m) (hg : g (f m) = g m) :
    (ns.modify k f).flatMap g = ns.flatMap g := by
  have hmap : (ns.modify k f).map g = ns.map g := by
    refine List.ext_getElem? fun j => ?_
    rw [List.getElem?_map, List.getElem?_map]
    by_cases hj : k = j
    · subst hj
      rw [List.getElem?_modify_eq, hm]
      exact congrArg some hg
    · rw [List.getElem?_modify_ne _ _ hj]
  rw [List.flatMap_def, List.flatMap_def, hmap]

theorem group_detach (n : Node) : n.detach.group = n.group := rfl

/-- Gathering imports in the scope of the class declares nothing and takes no declaration away. -/
theorem groups_withImports (h : root.classScope? = some (scope, before.length))
    (hn : root.at? scope = some n) (hs : n.children = before ++ c :: behind)
    (his : ∀ m ∈ is, m.isImport = true) :
    (root.modifyAt (.withChildren (withImports is before.length)) scope).children.flatMap group =
      root.children.flatMap group := by
  rcases classScope?_cases h with ⟨rfl, -⟩ | ⟨k, m, -, rfl, hm, hscope, -, -⟩
  · cases hn
    rw [modifyAt, withChildren, hs]
    exact flatMap_withImports (fun _ hi => group_eq_nil (scopeClass?_of_isImport hi)
      (isClass_of_isImport hi)) group_detach his _ _ _
  · obtain rfl : m = n := by
      rw [at?, hm] at hn
      exact Option.some.inj hn
    refine flatMap_modify hm ?_
    obtain ⟨name?, hdeclared⟩ := declared_of_isScope hscope
    have hsame : declared (m.withChildren (withImports is before.length)) = m.declared := by
      refine (hdeclared _).trans (Eq.trans ?_ (hdeclared m.children).symm)
      rw [hs, List.filterMap_eq_flatMap_toList, List.filterMap_eq_flatMap_toList]
      refine flatMap_withImports (fun x hx => ?_) (fun _ => rfl) his _ _ _
      rw [declaredIn?_of_not (isClass_of_isImport hx)]
      rfl
    change group (m.withChildren (withImports is before.length)) = m.group
    rw [group, hsame]
    rfl

theorem target?_congr {root root' : Node}
    (h : root'.children.flatMap group = root.children.flatMap group) : root'.target? = root.target? := by
  rw [target?, h, target?]

theorem declarations_congr {root root' : Node}
    (h : root'.children.flatMap group = root.children.flatMap group) :
    root'.declarations = root.declarations := by
  rw [declarations, declarations, ← flatMap_group, h, flatMap_group]

theorem declaredClasses_withImports (h : root.classScope? = some (scope, before.length))
    (hn : root.at? scope = some n) (hs : n.children = before ++ c :: behind)
    (his : ∀ m ∈ is, m.isImport = true) :
    (root.modifyAt (.withChildren (withImports is before.length)) scope).declaredClasses =
      root.declaredClasses := by
  rw [← map_name_declarations, ← map_name_declarations,
    declarations_congr (groups_withImports h hn hs his)]

/-! The class being edited. -/

/-- Where the class being edited stands in the groups of declared classes. -/
theorem target?_eq {gs gs' : List (Bool × List Declared)} {b : Bool} {ds : List Declared} {d : Declared}
    (h : root.children.flatMap group = gs ++ (b, ds ++ [d]) :: gs') (hgs : ∀ g ∈ gs, g.1 = false)
    (hb : b = true ∨ b = false ∧ gs' = []) :
    root.target? = some (gs.flatMap Prod.snd ++ ds).length ∧
      root.declarations = (gs.flatMap Prod.snd ++ ds) ++ d :: gs'.flatMap Prod.snd := by
  have hnone : gs.findIdx? Prod.fst = none := List.findIdx?_eq_none_iff.2 hgs
  constructor
  · have hreached : reached (gs ++ (b, ds ++ [d]) :: gs') = gs ++ [(b, ds ++ [d])] := by
      unfold reached
      rw [List.findIdx?_append, hnone, List.findIdx?_cons]
      rcases hb with rfl | ⟨rfl, rfl⟩
      · simp only [if_true, Option.map_some, Option.none_or, Nat.zero_add]
        rw [List.take_length_add_append]
        rfl
      · rfl
    have hpos : ((gs ++ [(b, ds ++ [d])]).flatMap Prod.snd).length =
        (gs.flatMap Prod.snd ++ ds).length + 1 := by
      rw [List.flatMap_append, List.flatMap_singleton, ← List.append_assoc, List.length_append]
      rfl
    rw [target?, h, if_neg (by simp), hreached, hpos]
    rfl
  · rw [declarations, ← flatMap_group, h, List.flatMap_append, List.flatMap_cons]
    simp only [List.append_assoc, List.cons_append, List.nil_append]

/-- What a namespace declares whose last class is `c`. -/
theorem declared_split (hscope : n.decl.isScope = true) (hc : c.isClass = true)
    (hb : ∀ m ∈ behind, m.isClass = false) (before : List Node) : ∃ ds name, ∀ children,
      declared { n with children := before ++ { c with children := children } :: behind } =
        ds ++ [⟨name, children⟩] := by
  obtain ⟨name?, hdeclared⟩ := declared_of_isScope hscope
  obtain ⟨name, hname⟩ := declaredIn?_of_isClass hc name?
  have hnone : behind.filterMap (declaredIn? name?) = [] :=
    List.filterMap_eq_nil_iff.2 fun m hm => declaredIn?_of_not (hb m hm) name?
  refine ⟨before.filterMap (declaredIn? name?), name, fun children => (hdeclared _).trans ?_⟩
  rw [List.filterMap_append, List.filterMap_cons_some (hname children), hnone]

/-- What a class of the file declares. -/
theorem group_of_isClass (hc : c.isClass = true) : ∃ name, ∀ children,
    group { c with children := children } = [(false, [⟨name, children⟩])] := by
  obtain ⟨id, origin, decl, children⟩ := c
  cases decl with
  | classLike head => exact ⟨head.name, fun _ => rfl⟩
  | _ => cases hc

/-- The class being edited is the last of its group, and gets new members there. -/
theorem groups_appendAt (h : root.classScope? = some (scope, i)) :
    ∃ gs b ds d gs', root.children.flatMap group = gs ++ (b, ds ++ [d]) :: gs' ∧
      (∀ g ∈ gs, g.1 = false) ∧ (b = true ∨ b = false ∧ gs' = []) ∧
      ∀ new, (appendAt (scope ++ [i]) new root).children.flatMap group =
        gs ++ (b, ds ++ [d.grow new]) :: gs' := by
  rcases classScope?_cases h with ⟨rfl, -⟩ | ⟨k, n, -, rfl, hn, hscope, -, -⟩
  · obtain ⟨hnone, hlast⟩ := classScope?_file_iff.1 h
    obtain ⟨before, c, behind, hsplit, rfl, hc, hb⟩ := split_of_lastClass? hlast
    rw [hsplit] at hnone
    obtain ⟨name, hgroup⟩ := group_of_isClass hc
    have hbehind : behind.flatMap group = [] := List.flatMap_eq_nil_iff.2 fun m hm =>
      group_eq_nil (hnone m (List.mem_append_right _ (.tail _ hm))) (hb m hm)
    have hgroups : ∀ children, (before ++ { c with children := children } :: behind).flatMap group =
        before.flatMap group ++ (false, [] ++ [⟨name, children⟩]) :: [] := fun children => by
      rw [List.flatMap_append, List.flatMap_cons, hgroup, hbehind]
      rfl
    refine ⟨before.flatMap group, false, [], ⟨name, c.children⟩, [], ?_, fun g hg => ?_, .inr ⟨rfl, rfl⟩,
      fun new => ?_⟩
    · have hself : before ++ c :: behind = before ++ c.withChildren (fun _ => c.children) :: behind := by
        rw [withChildren_self]
      rw [hsplit, hself]
      exact hgroups c.children
    · obtain ⟨m, hm, hg⟩ := List.mem_flatMap.1 hg
      exact isScope_of_mem_group (hnone m (List.mem_append_left _ hm)) g hg
    · change (root.children.modify before.length _).flatMap group = _
      rw [hsplit, modify_append_cons]
      exact hgroups (c.children ++ new)
  · obtain ⟨hk, hnone⟩ := classScope?_scope_iff.1 h
    rw [hn, Option.bind_some, scopeClass?, if_pos hscope] at hk
    obtain ⟨before, c, behind, hsplit, rfl, hc, hb⟩ := split_of_lastClass? hk
    obtain ⟨hlt, rfl⟩ := List.getElem?_eq_some_iff.1 hn
    obtain ⟨ds, name, hdeclared⟩ := declared_split hscope hc hb before
    have hgroups : ∀ children, (root.children.take k ++ { root.children[k] with
        children := before ++ { c with children := children } :: behind } ::
          root.children.drop (k + 1)).flatMap group = (root.children.take k).flatMap group ++
            (true, ds ++ [⟨name, children⟩]) :: (root.children.drop (k + 1)).flatMap group := by
      intro children
      rw [List.flatMap_append, List.flatMap_cons, group_of_ne_nil (by rw [hdeclared]; simp), hdeclared]
      exact congrArg (fun b => _ ++ (b, _) :: _) hscope
    refine ⟨(root.children.take k).flatMap group, true, ds, ⟨name, c.children⟩,
      (root.children.drop (k + 1)).flatMap group, ?_, fun g hg => ?_, .inl rfl, fun new => ?_⟩
    · have hself : root.children[k] = root.children[k].withChildren fun _ =>
          before ++ c.withChildren (fun _ => c.children) :: behind := by
        rw [withChildren_self, ← hsplit, withChildren_self]
      refine Eq.trans ?_ (hgroups c.children)
      conv_lhs => rw [← List.take_append_drop k root.children, List.drop_eq_getElem_cons hlt, hself]
      rfl
    · obtain ⟨m, hm, hg⟩ := List.mem_flatMap.1 hg
      obtain ⟨j, hj, rfl⟩ := List.mem_take_iff_getElem.1 hm
      have hjk : j < k := by omega
      have := hnone j hjk
      rw [List.getElem?_eq_getElem (by omega), Option.bind_some] at this
      exact isScope_of_mem_group this g hg
    · change (root.children.modify k (modifyAt _ [before.length])).flatMap group = _
      rw [List.modify_eq_take_cons_drop hlt, modifyAt, hsplit, modify_append_cons]
      exact hgroups (c.children ++ new)

/-- New members of the class being edited are new members of one declared class. -/
theorem declarations_appendAt (h : root.classScope? = some (scope, i)) (new : List Node) :
    ∃ k, root.target? = some k ∧ (appendAt (scope ++ [i]) new root).target? = some k ∧
      (appendAt (scope ++ [i]) new root).declarations = root.declarations.modify k (.grow new) := by
  obtain ⟨gs, b, ds, d, gs', hgroups, hgs, hb, happend⟩ := groups_appendAt h
  obtain ⟨htarget, hdecls⟩ := target?_eq hgroups hgs hb
  obtain ⟨htarget', hdecls'⟩ := target?_eq (happend new) hgs hb
  refine ⟨_, htarget, htarget', ?_⟩
  rw [hdecls, hdecls', modify_append_cons]

theorem exists_target?_of_classScope? (h : root.classScope? = some (scope, i)) :
    ∃ k d, root.target? = some k ∧ root.declarations[k]? = some d := by
  obtain ⟨gs, b, ds, d, gs', hgroups, hgs, hb, -⟩ := groups_appendAt h
  obtain ⟨htarget, hdecls⟩ := target?_eq hgroups hgs hb
  refine ⟨_, d, htarget, ?_⟩
  rw [hdecls, List.getElem?_append_right (Nat.le_refl _), Nat.sub_self]
  rfl

theorem exists_target? (h : root.declarations ≠ []) :
    ∃ k d, root.target? = some k ∧ root.declarations[k]? = some d := by
  cases hs : root.classScope? with
  | some place =>
    obtain ⟨scope, i⟩ := place
    exact exists_target?_of_classScope? hs
  | none =>
    rw [classScope?_scopeClass, Option.or_eq_none_iff, List.findSome?_eq_none_iff,
      Option.map_eq_none_iff] at hs
    refine absurd (List.flatMap_eq_nil_iff.2 fun n hn => declared_eq_nil ?_ (lastClass?_eq_none hs.2 n hn)) h
    obtain ⟨j, hj, rfl⟩ := List.mem_iff_getElem.1 hn
    have hnone := hs.1 j (List.mem_range.2 hj)
    rwa [List.getElem?_eq_getElem hj, Option.bind_some, Option.map_eq_none_iff] at hnone

end Node

namespace Editor

variable {e e' : Editor} {op : Operation} {m : NewMethod} {names : List Text}

/-- A new method stands behind the members of the class being edited, and all other classes stay as
they are. -/
theorem declarations_addMethod (h : e.addMethod m = .ok e') : ∃ k d, m.method? = .ok d ∧
    e.working.root.target? = some k ∧ e'.working.root.target? = some k ∧
      e'.working.root.declarations =
        e.working.root.declarations.modify k (.grow (Node.ofMethods e.working.next [d])) := by
  obtain ⟨scope, classAt, d, hs, hd, -, rfl⟩ := addMethod_eq h
  obtain ⟨k, htarget, htarget', hdecls⟩ :=
    Node.declarations_appendAt hs (Node.ofMethods e.working.next [d])
  exact ⟨k, d, hd, htarget, htarget', hdecls⟩

theorem declarations_addImports (h : e.addImports names = .ok e') :
    e'.working.root.target? = e.working.root.target? ∧
      e'.working.root.declarations = e.working.root.declarations := by
  obtain ⟨qs, scope, classAt, n, -, hs, hn, rfl⟩ := addImports_eq h
  obtain ⟨c, hc, -⟩ := Node.at?_classScope? hs
  rw [Node.at?_append, hn, Option.bind_some] at hc
  obtain ⟨d, hd, -⟩ := Option.bind_eq_some_iff.1 hc
  obtain ⟨before, behind, hsplit, rfl⟩ := Node.split_of_getElem? hd
  have himports : ∀ m ∈ Node.mergeImports e.working.next qs n.children, m.isImport = true :=
    fun _ => Node.isImport_mergeImports
  have hgroups := Node.groups_withImports hs hn hsplit himports
  have hsame : n.withChildren (Node.withImports (Node.mergeImports e.working.next qs n.children)
      before.length) = n.withChildren fun _ => Node.withImports
        (Node.mergeImports e.working.next qs n.children) before.length n.children := rfl
  rw [Node.modifyAt_congr hn hsame] at hgroups
  exact ⟨Node.target?_congr hgroups, Node.declarations_congr hgroups⟩

/-- What an operation that succeeds does to the declared classes. -/
theorem declarations_apply (h : e.apply op = .ok e') : ∃ k new,
    e.working.root.target? = some k ∧ e'.working.root.target? = some k ∧
      e'.working.root.declarations = e.working.root.declarations.modify k (.grow new) := by
  cases op with
  | addMethod m =>
    obtain ⟨k, d, -, hdecls⟩ := declarations_addMethod h
    exact ⟨k, _, hdecls⟩
  | addImports names =>
    obtain ⟨htarget, hdecls⟩ := declarations_addImports h
    obtain ⟨-, scope, classAt, -, -, hs, -⟩ := addImports_eq h
    obtain ⟨k, -, hk, -⟩ := Node.exists_target?_of_classScope? hs
    refine ⟨k, [], hk, htarget.trans hk, ?_⟩
    rw [hdecls, Declared.grow_nil, List.modify_id]

end Editor
end PhpGraft
