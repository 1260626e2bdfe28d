import PhpGraft.Editor

/-!
Which class is edited and which classes are declared depends on the outline of the tree alone, and
new members of the edited class leave the outline as it is.
-/
namespace PhpGraft

theorem Decl.isContainer_of_isClass {d : Decl} (h : d.isClass = true) : d.isContainer = true := by
  cases d <;> first | rfl | cases h

theorem Container.ofDecl_of_isClass {d : Decl} (h : d.isClass = true) : ofDecl d = block := by
  cases d <;> first | rfl | cases h

namespace Node

theorem modifyAt_modifyAt (f g : Node → Node) (path : List Nat) (n : Node) :
    modifyAt g path (modifyAt f path n) = modifyAt (fun n => g (f n)) path n := by
  induction path generalizing n with
  | nil => rfl
  | cons i path ih =>
    simp only [modifyAt, List.modify_modify_eq]
    congr 2
    funext m
    exact ih m

/-- Children added behind those of the node at `path`. -/
def appendAt (path : List Nat) (new : List Node) : Node → Node :=
  modifyAt (withChildren (· ++ new)) path

theorem appendAt_appendAt (path : List Nat) (new more : List Node) (n : Node) :
    appendAt path more (appendAt path new n) = appendAt path (new ++ more) n := by
  rw [appendAt, appendAt, modifyAt_modifyAt]
  congr
  funext m
  simp only [withChildren, List.append_assoc]

theorem appendAt_nil (path : List Nat) (n : Node) : appendAt path [] n = n := by
  induction path generalizing n with
  | nil =>
    cases n
    simp [appendAt, modifyAt, withChildren]
  | cons i path ih =>
    have hid : modifyAt (withChildren (· ++ [])) path = fun n => n := funext ih
    cases n
    simp only [appendAt, modifyAt, hid]
    exact congrArg _ (List.modify_id i _)

/-- The declarations of the file, and of its namespaces one level further. -/
def outline (root : Node) : List (Decl × List Decl) :=
  root.children.map fun n => (n.decl, if n.decl.isScope then n.children.map Node.decl else [])

def lastClassDecl? (ds : List Decl) : Option Nat :=
  (ds.reverse.findIdx? Decl.isClass).map (ds.length - 1 - ·)

theorem lastClass?_eq (ns : List Node) : lastClass? ns = lastClassDecl? (ns.map Node.decl) := by
  rw [lastClass?, lastClassDecl?, ← List.map_reverse, List.findIdx?_map, List.length_map]
  rfl

/-- The outline decides which class is edited. -/
theorem classScope?_eq (n : Node) : n.classScope? =
    ((List.range n.outline.length).findSome? fun i =>
      n.outline[i]?.bind fun o =>
        if o.1.isScope then (lastClassDecl? o.2).map ([i], ·) else none).or
      ((lastClassDecl? (n.outline.map Prod.fst)).map ([], ·)) := by
  have hscope : ∀ i : Nat, (n.outline[i]?.bind fun o =>
      if o.1.isScope then (lastClassDecl? o.2).map (([i] : List Nat), ·) else none) =
      n.children[i]?.bind fun m =>
        if m.decl.isScope then (lastClass? m.children).map ([i], ·) else none := by
    intro i
    rw [outline, List.getElem?_map, Option.bind_map]
    congr 1
    funext m
    by_cases hm : m.decl.isScope = true
    · simp [hm, lastClass?_eq]
    · simp [hm]
  have htop : n.outline.map Prod.fst = n.children.map Node.decl := by
    rw [outline, List.map_map]
    rfl
  have hlen : n.outline.length = n.children.length := List.length_map _
  simp only [hscope, htop, hlen, ← lastClass?_eq]
  rfl

theorem classScope?_congr {m n : Node} (h : m.outline = n.outline) :
    m.classScope? = n.classScope? := by
  rw [classScope?_eq, classScope?_eq, h]

/-- The outline lists the declared classes. -/
theorem declaredClasses_eq (n : Node) : n.declaredClasses = n.outline.flatMap fun o =>
    match o.1 with
    | .scope name? _ => o.2.filterMap fun d =>
      match d with
      | .classLike head => some (Name.qualify name? head.name)
      | _ => none
    | .classLike head => [head.name]
    | _ => [] := by
  rw [declaredClasses, outline, List.flatMap_map]
  congr 1
  funext m
  cases hm : m.decl with
  | scope name? braced =>
    simp only [Decl.isScope, if_true, List.filterMap_map]
    rfl
  | _ => rfl

theorem declaredClasses_congr {m n : Node} (h : m.outline = n.outline) :
    m.declaredClasses = n.declaredClasses := by
  rw [declaredClasses_eq, declaredClasses_eq, h]

theorem lastClass?_isClass {ns : List Node} {i : Nat} (h : lastClass? ns = some i) :
    ∃ c, ns[i]? = some c ∧ c.isClass = true := by
  obtain ⟨j, hj, rfl⟩ := Option.map_eq_some_iff.1 h
  obtain ⟨hlt, hc, -⟩ := List.findIdx?_eq_some_iff_getElem.1 hj
  rw [List.length_reverse] at hlt
  rw [List.getElem_reverse] at hc
  exact ⟨_, List.getElem?_eq_getElem (by omega), hc⟩

/-- The edited class stands in the file itself or in one of its namespaces. -/
theorem classScope?_cases {root : Node} {scope : List Nat} {i : Nat}
    (h : root.classScope? = some (scope, i)) :
    (scope = [] ∧ ∃ c, root.children[i]? = some c ∧ c.isClass = true) ∨
      ∃ k n c, scope = [k] ∧ root.children[k]? = some n ∧ n.decl.isScope = true ∧
        n.children[i]? = some c ∧ c.isClass = true := by
  rcases Option.or_eq_some_iff.1 h with h | ⟨-, h⟩
  · obtain ⟨k, -, hk⟩ := List.exists_of_findSome?_eq_some h
    obtain ⟨n, hn, hk⟩ := Option.bind_eq_some_iff.1 hk
    split at hk
    · rename_i hs
      obtain ⟨j, hj, he⟩ := Option.map_eq_some_iff.1 hk
      obtain ⟨c, hc⟩ := lastClass?_isClass hj
      cases he
      exact .inr ⟨k, n, c, rfl, hn, hs, hc⟩
    · cases hk
  · obtain ⟨j, hj, he⟩ := Option.map_eq_some_iff.1 h
    cases he
    exact .inl ⟨rfl, lastClass?_isClass hj⟩

theorem at?_classScope? {root : Node} {scope : List Nat} {i : Nat}
    (h : root.classScope? = some (scope, i)) :
    ∃ c, root.at? (scope ++ [i]) = some c ∧ c.isClass = true := by
  rcases classScope?_cases h with ⟨rfl, c, hc, hcl⟩ | ⟨k, n, c, rfl, hn, -, hc, hcl⟩
  · exact ⟨c, by simp [at?, hc], hcl⟩
  · exact ⟨c, by simp [at?, hn, hc], hcl⟩

theorem outline_modify {root : Node} {k : Nat} {n : Node} {f : Node → Node}
    (hn : root.children[k]? = some n) (hd : (f n).decl = n.decl)
    (hc : n.decl.isScope = true → (f n).children.map Node.decl = n.children.map Node.decl) :
    outline { root with children := root.children.modify k f } = root.outline := by
  refine List.ext_getElem? fun j => ?_
  simp only [outline, List.getElem?_map]
  by_cases hj : k = j
  · subst hj
    rw [List.getElem?_modify_eq, hn]
    simp only [Option.map_eq_map, Option.map_some]
    by_cases hs : n.decl.isScope = true
    · rw [hd, if_pos hs, if_pos hs, hc hs]
    · rw [hd, if_neg hs, if_neg hs]
  · rw [List.getElem?_modify_ne _ _ hj]

/-- Other members of the edited class do not change the outline. -/
theorem outline_withMembers {root : Node} {scope : List Nat} {i : Nat} (f : List Node → List Node)
    (h : root.classScope? = some (scope, i)) :
    outline (modifyAt (withChildren f) (scope ++ [i]) root) = root.outline := by
  rcases classScope?_cases h with ⟨rfl, c, hc, hcl⟩ | ⟨k, n, c, rfl, hn, -, hc, -⟩
  · refine outline_modify hc rfl fun hs => ?_
    unfold isClass at hcl
    cases hd : c.decl with
    | classLike =>
      rw [hd] at hs
      cases hs
    | _ =>
      rw [hd] at hcl
      cases hcl
  · refine outline_modify hn rfl fun _ => ?_
    refine List.ext_getElem? fun j => ?_
    show ((n.children.modify i (modifyAt (withChildren f) [])).map decl)[j]? = _
    rw [List.getElem?_map, List.getElem?_map]
    by_cases hj : i = j
    · subst hj
      rw [List.getElem?_modify_eq, hc]
      rfl
    · rw [List.getElem?_modify_ne _ _ hj]

theorem outline_appendAt {root : Node} {scope : List Nat} {i : Nat} (new : List Node)
    (h : root.classScope? = some (scope, i)) :
    outline (appendAt (scope ++ [i]) new root) = root.outline := outline_withMembers _ h

end Node
end PhpGraft
