import Mathlib.Data.List.Perm.Subperm
import PhpGraft.Proofs.ClassPlace
import PhpGraft.Proofs.Table

/-!
Editors that can be reached. In the tree of each no number is given twice and every number is below
the next one.
-/
namespace PhpGraft

theorem Source.Faithful.sound {s : Source} {text : Text} (h : s.Faithful text) : s.tree.Sound := by
  refine ⟨h.distinct, fun r hr => ?_, fun r hr hd => ?_⟩
  · obtain ⟨n, hn, rfl⟩ := List.mem_map.1 hr
    exact h.fresh n hn
  · obtain ⟨n, hn, rfl⟩ := List.mem_map.1 hr
    have hplaced := h.placed.of_mem_subnodes n hn
    cases hplaced with
    | leaf => rfl
    | container hc => cases hc.symm.trans hd

namespace Tree.Sound

variable {t : Tree} {next : Nat}

/-- Imports of the scope gather in front of it, with new ones among them. -/
theorem rootWith {kept new us : List Node} (h : t.Sound) (pl : t.root.ClassPlace)
    (hkept : kept.Sublist pl.imports) (hus : us.Perm (kept ++ new)) (hnext : t.next ≤ next)
    (hnodup : (new.map Node.id).Nodup) (hnew : ∀ n ∈ new, n.NewImport t.next next)
    (hd : pl.node.decl.isContainer = true) : Tree.Sound ⟨pl.rootWith us, next⟩ := by
  have hcls : pl.cls.isImport = false := Node.isImport_of_isClass pl.isClass
  have hdetach : pl.cls.detach.isImport = false := hcls
  have hothers : Node.others pl.before ++ pl.cls.detach :: Node.others pl.behind =
      Node.others pl.detached.children := by
    rw [pl.children_detached, Node.others_append]
    simp [Node.others, hdetach]
  have himports : pl.imports = pl.detached.children.filter Node.isImport := by
    rw [Node.ClassPlace.imports, pl.children_detached, pl.split]
    simp [hcls, hdetach]
  have holds : (kept ++ Node.others pl.detached.children).Subperm pl.detached.children := by
    have hsub : (kept ++ Node.others pl.detached.children).Sublist
        (pl.detached.children.filter Node.isImport ++ Node.others pl.detached.children) :=
      (himports ▸ hkept).append_right _
    exact hsub.subperm.trans (List.filter_append_perm _ _).subperm
  have hperm : (pl.arranged us).Perm (kept ++ Node.others pl.detached.children ++ new) := by
    rw [Node.ClassPlace.arranged, hothers]
    refine (hus.append_right _).trans ?_
    rw [List.append_assoc, List.append_assoc]
    exact List.perm_append_comm.append_left _
  rw [pl.rootWith_eq]
  apply (h.detach pl.reached_cls).exchange pl.at?_detached hd holds hperm hnext hnodup
  intro n hn
  obtain ⟨id, name, hle, hlt, -, rfl⟩ := hnew n hn
  exact ⟨rfl, hle, hlt⟩

/-- A method comes behind the members of a class. -/
theorem appendMethod {path : List Nat} {c : Node} (h : t.Sound) (hc : t.root.at? path = some c)
    (hclass : c.isClass = true) (d : Method) :
    Tree.Sound ⟨Node.appendAt path (Node.ofMethods t.next [d]) t.root, t.next + 1⟩ := by
  have happend : Node.appendAt path (Node.ofMethods t.next [d]) t.root = t.root.modifyAt
      (.withChildren fun _ => c.children ++ Node.ofMethods t.next [d]) path :=
    Node.modifyAt_congr hc rfl
  rw [happend]
  refine h.exchange hc (Decl.isContainer_of_isClass hclass) (.refl _) (.refl _) (Nat.le_succ _) ?_ ?_
  · exact List.nodup_singleton _
  · intro m hm
    obtain rfl := List.mem_singleton.1 hm
    exact ⟨rfl, Nat.le_refl _, Nat.lt_succ_self _⟩

end Tree.Sound

/-- A file that was opened, and what operations made of it. -/
inductive Editor.Reachable : Editor → Prop
  | parse {text : Text} {style : Style} {e : Editor} : Editor.parse text style = .ok e → Reachable e
  | apply {op : Operation} {e e' : Editor} : Reachable e → e.apply op = .ok e' → Reachable e'

namespace Editor

variable {e e' : Editor} {names : List Text}

theorem Reachable.reached (h : e.Reachable) :
    ∃ (s : Source) (text : Text) (edited : Bool), s.Faithful text ∧ Reached s edited e := by
  induction h with
  | parse h =>
    obtain ⟨s, hparse, rfl⟩ := Editor.parse_eq h
    exact ⟨s, _, false, Source.faithful_of_parse hparse, reached_read s _⟩
  | apply _ ha ih =>
    obtain ⟨s, text, edited, hf, hreached⟩ := ih
    exact ⟨s, text, true, hf, (hreached.apply hf ha).1⟩

theorem Reachable.isContainer (h : e.Reachable) (pl : e.working.root.ClassPlace) :
    pl.node.decl.isContainer = true := by
  obtain ⟨s, text, edited, hf, hreached⟩ := h.reached
  exact hreached.sound hf _ _ _ pl.edited pl.reached

theorem Reachable.sound (h : e.Reachable) : e.working.Sound := by
  induction h with
  | parse h =>
    obtain ⟨s, hparse, rfl⟩ := Editor.parse_eq h
    exact (Source.faithful_of_parse hparse).sound
  | @apply op e e' h ha ih =>
    cases op with
    | addMethod m =>
      obtain ⟨scope, classAt, d, hs, -, -, rfl⟩ := addMethod_eq ha
      obtain ⟨c, hc, hclass⟩ := Node.at?_classScope? hs
      exact ih.appendMethod hc hclass d
    | addImports names =>
      obtain ⟨pl, hq, rfl⟩ := addImports_place ha
      refine ih.rootWith pl (Node.distinctImports_sublist [] _) (Node.mergeImports_perm _ _ _)
        (Nat.le_add_right _ _) (Node.nodup_importsOf _ _) ?_ (h.isContainer pl)
      intro n hn
      exact Node.newImport_of_mem_newImports hq hn

end Editor
end PhpGraft
