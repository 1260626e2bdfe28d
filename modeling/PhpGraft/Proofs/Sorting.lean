import PhpGraft.Editor

/-!
Sorting leaves what has one key in the order it came in, and a sorted list is told from others by
these alone. Imports are sorted by their names.
-/
namespace PhpGraft

section

variable {α β : Type} {le : α → α → Bool} {xs ys : List α}

/-- Sorting is stable. -/
theorem filter_mergeSort (htrans : ∀ a b c, le a b = true → le b c = true → le a c = true)
    (htotal : ∀ a b, (le a b || le b a) = true) {p : α → Bool}
    (hp : ∀ a b, p a = true → p b = true → le a b = true) : (xs.mergeSort le).filter p = xs.filter p := by
  have hsorted : (xs.filter p).Pairwise fun a b => le a b = true :=
    List.pairwise_of_forall_mem_list fun a ha b hb =>
      hp a b (List.mem_filter.1 ha).2 (List.mem_filter.1 hb).2
  have hsub : (xs.filter p).Sublist (xs.mergeSort le) :=
    List.sublist_mergeSort htrans htotal hsorted List.filter_sublist
  have hfilter : (xs.filter p).Sublist ((xs.mergeSort le).filter p) := by
    have := hsub.filter p
    simpa only [List.filter_filter, Bool.and_self] using this
  exact (hfilter.eq_of_length ((List.mergeSort_perm xs le).filter p).length_eq.symm).symm

variable [DecidableEq β] {f : α → β}

theorem mem_of_filter_key {x : α} (h : xs.filter (f · = f x) = ys.filter (f · = f x))
    (hx : x ∈ xs) : x ∈ ys := by
  have hmem : x ∈ xs.filter (f · = f x) := List.mem_filter.2 ⟨hx, decide_eq_true rfl⟩
  rw [h] at hmem
  exact (List.mem_filter.1 hmem).1

/-- Sorted lists with the same elements of each key, in the same order, are the same. -/
theorem eq_of_filter_key (hx : xs.Pairwise fun a b => le a b = true)
    (hy : ys.Pairwise fun a b => le a b = true)
    (hkey : ∀ a ∈ xs, ∀ b ∈ ys, le a b = true → le b a = true → f a = f b)
    (h : ∀ k, xs.filter (f · = k) = ys.filter (f · = k)) : xs = ys := by
  induction xs generalizing ys with
  | nil =>
    refine (List.eq_nil_iff_forall_not_mem.2 fun y hy => ?_).symm
    cases mem_of_filter_key (h _).symm hy
  | cons x xs ih =>
    cases ys with
    | nil => cases mem_of_filter_key (h _) List.mem_cons_self
    | cons y ys =>
      obtain ⟨hle, hrest⟩ := List.pairwise_cons.1 hx
      obtain ⟨hle', hrest'⟩ := List.pairwise_cons.1 hy
      -- each head stands somewhere in the other list, so neither key comes before the other
      have hheads : f x = f y := by
        rcases List.mem_cons.1 (mem_of_filter_key (h _).symm List.mem_cons_self) with rfl | hmem
        · rfl
        rcases List.mem_cons.1 (mem_of_filter_key (h _) List.mem_cons_self) with rfl | hmem'
        · rfl
        · exact hkey x List.mem_cons_self y List.mem_cons_self (hle y hmem) (hle' x hmem')
      have hhead := h (f x)
      simp only [List.filter_cons, decide_true, if_true, hheads] at hhead
      obtain ⟨rfl, -⟩ := List.cons.inj hhead
      refine congrArg (x :: ·) (ih hrest hrest'
        (fun a ha b hb => hkey a (.tail _ ha) b (.tail _ hb)) fun k => ?_)
      have htail := h k
      simp only [List.filter_cons] at htail
      split at htail
      · exact (List.cons.inj htail).2
      · exact htail

end

namespace Text

variable {s t u : Text}

theorem bytes_injective : Function.Injective bytes := by
  intro s t h
  refine String.ofList_injective (String.toByteArray_inj.1 ?_)
  have hbytes : s.utf8Encode = t.utf8Encode := congrArg List.toByteArray h
  simpa using hbytes

theorem shortLexLE_iff : shortLexLE s t = true ↔
    s.byteSize < t.byteSize ∨ s.byteSize = t.byteSize ∧ s.bytes ≤ t.bytes := by
  simp [shortLexLE]

theorem shortLexLE_trans (h : shortLexLE s t = true) (h' : shortLexLE t u = true) :
    shortLexLE s u = true := by
  rw [shortLexLE_iff] at *
  rcases h with h | ⟨hs, h⟩ <;> rcases h' with h' | ⟨hs', h'⟩
  · exact .inl (Nat.lt_trans h h')
  · exact .inl (hs' ▸ h)
  · exact .inl (hs ▸ h')
  · exact .inr ⟨hs.trans hs', List.le_trans h h'⟩

theorem shortLexLE_total (s t : Text) : (shortLexLE s t || shortLexLE t s) = true := by
  rw [Bool.or_eq_true, shortLexLE_iff, shortLexLE_iff]
  rcases Nat.lt_trichotomy s.byteSize t.byteSize with h | h | h
  · exact .inl (.inl h)
  · exact (List.le_total s.bytes t.bytes).imp (fun hle => .inr ⟨h, hle⟩) fun hle => .inr ⟨h.symm, hle⟩
  · exact .inr (.inl h)

theorem shortLexLE_refl (s : Text) : shortLexLE s s = true := by
  rw [← Bool.or_self (shortLexLE s s)]
  exact shortLexLE_total s s

theorem shortLexLE_antisymm (h : shortLexLE s t = true) (h' : shortLexLE t s = true) : s = t := by
  rw [shortLexLE_iff] at h h'
  refine bytes_injective (List.le_antisymm ?_ ?_)
  · exact (h.resolve_left fun hlt => by omega).2
  · exact (h'.resolve_left fun hlt => by omega).2

end Text

namespace Node

/-- The imports sorted by one name. -/
def named (name : Text) (ns : List Node) : List Node := ns.filter (·.importName = name)

def Sorted (ns : List Node) : Prop :=
  ns.Pairwise fun a b => Text.shortLexLE a.importName b.importName = true

variable {ns ms : List Node} {name : Text}

theorem named_append (name : Text) (ns ms : List Node) :
    named name (ns ++ ms) = named name ns ++ named name ms := List.filter_append ..

theorem sorted_sortImports (ns : List Node) : Sorted (sortImports ns) := by
  refine List.pairwise_mergeSort (fun a b c => ?_) (fun a b => ?_) ns
  · exact Text.shortLexLE_trans
  · exact Text.shortLexLE_total _ _

theorem named_sortImports (name : Text) (ns : List Node) :
    named name (sortImports ns) = named name ns := by
  refine filter_mergeSort (fun a b c => ?_) (fun a b => ?_) fun a b ha hb => ?_
  · exact Text.shortLexLE_trans
  · exact Text.shortLexLE_total _ _
  · rw [of_decide_eq_true ha, of_decide_eq_true hb]
    exact Text.shortLexLE_refl name

/-- Sorted lists with the same imports of each name, in the same order, are the same. -/
theorem Sorted.ext (h : Sorted ns) (h' : Sorted ms)
    (hn : ∀ name, named name ns = named name ms) : ns = ms :=
  eq_of_filter_key h h' (fun _ _ _ _ => Text.shortLexLE_antisymm) hn

/-- What sorting gives depends on the imports of each name alone. -/
theorem sortImports_congr (h : ∀ name, named name ns = named name ms) :
    sortImports ns = sortImports ms := by
  refine (sorted_sortImports ns).ext (sorted_sortImports ms) fun name => ?_
  rw [named_sortImports, named_sortImports, h]

/-- Imports may be sorted before others are added. -/
theorem sortImports_append (ns ms : List Node) :
    sortImports (sortImports ns ++ ms) = sortImports (ns ++ ms) := by
  refine sortImports_congr fun name => ?_
  rw [named_append, named_append, named_sortImports]

end Node
end PhpGraft
