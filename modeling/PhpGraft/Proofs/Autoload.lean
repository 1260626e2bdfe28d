import Mathlib.Data.List.Induction
import PhpGraft.Locator
import PhpGraft.Proofs.Bytes
import PhpGraft.Proofs.Sorting
import PhpGraft.Storage.Disk

/-!
Classes looked up by the directories of namespace prefixes. The longest prefix of a name comes first,
whatever the order of registration, and the directories of one prefix come in the order that they were
registered in.
-/
namespace PhpGraft

/-- Of the prefixes of a text there is one of each size. -/
theorem Text.eq_of_isPrefix {s t u : Text} (hs : s <+: u) (ht : t <+: u)
    (hsize : s.byteSize = t.byteSize) : s = t := by
  have hempty : ∀ {s v : Text}, s.byteSize = (s ++ v).byteSize → v = [] := by
    intro s v h
    rw [Text.byteSize_append] at h
    by_contra hne
    have := Text.byteSize_pos hne
    omega
  rcases List.prefix_or_prefix_of_prefix hs ht with ⟨v, rfl⟩ | ⟨v, rfl⟩
  · rw [hempty hsize, List.append_nil]
  · rw [hempty hsize.symm, List.append_nil]

theorem filter_swap {α : Type} (p q : α → Bool) (xs : List α) :
    (xs.filter p).filter q = (xs.filter q).filter p := by
  rw [List.filter_filter, List.filter_filter]
  simp only [Bool.and_comm]

/-- The first path that passes a test which changes nothing. -/
theorem Locator.run_findM? {σ : Type} {p : Text → StateM σ Bool} {q : σ → Text → Bool}
    (h : ∀ path d, (p path).run d = (q d path, d)) (paths : List Text) (d : σ) :
    (findM? p paths).run d = (paths.find? (q d), d) := by
  induction paths with
  | nil => rfl
  | cons path paths ih =>
    rw [findM?, StateT.run_bind, h]
    rw [List.find?_cons]
    cases q d path with
    | true => rfl
    | false => exact ih

namespace Autoload

variable {entries : List (Text × Text)} {es : List (Text × List Text)} {a : Autoload}
  {scope name : Text}

/-- What is registered, with the prefixes in the form that names are compared with. -/
def rules (entries : List (Text × Text)) : List (Text × Text) :=
  entries.map fun e => (normalizePrefix e.1, e.2)

/-- The directories registered for a prefix. -/
def directories (entries : List (Text × Text)) (scope : Text) : List Text :=
  ((rules entries).filter (·.1 = scope)).map Prod.snd

/-- Where the rest of a name is looked for in a directory. -/
def relative (rest : Text) : Text := rest.map (fun c => if c = '\\' then '/' else c) ++ ".php"

def candidate (name : Text) (rule : Text × Text) : Text :=
  Path.join rule.2 (relative (name.drop rule.1.length))

def applies (name : Text) (rule : Text × Text) : Bool := rule.1.isPrefixOf name

def atLeast (r q : Text × Text) : Bool := q.1.byteSize ≤ r.1.byteSize

/-- The file of a class for each rule that applies to its name: by decreasing size of the prefix, and
in the order of registration where this is the same. -/
def ranked (entries : List (Text × Text)) (name : Text) : List Text :=
  (((rules entries).filter (applies name)).mergeSort atLeast).map (candidate name)

/-! Prefixes with their directories, one by one. -/

/-- Each directory with its prefix. -/
def pairs (es : List (Text × List Text)) : List (Text × Text) :=
  es.flatMap fun e => e.2.map (e.1, ·)

theorem candidates_eq (a : Autoload) (name : Text) :
    a.candidates name = ((pairs a.prefixes).filter (applies (Name.normalize name))).map
      (candidate (Name.normalize name)) := by
  rw [candidates, pairs, List.filter_flatMap, List.map_flatMap]
  congr 1
  funext e
  rw [List.filter_map, List.map_map, Text.dropPrefix?]
  cases h : e.1.isPrefixOf (Name.normalize name) with
  | true =>
    have hall : ∀ d ∈ e.2, (applies (Name.normalize name) ∘ (e.1, ·)) d = true := fun _ _ => h
    rw [if_pos rfl, List.filter_eq_self.2 hall]
    rfl
  | false =>
    have hnone : ∀ d ∈ e.2, ¬(applies (Name.normalize name) ∘ (e.1, ·)) d = true := by
      simp [applies, h]
    rw [if_neg Bool.false_ne_true, List.filter_eq_nil_iff.2 hnone]
    rfl

theorem rules_append (entries : List (Text × Text)) (e : Text × Text) :
    rules (entries ++ [e]) = rules entries ++ [(normalizePrefix e.1, e.2)] := List.map_append ..

theorem filter_rules (entries : List (Text × Text)) (scope : Text) :
    (rules entries).filter (·.1 = scope) = (directories entries scope).map (scope, ·) := by
  rw [directories, List.map_map]
  refine (List.map_id _).symm.trans (List.map_congr_left fun r hr => ?_)
  rw [← of_decide_eq_true (List.mem_filter.1 hr).2]
  rfl

theorem filter_pairs_of_not_mem (h : scope ∉ es.map Prod.fst) :
    (pairs es).filter (·.1 = scope) = [] := by
  rw [List.filter_eq_nil_iff]
  intro r hr hscope
  obtain ⟨e, he, hr⟩ := List.mem_flatMap.1 hr
  obtain ⟨d, -, rfl⟩ := List.mem_map.1 hr
  exact h (of_decide_eq_true hscope ▸ List.mem_map_of_mem he)

/-- A prefix that is there once has the directories that stand with it. -/
theorem filter_pairs {e : Text × List Text} (hnodup : (es.map Prod.fst).Nodup) (he : e ∈ es) :
    (pairs es).filter (·.1 = e.1) = e.2.map (e.1, ·) := by
  induction es with
  | nil => cases he
  | cons f es ih =>
    obtain ⟨hnot, hnodup⟩ := List.nodup_cons.1 hnodup
    have hsplit : pairs (f :: es) = f.2.map (f.1, ·) ++ pairs es := List.flatMap_cons
    rw [hsplit, List.filter_append]
    rcases List.mem_cons.1 he with rfl | he
    · rw [filter_pairs_of_not_mem hnot, List.append_nil, List.filter_eq_self]
      simp
    · have hne : f.1 ≠ e.1 := fun h => hnot (h ▸ List.mem_map_of_mem he)
      rw [ih hnodup he, List.filter_eq_nil_iff.2 (by simp [hne]), List.nil_append]

/-! What registering keeps. -/

def Longer (s t : Text) : Prop := t.byteSize ≤ s.byteSize

/-- Each prefix that is registered is there once, with its directories, the longest ones first. -/
structure Lists (entries : List (Text × Text)) (es : List (Text × List Text)) : Prop where
  sorted : (es.map Prod.fst).Pairwise Longer
  nodup : (es.map Prod.fst).Nodup
  directories : ∀ e ∈ es, e.2 = directories entries e.1
  complete : ∀ scope, Autoload.directories entries scope ≠ [] → scope ∈ es.map Prod.fst

theorem directories_append (entries : List (Text × Text)) (e : Text × Text) (scope : Text) :
    directories (entries ++ [e]) scope =
      directories entries scope ++ if normalizePrefix e.1 = scope then [e.2] else [] := by
  rw [directories, rules_append, List.filter_append, List.map_append]
  congr 1
  by_cases h : normalizePrefix e.1 = scope <;> simp [h]

theorem insertPrefix_split (scope directory : Text) (hsorted : (es.map Prod.fst).Pairwise Longer) :
    ∃ front back, es = front ++ back ∧
      insertPrefix scope directory es = front ++ (scope, [directory]) :: back ∧
      (∀ e ∈ front, Longer e.1 scope) ∧ ∀ e ∈ back, Longer scope e.1 := by
  induction es with
  | nil => exact ⟨[], [], rfl, rfl, List.forall_mem_nil _, List.forall_mem_nil _⟩
  | cons e es ih =>
    obtain ⟨hle, hsorted⟩ := List.pairwise_cons.1 hsorted
    rw [insertPrefix]
    split
    · rename_i hsize
      obtain ⟨front, back, rfl, hinsert, hfront, hback⟩ := ih hsorted
      exact ⟨e :: front, back, rfl, congrArg (e :: ·) hinsert,
        List.forall_mem_cons.2 ⟨hsize, hfront⟩, hback⟩
    · rename_i hsize
      have hsize : Longer scope e.1 := Nat.le_of_lt (Nat.lt_of_not_le hsize)
      refine ⟨[], e :: es, rfl, rfl, List.forall_mem_nil _, List.forall_mem_cons.2 ⟨hsize, ?_⟩⟩
      exact fun f hf => Nat.le_trans (hle f.1 (List.mem_map_of_mem hf)) hsize

theorem Lists.insert {e : Text × Text} (h : Lists entries es)
    (hnew : normalizePrefix e.1 ∉ es.map Prod.fst) :
    Lists (entries ++ [e]) (insertPrefix (normalizePrefix e.1) e.2 es) := by
  have hnone : Autoload.directories entries (normalizePrefix e.1) = [] := by
    by_contra hne
    exact hnew (h.complete _ hne)
  obtain ⟨front, back, rfl, hinsert, hfront, hback⟩ :=
    insertPrefix_split (normalizePrefix e.1) e.2 h.sorted
  have hperm : ((insertPrefix (normalizePrefix e.1) e.2 (front ++ back)).map Prod.fst).Perm
      (normalizePrefix e.1 :: (front ++ back).map Prod.fst) := by
    rw [hinsert]
    exact List.perm_middle.map _
  refine ⟨?_, hperm.nodup_iff.2 (List.nodup_cons.2 ⟨hnew, h.nodup⟩), fun f hf => ?_,
    fun scope hscope => hperm.mem_iff.2 ?_⟩
  · have hsorted := h.sorted
    rw [List.map_append, List.pairwise_append] at hsorted
    obtain ⟨hsfront, hsback, hcross⟩ := hsorted
    rw [hinsert, List.map_append, List.map_cons, List.pairwise_append, List.pairwise_cons]
    refine ⟨hsfront, ⟨List.forall_mem_map.2 hback, hsback⟩, fun s hs t ht => ?_⟩
    rcases List.mem_cons.1 ht with rfl | ht
    · obtain ⟨f, hf, rfl⟩ := List.mem_map.1 hs
      exact hfront f hf
    · exact hcross s hs t ht
  · rw [directories_append]
    rw [hinsert, List.perm_middle.mem_iff] at hf
    rcases List.mem_cons.1 hf with rfl | hf
    · rw [if_pos rfl, hnone]
      rfl
    · have hne : normalizePrefix e.1 ≠ f.1 := fun heq => hnew (heq ▸ List.mem_map_of_mem hf)
      rw [if_neg hne, List.append_nil, h.directories f hf]
  · rw [directories_append] at hscope
    by_cases heq : normalizePrefix e.1 = scope
    · exact heq ▸ List.mem_cons_self
    · rw [if_neg heq, List.append_nil] at hscope
      exact List.mem_cons_of_mem _ (h.complete scope hscope)

theorem Lists.extend {e : Text × Text} (h : Lists entries es)
    (hold : normalizePrefix e.1 ∈ es.map Prod.fst) :
    Lists (entries ++ [e])
      (es.map fun f => if f.1 = normalizePrefix e.1 then (f.1, f.2 ++ [e.2]) else f) := by
  have hkeys : (es.map fun f => if f.1 = normalizePrefix e.1 then (f.1, f.2 ++ [e.2]) else f).map
      Prod.fst = es.map Prod.fst := by
    rw [List.map_map]
    refine List.map_congr_left fun f _ => ?_
    rw [Function.comp_apply]
    split <;> rfl
  refine ⟨hkeys ▸ h.sorted, hkeys ▸ h.nodup, fun f hf => ?_, fun scope hscope => hkeys ▸ ?_⟩
  · obtain ⟨g, hg, rfl⟩ := List.mem_map.1 hf
    rw [directories_append]
    by_cases heq : g.1 = normalizePrefix e.1
    · rw [if_pos heq, if_pos heq.symm, h.directories g hg]
    · rw [if_neg heq, if_neg (Ne.symm heq), List.append_nil, h.directories g hg]
  · rw [directories_append] at hscope
    by_cases heq : normalizePrefix e.1 = scope
    · exact heq ▸ hold
    · rw [if_neg heq, List.append_nil] at hscope
      exact h.complete scope hscope

theorem Lists.add {e : Text × Text} (h : Lists entries a.prefixes) :
    Lists (entries ++ [e]) (a.add e.1 e.2).prefixes := by
  have hany : a.prefixes.any (·.1 == normalizePrefix e.1) = true ↔
      normalizePrefix e.1 ∈ a.prefixes.map Prod.fst := by
    simp [List.any_eq_true]
  rw [Autoload.add]
  split
  · exact h.extend (hany.1 ‹_›)
  · exact h.insert (mt hany.2 ‹_›)

theorem lists_ofList (entries : List (Text × Text)) : Lists entries (ofList entries).prefixes := by
  induction entries using List.reverseRecOn with
  | nil => exact ⟨.nil, .nil, List.forall_mem_nil _, fun _ h => absurd rfl h⟩
  | append_singleton entries e ih =>
    rw [ofList, List.foldl_append]
    exact ih.add

/-! Candidates in their order. -/

theorem Lists.filter_pairs (h : Lists entries es) (scope : Text) :
    (pairs es).filter (·.1 = scope) = (rules entries).filter (·.1 = scope) := by
  rw [filter_rules]
  by_cases hmem : scope ∈ es.map Prod.fst
  · obtain ⟨e, he, rfl⟩ := List.mem_map.1 hmem
    rw [Autoload.filter_pairs h.nodup he, h.directories e he]
  · have hnone : Autoload.directories entries scope = [] := by
      by_contra hne
      exact hmem (h.complete scope hne)
    rw [filter_pairs_of_not_mem hmem, hnone]
    rfl

theorem Lists.sorted_pairs (h : Lists entries es) :
    (pairs es).Pairwise fun r q => atLeast r q = true := by
  rw [pairs, List.pairwise_flatMap]
  constructor
  · intro e _
    exact List.pairwise_map.2 (List.pairwise_of_forall fun _ _ => decide_eq_true (Nat.le_refl _))
  · refine (List.pairwise_map.1 h.sorted).imp fun {e f} hle r hr q hq => ?_
    obtain ⟨d, -, rfl⟩ := List.mem_map.1 hr
    obtain ⟨d', -, rfl⟩ := List.mem_map.1 hq
    exact decide_eq_true hle

theorem atLeast_trans (r q p : Text × Text) (h : atLeast r q = true) (h' : atLeast q p = true) :
    atLeast r p = true :=
  decide_eq_true (Nat.le_trans (of_decide_eq_true h') (of_decide_eq_true h))

theorem atLeast_total (r q : Text × Text) : (atLeast r q || atLeast q r) = true := by
  rw [Bool.or_eq_true, atLeast, atLeast, decide_eq_true_eq, decide_eq_true_eq]
  exact Nat.le_total _ _

/-- Rules that apply to one name and are in order are told apart by those of each prefix. -/
theorem eq_of_applicable {rs : List (Text × Text)}
    (hr : (rs.filter (applies name)).Pairwise fun r q => atLeast r q = true)
    (h : ∀ scope, rs.filter (·.1 = scope) = (rules entries).filter (·.1 = scope)) :
    rs.filter (applies name) = ((rules entries).filter (applies name)).mergeSort atLeast := by
  refine eq_of_filter_key (f := Prod.fst) hr (List.pairwise_mergeSort atLeast_trans atLeast_total _)
    (fun r hr q hq hle hge => ?_) fun scope => ?_
  · -- of the prefixes of one name no two have the same size
    have hr := (List.mem_filter.1 hr).2
    have hq := (List.mem_filter.1 (List.mem_mergeSort.1 hq)).2
    exact Text.eq_of_isPrefix (List.isPrefixOf_iff_prefix.1 hr) (List.isPrefixOf_iff_prefix.1 hq)
      (Nat.le_antisymm (of_decide_eq_true hge) (of_decide_eq_true hle))
  · rw [filter_mergeSort atLeast_trans atLeast_total]
    · rw [filter_swap, h, filter_swap]
    · intro r q hr hq
      rw [atLeast, of_decide_eq_true hr, of_decide_eq_true hq]
      exact decide_eq_true (Nat.le_refl _)

theorem candidates_ofList (entries : List (Text × Text)) (name : Text) :
    (ofList entries).candidates name = ranked entries (Name.normalize name) := by
  have hlists := lists_ofList entries
  rw [candidates_eq, ranked, eq_of_applicable (hlists.sorted_pairs.filter _) hlists.filter_pairs]

/-- Candidates depend on the directories of each prefix alone. -/
theorem candidates_congr {entries' : List (Text × Text)}
    (h : ∀ scope, directories entries' scope = directories entries scope) (name : Text) :
    (ofList entries').candidates name = (ofList entries).candidates name := by
  have hlists := lists_ofList entries'
  have hfilter : ∀ scope, (pairs (ofList entries').prefixes).filter (·.1 = scope) =
      (rules entries).filter (·.1 = scope) := by
    intro scope
    rw [hlists.filter_pairs, filter_rules, h, ← filter_rules]
  rw [candidates_ofList entries, candidates_eq, ranked,
    eq_of_applicable (hlists.sorted_pairs.filter _) hfilter]

end Autoload

/-- A class is found at the first candidate that is a file, where longer prefixes come first and the
directories of one prefix in the order they were registered in; so the order in which prefixes are
registered does not matter. -/
theorem locate_longestFirst {σ : Type} [Storage (StateM σ)] {isFile : σ → Text → Bool}
    (h : ∀ path d, (Storage.isFile path : StateM σ Bool).run d = (isFile d path, d))
    (entries : List (Text × Text)) (name : Text) :
    (∀ d, ((Locator.autoload (.ofList entries)).locate? name : StateM σ (Option Text)).run d =
      ((Autoload.ranked entries (Name.normalize name)).find? (isFile d), d)) ∧
    ∀ entries', (∀ scope, Autoload.directories entries' scope = Autoload.directories entries scope) →
      ((Locator.autoload (.ofList entries')).locate? name : StateM σ (Option Text)) =
        (Locator.autoload (.ofList entries)).locate? name := by
  constructor
  · intro d
    rw [Locator.locate?, Autoload.candidates_ofList]
    exact Locator.run_findM? h _ d
  · intro entries' hsame
    rw [Locator.locate?, Locator.locate?, Autoload.candidates_congr hsame]

/-- A prefix in a longer one, each of them spelled in two ways, in two orders. -/
theorem locate_longestFirst_nested :
    let entries : List (Text × Text) := [("App", "src"), ("\\App\\Http\\", "http"), (" App\\", "lib")]
    let entries' : List (Text × Text) := [("App\\Http", "http"), ("App", "src"), ("App", "lib")]
    let d : Disk := ⟨[(["lib", "Http", "Kernel.php"], .file (.text []))], []⟩
    Autoload.ranked entries (Name.normalize "\\App\\Http\\Kernel") =
      (["http/Kernel.php", "src/Http/Kernel.php", "lib/Http/Kernel.php"] : List Text) ∧
    ∀ es ∈ [entries, entries'],
      (((Locator.autoload (.ofList es)).locate? "\\App\\Http\\Kernel" : StateM Disk _).run d).1 =
        some "lib/Http/Kernel.php" := by
  intro entries entries' d
  obtain ⟨hfirst, hsame⟩ := locate_longestFirst (fun path d => (rfl :
    (Storage.isFile path : StateM Disk Bool).run d = (d.isFile path, d))) entries "\\App\\Http\\Kernel"
  have hranked : Autoload.ranked entries (Name.normalize "\\App\\Http\\Kernel") =
      (["http/Kernel.php", "src/Http/Kernel.php", "lib/Http/Kernel.php"] : List Text) :=
    (Autoload.candidates_ofList entries _).symm.trans (by decide +kernel)
  have hentries : (((Locator.autoload (.ofList entries)).locate? "\\App\\Http\\Kernel" :
      StateM Disk _).run d).1 = some "lib/Http/Kernel.php".toList := by
    rw [hfirst, hranked]
    decide +kernel
  refine ⟨hranked, List.forall_mem_cons.2 ⟨hentries, List.forall_mem_singleton.2 ?_⟩⟩
  rw [hsame entries' fun scope => ?_]
  · exact hentries
  · have hrules : Autoload.rules entries =
        ([("App\\", "src"), ("App\\Http\\", "http"), ("App\\", "lib")] : List (Text × Text)) := by
      decide +kernel
    have hrules' : Autoload.rules entries' =
        ([("App\\Http\\", "http"), ("App\\", "src"), ("App\\", "lib")] : List (Text × Text)) := by
      decide +kernel
    rw [Autoload.directories, Autoload.directories, hrules, hrules']
    by_cases happ : "App\\".toList = scope <;> by_cases hhttp : "App\\Http\\".toList = scope
    · cases happ.trans hhttp.symm
    all_goals simp only [List.filter_cons, List.filter_nil, happ, hhttp, decide_true, decide_false, if_true,
      Bool.false_eq_true, if_false]

end PhpGraft
