import Mathlib.Data.List.Basic
import Mathlib.Logic.Relation
import PhpGraft.DocBlock
import PhpGraft.Proofs.Text

/-!
The lines of a documentation comment, read off its tags in one pass. Flags and scalars are all that a
value shows, so what holds none of them at any depth may be put in or left out anywhere.
-/
namespace PhpGraft

namespace TagValue

/-- What holds of a container when it holds of all that stands in it holds of every value. -/
@[elab_as_elim]
theorem inductionOn {P : TagValue → Prop} (v : TagValue) (suppressed : P suppressed) (flag : P flag)
    (scalar : ∀ t, P (scalar t)) (list : ∀ items, (∀ v ∈ items, P v) → P (list items))
    (nested : ∀ es : List (Text × TagValue), (∀ e ∈ es, P e.2) → P (nested es)) : P v :=
  @TagValue.rec P (fun items => ∀ v ∈ items, P v) (fun es => ∀ e ∈ es, P e.2) (fun e => P e.2)
    suppressed flag scalar list nested nofun (fun _ _ hv hvs => List.forall_mem_cons.2 ⟨hv, hvs⟩) nofun
    (fun _ _ he hes => List.forall_mem_cons.2 ⟨he, hes⟩) (fun _ _ hv => hv) v

/-! The passes over a container, item by item. -/

theorem visibleItems_eq (items : List TagValue) : visibleItems items = items.filterMap visible? := by
  induction items with
  | nil => rfl
  | cons v vs ih =>
    rw [visibleItems, ih, List.filterMap_cons]
    cases v.visible? <;> rfl

theorem visibleEntries_eq (es : List (Text × TagValue)) :
    visibleEntries es = es.filterMap fun e => e.2.visible?.map (e.1, ·) := by
  induction es with
  | nil => rfl
  | cons e es ih =>
    rw [visibleEntries, ih, List.filterMap_cons]
    cases e.2.visible? <;> rfl

theorem visible?_list (items : List TagValue) : (list items).visible? =
    if items.filterMap visible? = [] then none else some (list (items.filterMap visible?)) := by
  rw [visible?, visibleItems_eq]
  cases items.filterMap visible? <;> rfl

theorem visible?_nested (es : List (Text × TagValue)) : (nested es).visible? =
    if (es.filterMap fun e => e.2.visible?.map (e.1, ·)) = [] then none
    else some (nested (es.filterMap fun e => e.2.visible?.map (e.1, ·))) := by
  rw [visible?, visibleEntries_eq]
  cases es.filterMap fun e => e.2.visible?.map (e.1, ·) <;> rfl

/-! What a value shows. -/

/-- Holds a flag or a scalar, at whatever depth. -/
inductive Shows : TagValue → Prop
  | flag : Shows flag
  | scalar (text : Text) : Shows (scalar text)
  | item {v : TagValue} {items : List TagValue} : v ∈ items → Shows v → Shows (list items)
  | entry {e : Text × TagValue} {es : List (Text × TagValue)} : e ∈ es → Shows e.2 → Shows (nested es)

theorem shows_list {items : List TagValue} : (list items).Shows ↔ ∃ v ∈ items, v.Shows := by
  refine ⟨fun h => ?_, fun ⟨v, hv, h⟩ => .item hv h⟩
  cases h with
  | item hv h => exact ⟨_, hv, h⟩

theorem shows_nested {es : List (Text × TagValue)} : (nested es).Shows ↔ ∃ e ∈ es, e.2.Shows := by
  refine ⟨fun h => ?_, fun ⟨e, he, h⟩ => .entry he h⟩
  cases h with
  | entry he h => exact ⟨_, he, h⟩

theorem filterMap_ne_nil {α β : Type} {f : α → Option β} {l : List α} :
    l.filterMap f ≠ [] ↔ ∃ a ∈ l, (f a).isSome = true := by
  rw [Ne, List.filterMap_eq_nil_iff]
  simp [Option.isSome_iff_ne_none]

theorem isSome_visible? (v : TagValue) : v.visible?.isSome = true ↔ v.Shows := by
  induction v using inductionOn with
  | suppressed => exact iff_of_false nofun nofun
  | flag => exact iff_of_true rfl .flag
  | scalar t => exact iff_of_true rfl (.scalar t)
  | list items ih =>
    rw [visible?_list, Option.isSome_ite', ← Ne, filterMap_ne_nil, shows_list]
    exact exists_congr fun v => and_congr_right (ih v)
  | nested es ih =>
    rw [visible?_nested, Option.isSome_ite', ← Ne, filterMap_ne_nil, shows_nested]
    exact exists_congr fun e => and_congr_right fun he => by rw [Option.isSome_map, ih e he]

instance (v : TagValue) : Decidable v.Shows := decidable_of_iff _ v.isSome_visible?

/-! The scalars of a value. -/

mutual

/-- The scalars that stand in a value, from the first to the last, whatever they are nested in. -/
def scalars : TagValue → List Text
  | scalar t => [t]
  | list items => itemScalars items
  | nested es => entryScalars es
  | _ => []

def itemScalars : List TagValue → List Text
  | v :: vs => scalars v ++ itemScalars vs
  | [] => []

def entryScalars : List (Text × TagValue) → List Text
  | e :: es => scalars e.2 ++ entryScalars es
  | [] => []

end

mutual

theorem leaves_eq : (v : TagValue) → v.leaves = v.scalars
  | suppressed => rfl
  | flag => rfl
  | scalar _ => rfl
  | list items => leavesOfItems_eq items
  | nested es => leavesOfEntries_eq es

theorem leavesOfItems_eq : (items : List TagValue) → leavesOfItems items = itemScalars items
  | [] => rfl
  | v :: vs => congrArg₂ (· ++ ·) (leaves_eq v) (leavesOfItems_eq vs)

theorem leavesOfEntries_eq : (es : List (Text × TagValue)) → leavesOfEntries es = entryScalars es
  | [] => rfl
  | e :: es => congrArg₂ (· ++ ·) (leaves_eq e.2) (leavesOfEntries_eq es)

end

theorem scalars_list (items : List TagValue) : (list items).scalars = items.flatMap scalars := by
  rw [scalars]
  induction items with
  | nil => rfl
  | cons v vs ih => rw [itemScalars, ih, List.flatMap_cons]

theorem scalars_nested (es : List (Text × TagValue)) :
    (nested es).scalars = es.flatMap fun e => e.2.scalars := by
  rw [scalars]
  induction es with
  | nil => rfl
  | cons e es ih => rw [entryScalars, ih, List.flatMap_cons]

/-- What is left out holds no scalar. -/
theorem scalars_visible? (v : TagValue) : v.visible?.toList.flatMap scalars = v.scalars := by
  induction v using inductionOn with
  | suppressed => rfl
  | flag => rfl
  | scalar t => rfl
  | list items ih =>
    have hkept : (list items).visible?.toList.flatMap scalars =
        (items.filterMap visible?).flatMap scalars := by
      rw [visible?_list]
      split
      · rename_i h
        rw [h]
        rfl
      · exact (List.flatMap_singleton ..).trans (scalars_list _)
    rw [hkept, scalars_list, List.filterMap_eq_flatMap_toList, List.flatMap_assoc]
    exact List.flatMap_congr ih
  | nested es ih =>
    have hkept : (nested es).visible?.toList.flatMap scalars =
        (es.filterMap fun e => e.2.visible?.map (e.1, ·)).flatMap fun e => e.2.scalars := by
      rw [visible?_nested]
      split
      · rename_i h
        rw [h]
        rfl
      · exact (List.flatMap_singleton ..).trans (scalars_nested _)
    rw [hkept, scalars_nested, List.filterMap_eq_flatMap_toList, List.flatMap_assoc]
    refine List.flatMap_congr fun e he => ?_
    rw [← ih e he]
    cases e.2.visible? <;> rfl

/-! The lines in one pass. -/

/-- The scalars with a space between two of them. -/
def words (v : TagValue) : Text := [' '].intercalate v.scalars

/-- The line of an item that shows something. -/
def itemLine (tag : Text) : TagValue → Text
  | scalar text => '@' :: tag ++ ' ' :: text
  | v => '@' :: tag ++ if v.words = [] then [] else ' ' :: v.words

def tagLines (tag : Text) : TagValue → List Text
  | suppressed => []
  | flag => ['@' :: tag]
  | scalar text => ['@' :: tag ++ ' ' :: text]
  | list items => (items.filter fun v => v.Shows).map (itemLine tag)
  | nested es => (es.filter fun e => e.2.Shows).map fun e => e.2.itemLine tag

variable {tag : Text} {v w : TagValue}

theorem text_of_visible? (h : v.visible? = some w) : w.text = v.words := by
  have hscalars : w.scalars = v.scalars := by
    rw [← v.scalars_visible?, h]
    exact (List.flatMap_singleton ..).symm
  rw [text, words, Text.join, leaves_eq, hscalars]

theorem line_of_visible? (h : v.visible? = some w) : w.line tag = v.itemLine tag := by
  have htext := text_of_visible? h
  cases v with
  | suppressed => cases h
  | flag =>
    cases h
    exact (List.append_nil _).symm
  | scalar t =>
    cases h
    rfl
  | list items =>
    rw [visible?_list] at h
    split at h
    · cases h
    · cases h
      simp only [line, itemLine, htext]
      cases (list items).words <;> simp
  | nested es =>
    rw [visible?_nested] at h
    split at h
    · cases h
    · cases h
      simp only [line, itemLine, htext]
      cases (nested es).words <;> simp

/-- The values that are left, in order, are those that show something. -/
theorem filterMap_visible? {α β : Type} {v : α → TagValue} {f : α → TagValue → β} {g : α → β}
    (h : ∀ a w, (v a).visible? = some w → f a w = g a) (l : List α) :
    (l.filterMap fun a => (v a).visible?.map (f a)) = (l.filter fun a => (v a).Shows).map g := by
  induction l with
  | nil => rfl
  | cons a l ih =>
    rw [List.filterMap_cons, List.filter_cons, ih]
    cases hv : (v a).visible? with
    | none =>
      have hno : ¬(v a).Shows := by
        rw [← isSome_visible?, hv]
        nofun
      simp [hno]
    | some w =>
      have hshows : (v a).Shows := by
        rw [← isSome_visible?, hv]
        rfl
      simp [hshows, h a w hv]

theorem lines_of_visible? (h : v.visible? = some w) : w.lines tag = v.tagLines tag := by
  cases v with
  | suppressed => cases h
  | flag =>
    cases h
    rfl
  | scalar t =>
    cases h
    rfl
  | list items =>
    rw [visible?_list] at h
    split at h
    · cases h
    · cases h
      rw [lines, tagLines, List.map_filterMap]
      exact filterMap_visible? (fun _ _ => line_of_visible?) items
  | nested es =>
    rw [visible?_nested] at h
    split at h
    · cases h
    · cases h
      rw [lines, tagLines, List.map_filterMap]
      simp only [Option.map_map]
      exact filterMap_visible? (fun _ _ => line_of_visible?) es

theorem tagLines_ne_nil (h : v.Shows) : v.tagLines tag ≠ [] := by
  cases h with
  | flag => exact List.cons_ne_nil _ _
  | scalar => exact List.cons_ne_nil _ _
  | item hv h => exact List.ne_nil_of_mem (List.mem_map_of_mem (List.mem_filter.2 ⟨hv, by simpa using h⟩))
  | entry he h => exact List.ne_nil_of_mem (List.mem_map_of_mem (List.mem_filter.2 ⟨he, by simpa using h⟩))

/-! Putting in what shows nothing. -/

/-- At some place inside of the first value, a value that shows nothing is put in. -/
inductive Pads : TagValue → TagValue → Prop
  | item {v : TagValue} (as bs : List TagValue) : ¬v.Shows → Pads (list (as ++ bs)) (list (as ++ v :: bs))
  | entry {e : Text × TagValue} (as bs : List (Text × TagValue)) :
    ¬e.2.Shows → Pads (nested (as ++ bs)) (nested (as ++ e :: bs))
  | inItem {v w : TagValue} (as bs : List TagValue) :
    Pads v w → Pads (list (as ++ v :: bs)) (list (as ++ w :: bs))
  | inEntry {v w : TagValue} (key : Text) (as bs : List (Text × TagValue)) :
    Pads v w → Pads (nested (as ++ (key, v) :: bs)) (nested (as ++ (key, w) :: bs))

theorem scalars_of_not_shows (h : ¬v.Shows) : v.scalars = [] := by
  have hnone : v.visible? = none := by
    rwa [← isSome_visible?, Option.not_isSome_iff_eq_none] at h
  rw [← v.scalars_visible?, hnone]
  rfl

theorem Pads.scalars_eq (h : Pads v w) : v.scalars = w.scalars := by
  induction h with
  | item as bs h => simp [scalars_list, scalars_of_not_shows h]
  | entry as bs h => simp [scalars_nested, scalars_of_not_shows h]
  | inItem as bs _ ih => simp [scalars_list, ih]
  | inEntry key as bs _ ih => simp [scalars_nested, ih]

theorem Pads.shows_iff (h : Pads v w) : v.Shows ↔ w.Shows := by
  induction h with
  | item as bs h => simp [shows_list, or_and_right, exists_or, h]
  | entry as bs h => simp [shows_nested, or_and_right, exists_or, h]
  | inItem as bs _ ih => simp [shows_list, or_and_right, exists_or, ih]
  | inEntry key as bs _ ih => simp [shows_nested, or_and_right, exists_or, ih]

theorem Pads.itemLine_eq (h : Pads v w) : v.itemLine tag = w.itemLine tag := by
  have hwords : v.words = w.words := congrArg (List.intercalate [' ']) h.scalars_eq
  cases h <;> simp only [itemLine, hwords]

theorem Pads.tagLines_eq (h : Pads v w) : v.tagLines tag = w.tagLines tag := by
  cases h with
  | item as bs h => simp [tagLines, h]
  | entry as bs h => simp [tagLines, h]
  | inItem as bs h => simp [tagLines, List.filter_cons, h.shows_iff, apply_ite, h.itemLine_eq]
  | inEntry key as bs h => simp [tagLines, List.filter_cons, h.shows_iff, apply_ite, h.itemLine_eq]

end TagValue

namespace DocBlock

/-- The groups of lines: the text slots that say something and the tags that show something. -/
def outline (d : DocBlock) : List (List Text) :=
  ((d.message?.toList ++ d.description?.toList).filter (· ≠ [])).map ([·]) ++
    (d.tags.filter fun e => e.2.Shows).map fun e => e.2.tagLines e.1

/-- The lines between the first and the last: the groups with a bare line between two of them, or else
a bare line alone. -/
def page (gs : List (List Text)) : List Text :=
  if gs = [] then [" *"] else [(" *" : Text)].intercalate (gs.map (List.map (" * " ++ ·)))

/-- A tag that shows nothing is put in, or something that shows nothing inside of a tag. -/
inductive Pads : DocBlock → DocBlock → Prop
  | tag {e : Text × TagValue} (message? description? : Option Text) (as bs : Entries TagValue) :
    ¬e.2.Shows → Pads ⟨message?, description?, as ++ bs⟩ ⟨message?, description?, as ++ e :: bs⟩
  | inTag {v w : TagValue} (message? description? : Option Text) (key : Text) (as bs : Entries TagValue) :
    v.Pads w → Pads ⟨message?, description?, as ++ (key, v) :: bs⟩
      ⟨message?, description?, as ++ (key, w) :: bs⟩

variable {d d' : DocBlock}

theorem ne_nil_of_mem_outline {g : List Text} (h : g ∈ d.outline) : g ≠ [] := by
  rcases List.mem_append.1 h with h | h
  · obtain ⟨t, -, rfl⟩ := List.mem_map.1 h
    exact List.cons_ne_nil _ _
  · obtain ⟨e, he, rfl⟩ := List.mem_map.1 h
    exact TagValue.tagLines_ne_nil (by simpa using (List.mem_filter.1 he).2)

theorem groups_eq (d : DocBlock) : d.groups = d.outline := by
  have hslots : ∀ m? : Option Text, (m?.bind fun t => if t.isEmpty then none else some [t]).toList =
      (m?.toList.filter (· ≠ [])).map ([·]) := by
    intro m?
    rcases m? with - | - | ⟨c, t⟩ <;> rfl
  have htags : (d.tags.filterMap fun e => e.2.visible?.map (·.lines e.1)) =
      (d.tags.filter fun e => e.2.Shows).map fun e => e.2.tagLines e.1 :=
    TagValue.filterMap_visible? (v := Prod.snd) (f := fun e w => w.lines e.1)
      (g := fun e => e.2.tagLines e.1) (fun _ _ => TagValue.lines_of_visible?) d.tags
  have hnone : ∀ g ∈ (d.tags.filter fun e => e.2.Shows).map fun e => e.2.tagLines e.1,
      (!g.isEmpty) = true := by
    intro g hg
    have := ne_nil_of_mem_outline (List.mem_append_right _ hg)
    simpa using this
  rw [groups, htags, List.filter_eq_self.2 hnone, outline, List.filter_append, List.map_append,
    ← hslots, ← hslots, List.filterMap_eq_flatMap_toList]
  simp

theorem page_cons (g : List Text) (gs : List (List Text)) : page (g :: gs) =
    g.map (" * ".toList ++ ·) ++ gs.flatMap fun g => " *".toList :: g.map (" * ".toList ++ ·) := by
  rw [page, if_neg (List.cons_ne_nil _ _), List.map_cons, Text.intercalate_cons, List.flatMap_map]
  rfl

/-- The comment is a page of lines. -/
theorem render_page (d : DocBlock) :
    d.render = Text.join ['\n'] ("/**".toList :: (page d.outline ++ [" */".toList])) := by
  have hlines : ∀ g ∈ d.outline, (g.map (" * ".toList ++ ·)).flatMap (['\n'] ++ ·) =
      ['\n'] ++ Text.join ['\n'] (g.map (" * ".toList ++ ·)) :=
    fun g hg => Text.flatMap_join (mt List.map_eq_nil_iff.1 (ne_nil_of_mem_outline hg))
  rw [render, groups_eq]
  cases hgs : d.outline with
  | nil => rfl
  | cons g gs =>
    rw [hgs] at hlines
    obtain ⟨hg, hgs⟩ := List.forall_mem_cons.1 hlines
    have hrest : (gs.flatMap fun g => " *".toList :: g.map (" * ".toList ++ ·)).flatMap (['\n'] ++ ·) =
        gs.flatMap fun g => "\n *\n".toList ++ Text.join ['\n'] (g.map (" * ".toList ++ ·)) := by
      rw [List.flatMap_assoc]
      refine List.flatMap_congr fun g hg => ?_
      rw [List.flatMap_cons, hgs g hg]
      rfl
    change "/**\n".toList ++ Text.join "\n *\n".toList
      ((g :: gs).map fun ls => Text.join ['\n'] (ls.map (" * ".toList ++ ·))) ++ "\n */".toList = _
    rw [List.map_cons, Text.join_cons, List.flatMap_map, Text.join_cons, List.flatMap_append, page_cons,
      List.flatMap_append, hg, hrest]
    simp

theorem Pads.outline_eq (h : Pads d d') : d.outline = d'.outline := by
  cases h with
  | tag message? description? as bs h => simp [outline, h]
  | inTag message? description? key as bs h =>
    simp [outline, List.filter_cons, h.shows_iff, apply_ite, h.tagLines_eq]

/-- The comment is written in one pass over its texts and tags, and nothing that shows nothing makes a
difference to it. -/
theorem render_outline (d : DocBlock) :
    d.render = Text.join ['\n'] ("/**".toList :: (page d.outline ++ [" */".toList])) ∧
      ∀ d', Relation.EqvGen Pads d d' → d'.render = d.render := by
  refine ⟨d.render_page, fun d' h => ?_⟩
  have houtline : d.outline = d'.outline := by
    induction h with
    | rel _ _ h => exact h.outline_eq
    | refl => rfl
    | symm _ _ _ ih => exact ih.symm
    | trans _ _ _ _ _ ihl ihr => exact ihl.trans ihr
  rw [render_page, render_page, houtline]

/-- Containers with scalars at two depths, one with a flag alone, one with an empty scalar; what shows
nothing is put in between them and behind them. -/
theorem render_outline_nested :
    let kept : List TagValue := [.nested [("k", .scalar "x"), ("l", .list [.flag, .scalar "y z"])],
      .list [.flag], .nested [("m", .scalar "")]]
    let shown : TagValue := .nested [("p", .list [.scalar "u", .list [.scalar "v"]])]
    let hidden : List TagValue := .list [.suppressed] :: kept
    let d : DocBlock := ⟨some "M", none, [("a", .list kept), ("c", shown)]⟩
    let d' : DocBlock := ⟨some "M", none, [("a", .list hidden), ("b", .suppressed), ("c", shown)]⟩
    let groups : List (List Text) := [["M"], ["@a x y z", "@a", "@a"], ["@c u v"]]
    Relation.EqvGen Pads d d' ∧ d.outline = groups ∧
      d'.render = "/**\n * M\n *\n * @a x y z\n * @a\n * @a\n *\n * @c u v\n */".toList := by
  intro kept shown hidden d d' groups
  have hitem : TagValue.Pads (.list kept) (.list hidden) := .item [] kept (by decide)
  have htag : Pads ⟨some "M", none, [("a", .list hidden), ("c", shown)]⟩ d' :=
    .tag (some "M") none [("a", .list hidden)] [("c", shown)] (e := ("b", .suppressed)) (by decide)
  have hpads : Relation.EqvGen Pads d d' :=
    .trans _ _ _ (.rel _ _ (.inTag (some "M") none "a" [] [("c", shown)] hitem)) (.rel _ _ htag)
  exact ⟨hpads, by decide, ((render_outline d).2 d' hpads).trans (by decide)⟩

end DocBlock
end PhpGraft
