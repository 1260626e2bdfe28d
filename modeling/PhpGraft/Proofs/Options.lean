import Mathlib.Data.List.Nodup
import PhpGraft.Operation.Decode

/-!
Documentation as one table of options. The table and the block say the same as long as no tag has the
name of a text slot, and no block that is read from a table has such a tag.
-/
namespace PhpGraft

namespace Entries

variable {α : Type} {es : Entries α} {key : Text} {v : α}

theorem nodup_insert (h : es.keys.Nodup) : (es.insert key v).keys.Nodup := by
  rw [keys_insert]
  split
  · exact h
  · rename_i hkey
    refine List.nodup_append.2 ⟨h, List.nodup_singleton key, fun k hk l hl hkl => hkey ?_⟩
    rwa [← List.mem_singleton.1 hl, ← hkl]

theorem insert_of_not_mem (h : key ∉ es.keys) : es.insert key v = es ++ [(key, v)] := by
  induction es with
  | nil => rfl
  | cons e es ih =>
    obtain ⟨he, hes⟩ := not_or.1 (mt List.mem_cons.2 h)
    rw [insert, if_neg (Ne.symm he), ih hes]
    rfl

theorem nodup_foldl_insert (ls : List (Text × α)) (h : es.keys.Nodup) :
    (keys (ls.foldl (fun m e => insert m e.1 e.2) es)).Nodup := by
  induction ls generalizing es with
  | nil => exact h
  | cons e ls ih => exact ih (nodup_insert h)

theorem nodup_ofList (ls : List (Text × α)) : (ofList ls).keys.Nodup :=
  nodup_foldl_insert ls List.nodup_nil

theorem foldl_insert (ls : List (Text × α)) (h : (keys (es ++ ls)).Nodup) :
    ls.foldl (fun m e => insert m e.1 e.2) es = es ++ ls := by
  induction ls generalizing es with
  | nil => exact (List.append_nil es).symm
  | cons e ls ih =>
    have hkey : e.1 ∉ es.keys := by
      rw [keys, List.map_append, List.map_cons] at h
      exact fun hmem => List.disjoint_of_nodup_append h hmem List.mem_cons_self
    rw [List.foldl_cons, insert_of_not_mem hkey, ih (by rwa [List.append_assoc]), List.append_assoc]
    rfl

/-- Entries of which no key repeats are set one behind the other. -/
theorem ofList_eq_self (h : es.keys.Nodup) : ofList es = es := foldl_insert es h

theorem nodup_erase (h : es.keys.Nodup) : (es.erase key).keys.Nodup :=
  h.sublist (List.filter_sublist.map _)

theorem mem_keys_erase {k : Text} : k ∈ (es.erase key).keys ↔ k ∈ es.keys ∧ k ≠ key := by
  simp only [keys, erase, List.mem_map, List.mem_filter, decide_eq_true_eq]
  constructor
  · rintro ⟨e, ⟨he, hne⟩, rfl⟩
    exact ⟨⟨e, he, rfl⟩, hne⟩
  · rintro ⟨⟨e, he, rfl⟩, hne⟩
    exact ⟨e, ⟨he, hne⟩, rfl⟩

theorem erase_of_not_mem (h : key ∉ es.keys) : es.erase key = es := by
  refine List.filter_eq_self.2 fun e he => decide_eq_true fun hkey => h ?_
  exact hkey ▸ List.mem_map_of_mem he

theorem erase_append (es fs : Entries α) (key : Text) :
    Entries.erase (es ++ fs) key = es.erase key ++ fs.erase key := List.filter_append ..

theorem get?_of_not_mem (h : key ∉ es.keys) : es.get? key = none := by
  refine List.lookup_eq_none_iff.2 fun e he => ?_
  rw [bne_iff_ne]
  rintro rfl
  exact h (List.mem_map_of_mem he)

theorem get?_append (es fs : Entries α) (key : Text) :
    Entries.get? (es ++ fs) key = (es.get? key).or (fs.get? key) := List.lookup_append

end Entries

namespace DocBlock

variable {d : DocBlock}

/-- No tag has the name of a text slot. -/
def Plain (d : DocBlock) : Prop := messageKey ∉ d.tags.keys ∧ descriptionKey ∉ d.tags.keys

instance : Decidable d.Plain := inferInstanceAs (Decidable (_ ∧ _))

theorem plain_ofEntries (es : Entries TagValue) : (ofEntries es).Plain := by
  constructor
  · intro h
    exact (Entries.mem_keys_erase.1 (Entries.mem_keys_erase.1 h).1).2 rfl
  · intro h
    exact (Entries.mem_keys_erase.1 h).2 rfl

/-- A text slot in the table. -/
def slotEntry (key : Text) (t? : Option Text) : Entries TagValue :=
  (t?.map fun t => (key, TagValue.scalar t)).toList

section

variable {key : Text} {t? : Option Text}

theorem eq_of_mem_slotEntry {k : Text} (h : k ∈ (slotEntry key t?).keys) : k = key := by
  cases t? with
  | none => cases h
  | some t => exact List.mem_singleton.1 h

theorem nodup_slotEntry : (slotEntry key t?).keys.Nodup := by
  cases t? with
  | none => exact List.nodup_nil
  | some t => exact List.nodup_singleton key

theorem erase_slotEntry : (slotEntry key t?).erase key = [] := by
  cases t? <;> simp [slotEntry, Entries.erase]

theorem get?_slotEntry : ((slotEntry key t?).get? key).bind TagValue.slot? = t? := by
  cases t? <;> simp [slotEntry, Entries.get?, TagValue.slot?]

end

/-- In the table of a plain block no key is set again. -/
theorem toEntries_eq (hp : d.Plain) (hn : d.tags.keys.Nodup) : d.toEntries =
    slotEntry messageKey d.message? ++ (slotEntry descriptionKey d.description? ++ d.tags) := by
  have hnodup : (Entries.keys (slotEntry messageKey d.message? ++
      (slotEntry descriptionKey d.description? ++ d.tags))).Nodup := by
    rw [Entries.keys, List.map_append, List.map_append]
    refine List.nodup_append.2 ⟨nodup_slotEntry, List.nodup_append.2 ⟨nodup_slotEntry, hn, ?_⟩, ?_⟩
    · rintro k hk l hl rfl
      exact hp.2 (eq_of_mem_slotEntry hk ▸ hl)
    · rintro k hk l hl rfl
      obtain rfl := eq_of_mem_slotEntry hk
      rcases List.mem_append.1 hl with hl | hl
      · exact absurd (eq_of_mem_slotEntry hl) (by decide)
      · exact hp.1 hl
  exact (congrArg Entries.ofList (List.append_assoc ..)).trans (Entries.ofList_eq_self hnodup)

theorem ofEntries_toEntries (hp : d.Plain) (hn : d.tags.keys.Nodup) : ofEntries d.toEntries = d := by
  have hm : messageKey ∉ (slotEntry descriptionKey d.description?).keys := fun h =>
    absurd (eq_of_mem_slotEntry h) (by decide)
  have hd : descriptionKey ∉ (slotEntry messageKey d.message?).keys := fun h =>
    absurd (eq_of_mem_slotEntry h) (by decide)
  rw [toEntries_eq hp hn, ofEntries]
  congr 1
  · rw [Entries.get?_append, Entries.get?_append, Entries.get?_of_not_mem hm, Entries.get?_of_not_mem hp.1,
      Option.none_or, Option.or_none, get?_slotEntry]
  · rw [Entries.get?_append, Entries.get?_append, Entries.get?_of_not_mem hd, Entries.get?_of_not_mem hp.2,
      Option.none_or, Option.or_none, get?_slotEntry]
  · rw [Entries.erase_append, erase_slotEntry, List.nil_append, Entries.erase_append,
      Entries.erase_of_not_mem hm, Entries.erase_of_not_mem hp.1, Entries.erase_append,
      erase_slotEntry, Entries.erase_of_not_mem hp.2, List.nil_append]

/-- What can be made of a new block, of texts or of a table of options by writing its texts and tags. -/
inductive Built : DocBlock → Prop
  | new : Built {}
  | withText (message description : Text) : Built (.withText message description)
  | ofEntries {es : Entries TagValue} : es.keys.Nodup → Built (.ofEntries es)
  | set {d : DocBlock} (key : Text) (v : TagValue) : Built d → Built (d.set key v)
  | setMessage {d : DocBlock} (t : Text) : Built d → Built (d.setMessage t)
  | setDescription {d : DocBlock} (t : Text) : Built d → Built (d.setDescription t)
  | setTag {d : DocBlock} (tag : Text) (v : TagValue) : Built d → Built (d.setTag tag v)
  | removeTag {d : DocBlock} (tag : Text) : Built d → Built (d.removeTag tag)

theorem nodup_ofEntries {es : Entries TagValue} (h : es.keys.Nodup) : (ofEntries es).tags.keys.Nodup :=
  Entries.nodup_erase (Entries.nodup_erase h)

theorem nodup_set {key : Text} {v : TagValue} (h : d.tags.keys.Nodup) : (d.set key v).tags.keys.Nodup := by
  rw [set]
  split
  · exact h
  split
  · exact h
  · exact Entries.nodup_insert h

theorem Built.nodup (h : d.Built) : d.tags.keys.Nodup := by
  induction h with
  | new => exact List.nodup_nil
  | withText => exact List.nodup_nil
  | ofEntries h => exact nodup_ofEntries h
  | set _ _ _ ih => exact nodup_set ih
  | setMessage _ _ ih => exact ih
  | setDescription _ _ ih => exact ih
  | setTag _ _ _ ih => exact Entries.nodup_insert ih
  | removeTag _ _ ih => exact Entries.nodup_erase ih

/-- A block that comes from a table comes back from its own. -/
theorem ofEntries_toEntries_ofEntries {es : Entries TagValue} (h : es.keys.Nodup) :
    ofEntries (ofEntries es).toEntries = ofEntries es :=
  ofEntries_toEntries (plain_ofEntries es) (nodup_ofEntries h)

theorem ofEntries_toEntries_iff (h : d.Built) : ofEntries d.toEntries = d ↔ d.Plain := by
  constructor
  · intro heq
    exact heq ▸ plain_ofEntries d.toEntries
  · intro hp
    exact ofEntries_toEntries hp h.nodup

/-- The blocks that a table of data says, as a whole or within an operation, or a document. -/
inductive Decoded : DocBlock → Prop
  | data {x : Data Text} {d : DocBlock} : ofData? x = some d → Decoded d
  | content {x : Data FieldKey} {d : DocBlock} : ofContent? x = some d → Decoded d
  | yaml {y : Yaml.Document} {d : DocBlock} : ofYaml? y = some d → Decoded d

theorem exists_ofEntries {x : Data Text} (h : ofData? x = some d) :
    ∃ es : Entries TagValue, es.keys.Nodup ∧ d = ofEntries es := by
  cases x with
  | table es => exact ⟨_, Entries.nodup_ofList _, (Option.some.inj h).symm⟩
  | _ => cases h

theorem Decoded.exists_ofEntries (h : d.Decoded) :
    ∃ es : Entries TagValue, es.keys.Nodup ∧ d = DocBlock.ofEntries es := by
  cases h with
  | data h => exact DocBlock.exists_ofEntries h
  | content h =>
    obtain ⟨x, -, hx⟩ := Option.bind_eq_some_iff.1 h
    exact DocBlock.exists_ofEntries hx
  | yaml h =>
    obtain ⟨es, -, hes⟩ := Option.bind_eq_some_iff.1 h
    exact DocBlock.exists_ofEntries hes

/-- Going through its table gives a block back exactly if no tag has the name of a text slot. A block
that was read from a table has none, so that it comes back, and a table that went through a block
goes through it again unchanged. -/
theorem table_form :
    (∀ d : DocBlock, d.Built → ((ofEntries d.toEntries = d ∧
      (ofEntries d.toEntries).render = d.render) ↔ d.Plain)) ∧
    (∀ es : Entries TagValue, (ofEntries es).Plain) ∧
    (∀ d : DocBlock, d.Decoded → ofEntries d.toEntries = d) ∧
    ∀ es : Entries TagValue, es.keys.Nodup →
      (ofEntries (ofEntries es).toEntries).toEntries = (ofEntries es).toEntries := by
  refine ⟨fun d h => ?_, plain_ofEntries, fun d h => ?_, fun es h => ?_⟩
  · rw [← ofEntries_toEntries_iff h]
    exact ⟨And.left, fun heq => ⟨heq, congrArg render heq⟩⟩
  · obtain ⟨es, hes, rfl⟩ := h.exists_ofEntries
    exact ofEntries_toEntries_ofEntries hes
  · rw [ofEntries_toEntries_ofEntries h]

/-- A tag that is named like a text slot goes into the slot, and what stood there is lost. -/
theorem table_form_message :
    let d := (((withText "m" "n").setTag "var" .flag).setTag "see" (.scalar "f")).removeTag "var"
    let e := (d.set descriptionKey (.list [.scalar "a", .flag])).setTag messageKey .flag
    let x : Data Text := .table [(messageKey, .list [.text "a", .null]), ("var", .bool true)]
    let y : Yaml.Document :=
      { root := .table {} [(.scalar {} messageKey true, .scalar {} "m" true)], anchors := [], events := 4 }
    let es : Entries TagValue := [("var", .flag), (messageKey, .list [.scalar "a", .suppressed])]
    (d.Built ∧ d.Plain ∧ ofEntries d.toEntries = d) ∧ (e.Built ∧ ¬e.Plain ∧ ofEntries e.toEntries ≠ e) ∧
    (∃ b, ofData? x = some b ∧ ofEntries b.toEntries = b) ∧
    (∃ b, ofYaml? y = some b ∧ ofEntries b.toEntries = b) ∧
    es.keys.Nodup ∧ (ofEntries (ofEntries es).toEntries).toEntries = (ofEntries es).toEntries ∧
    (ofEntries es).toEntries.keys = [messageKey, "var"] := by
  intro d e x y es
  have hd : d.Built :=
    (((Built.withText "m" "n").setTag "var" .flag).setTag "see" (.scalar "f")).removeTag "var"
  have he : e.Built := (hd.set descriptionKey (.list [.scalar "a", .flag])).setTag messageKey .flag
  have hdp : d.Plain := by decide
  have hep : ¬e.Plain := by decide
  have hx : ofData? x =
      some (.ofEntries [(messageKey, .list [.scalar "a", .suppressed]), ("var", .flag)]) := rfl
  have hy : ofYaml? y = some (.ofEntries [(messageKey, .scalar "m")]) := rfl
  have hes : es.keys.Nodup := by decide
  obtain ⟨hbuilt, -, hdecoded, htwice⟩ := table_form
  refine ⟨⟨hd, hdp, ((hbuilt d hd).2 hdp).1⟩, ⟨he, hep, fun h => hep ?_⟩,
    ⟨_, hx, hdecoded _ (.data hx)⟩, ⟨_, hy, hdecoded _ (.yaml hy)⟩, hes, htwice es hes, by decide⟩
  exact (hbuilt e he).1 ⟨h, congrArg render h⟩

end DocBlock
end PhpGraft
