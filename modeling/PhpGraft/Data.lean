import PhpGraft.Entries
import PhpGraft.Data.Number

/-!
Self-describing data, as it is read from configuration and batch files. The keys of tables are
texts where nothing else is said.
-/
namespace PhpGraft

inductive Data (κ : Type) where
  | null
  | bool (value : Bool)
  | number (value : Number)
  | text (value : Text)
  | list (items : List (Data κ))
  /-- Entries in the order of the file; keys may repeat. -/
  | table (entries : List (κ × Data κ))

namespace Data

variable {κ μ : Type}

def text? : Data κ → Option Text
  | text t => some t
  | _ => none

def bool? : Data κ → Option Bool
  | bool b => some b
  | _ => none

def list? : Data κ → Option (List (Data κ))
  | list items => some items
  | _ => none

def table? : Data κ → Option (List (κ × Data κ))
  | table es => some es
  | _ => none

def isNull : Data κ → Bool
  | null => true
  | _ => false

/-- A list or table with nothing in it. -/
def isEmpty : Data κ → Bool
  | list [] => true
  | table [] => true
  | _ => false

mutual

/-- The same data with other keys, if there is one for every key. -/
def mapKeys? (f : κ → Option μ) : Data κ → Option (Data μ)
  | null => some null
  | bool b => some (bool b)
  | number n => some (number n)
  | text t => some (text t)
  | list items => (mapItemKeys? f items).map list
  | table es => (mapEntryKeys? f es).map table

def mapItemKeys? (f : κ → Option μ) : List (Data κ) → Option (List (Data μ))
  | [] => some []
  | d :: ds =>
    match mapKeys? f d, mapItemKeys? f ds with
    | some d, some ds => some (d :: ds)
    | _, _ => none

def mapEntryKeys? (f : κ → Option μ) : List (κ × Data κ) → Option (List (μ × Data μ))
  | [] => some []
  | (key, d) :: es =>
    match f key, mapKeys? f d, mapEntryKeys? f es with
    | some key, some d, some es => some ((key, d) :: es)
    | _, _, _ => none

end

mutual

/-- Every table with each key once, in its first place and with its last value. -/
def distinct : Data Text → Data Text
  | list items => list (distinctItems items)
  | table es => table (Entries.ofList (distinctEntries es))
  | d => d

def distinctItems : List (Data Text) → List (Data Text)
  | [] => []
  | d :: ds => distinct d :: distinctItems ds

def distinctEntries : List (Text × Data Text) → List (Text × Data Text)
  | [] => []
  | (key, d) :: es => (key, distinct d) :: distinctEntries es

end

end Data

/-! Records are given as tables, or as lists of their fields in order. -/

/-- The values of the named fields of a record; none if a field repeats. -/
def fieldsNamed? {α : Type} (names : List Text) (es : List (Text × α)) :
    Option (List (Option α)) :=
  if names.all fun n => (es.filter (·.1 == n)).length ≤ 1 then
    some (names.map fun n => es.lookup n)
  else none

/-- The values of so many fields in order, of which the last may be missing. -/
def fieldsInOrder? {α : Type} (count : Nat) (items : List α) : Option (List (Option α)) :=
  if items.length ≤ count then some (items.map some ++ List.replicate (count - items.length) none)
  else none

def Data.fields? (names : List Text) : Data Text → Option (List (Option (Data Text)))
  | table es => fieldsNamed? names es
  | list items => fieldsInOrder? names.length items
  | _ => none

/-- What a key says about the field that it stands for. -/
inductive FieldKey where
  | name (text : Text)
  /-- A whole number says the place of the field, from 0 on. -/
  | place (index : Nat)
  | unnamed
  deriving DecidableEq, Repr

namespace FieldKey

def text? : FieldKey → Option Text
  | name t => some t
  | _ => none

/-- Entries by the names of their fields, without those that have no field. -/
def resolve? {α : Type} (names : List Text) : List (FieldKey × α) → Option (List (Text × α))
  | [] => some []
  | (name t, v) :: es => (resolve? names es).map ((t, v) :: ·)
  | (place i, v) :: es =>
    let found := (names[i]?).map (·, v)
    (resolve? names es).map (found.toList ++ ·)
  | (unnamed, _) :: _ => none

end FieldKey

def Data.fieldsByKey? (names : List Text) : Data FieldKey → Option (List (Option (Data FieldKey)))
  | table es => (FieldKey.resolve? names es).bind (fieldsNamed? names)
  | list items => fieldsInOrder? names.length items
  | _ => none

end PhpGraft
