import PhpGraft.Text

/-!
Key-value lists in which a key that is set again keeps its place.
-/
namespace PhpGraft

abbrev Entries (α : Type) := List (Text × α)

namespace Entries

variable {α β : Type}

def keys (es : Entries α) : List Text := es.map Prod.fst

def get? (es : Entries α) (key : Text) : Option α := es.lookup key

def insert (es : Entries α) (key : Text) (value : α) : Entries α :=
  match es with
  | [] => [(key, value)]
  | e :: es => if e.1 = key then (key, value) :: es else e :: insert es key value

def erase (es : Entries α) (key : Text) : Entries α := es.filter (·.1 ≠ key)

/-- Set in order, so that the last value of a key counts. -/
def ofList (es : List (Text × α)) : Entries α := es.foldl (fun m e => insert m e.1 e.2) []

theorem keys_insert (es : Entries α) (key : Text) (value : α) :
    (es.insert key value).keys = if key ∈ es.keys then es.keys else es.keys ++ [key] := by
  induction es with
  | nil => simp [insert, keys]
  | cons e es ih =>
    simp only [keys] at ih
    by_cases h : e.1 = key
    · simp [insert, keys, h]
    · have h' : ¬key = e.1 := fun k => h k.symm
      by_cases hm : key ∈ es.map Prod.fst <;> simp [insert, keys, h, h', ih, hm]

end Entries
end PhpGraft
