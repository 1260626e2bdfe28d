import PhpGraft.Data.Yaml
import PhpGraft.DocBlock

/-!
Documentation comments as data: one table with the keys `message` and `description` and the tags.
-/
namespace PhpGraft

namespace TagValue

mutual

def ofData : Data Text → TagValue
  | .null => suppressed
  | .bool b => ofBool b
  | .number n => scalar n.text
  | .text t => scalar t
  | .list items => list (ofItems items)
  | .table es => nested (Entries.ofList (ofEntries es))

def ofItems : List (Data Text) → List TagValue
  | [] => []
  | d :: ds => ofData d :: ofItems ds

def ofEntries : List (Text × Data Text) → List (Text × TagValue)
  | [] => []
  | (key, d) :: es => (key, ofData d) :: ofEntries es

end

mutual

def toData : TagValue → Data Text
  | suppressed => .bool false
  | flag => .bool true
  | scalar t => .text t
  | list items => .list (toItems items)
  | nested es => .table (toEntries es)

def toItems : List TagValue → List (Data Text)
  | [] => []
  | v :: vs => toData v :: toItems vs

def toEntries : List (Text × TagValue) → List (Text × Data Text)
  | [] => []
  | (key, v) :: es => (key, toData v) :: toEntries es

end
end TagValue

namespace DocBlock

def ofData? : Data Text → Option DocBlock
  | .table es => some (.ofEntries (Entries.ofList (TagValue.ofEntries es)))
  | _ => none

/-- An empty document says an empty block. -/
def ofYaml? (d : Yaml.Document) : Option DocBlock := do
  let es ← d.run? do
    (← d.entries d.root).mapM fun e =>
      return (← d.text e.1, ← d.plainData (Yaml.maxDepth - 1) e.2)
  ofData? (.table es)

def toData (d : DocBlock) : Data Text := .table (TagValue.toEntries d.toEntries)

end DocBlock
end PhpGraft
