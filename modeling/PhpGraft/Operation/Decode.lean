import PhpGraft.Data.Json
import PhpGraft.Data.Yaml
import PhpGraft.DocBlock.Data
import PhpGraft.Operation
import PhpGraft.Path

/-!
Operations and batch files as data. A batch file is YAML if its name says so, and else JSON or, if
it is none, YAML.
-/
namespace PhpGraft

/-- A word, or a table from the word or the place of it to nothing. -/
def Visibility.ofContent? : Data FieldKey → Option Visibility
  | .text t => ofWord? t
  | .table [(key, .null)] => ofKey? key
  | .table [(key, .table [])] => ofKey? key
  | _ => none
where
  ofKey? : FieldKey → Option Visibility
    | .name t => ofWord? t
    | .place i => [pub, prot, priv][i]?
    | .unnamed => none

def DocBlock.ofContent? (d : Data FieldKey) : Option DocBlock :=
  (d.mapKeys? FieldKey.text?).bind ofData?

def NewMethod.ofContent? (d : Data FieldKey) : Option NewMethod := do
  match ← d.fieldsByKey? ["name", "visibility", "body", "doc"] with
  | [some name, visibility?, body?, doc?] =>
    return {
      name := ← name.text?
      visibility := ← (visibility?.map Visibility.ofContent?).getD (some .pub)
      body := ← (body?.map Data.text?).getD (some [])
      doc := ← (doc?.map DocBlock.ofContent?).getD (some {}) }
  | _ => none

def namesOfContent? (d : Data FieldKey) : Option (List Text) := do
  match ← d.fieldsByKey? ["names"] with
  | [some names] => (← names.list?).mapM Data.text?
  | _ => none

namespace Operation

def ofTyped? (type : Text) (d : Data FieldKey) : Option Operation :=
  if type = "AddMethod" then (NewMethod.ofContent? d).map addMethod
  else if type = "AddUse" then (namesOfContent? d).map addImports
  else none

def typeKey : FieldKey := .name "type"

/-- The entry `type`, or the first item of a list, says what the other fields are. -/
def ofContent? : Data FieldKey → Option Operation
  | .table es =>
    match es.filter (·.1 == typeKey) with
    | [(_, .text type)] => ofTyped? type (.table (es.filter (·.1 != typeKey)))
    | _ => none
  | .list (.text type :: fields) => ofTyped? type (.list fields)
  | _ => none

def ofData? (d : Data Text) : Option Operation :=
  (d.mapKeys? fun key => some (.name key)).bind ofContent?

/-- The type of an operation is a scalar as it is spelled; the rest is read as data. -/
def ofYaml (d : Yaml.Document) (depth : Nat) (y : Yaml) : Yaml.Reader Operation := do
  match ← d.follow y, depth with
  | .list p (type :: fields), depth + 1 =>
    if p.tag?.any Yaml.Tag.isLocal then failure
    let type ← d.text type
    (ofTyped? type (.list (← fields.mapM (d.content depth))) : Option _)
  | .table p es, depth + 1 =>
    if p.tag?.any Yaml.Tag.isLocal then failure
    let es ← es.mapM fun e => do
      let key ← d.fieldKey (d.content depth) e.1
      if key = typeKey then return (key, .text (← d.text e.2))
      else return (key, ← d.content depth e.2)
    (ofContent? (.table es) : Option _)
  | _, _ => failure

end Operation

def Skeleton.ofJson? (j : Json) : Option Skeleton := do
  match ← j.fields? ["namespace", "class"] with
  | [scope?, some name] =>
    return ⟨← (scope?.map Json.text?).getD (some []), ← name.text?⟩
  | _ => none

def Skeleton.ofYaml (d : Yaml.Document) (y : Yaml) : Yaml.Reader Skeleton := do
  match ← d.fields ["namespace", "class"] y with
  | [scope?, some name] => return ⟨← (scope?.map d.text).getD (pure []), ← d.text name⟩
  | _ => failure

namespace Batch

def ofJson? (j : Json) : Option Batch := do
  match ← j.fields? ["path", "create", "operations"] with
  | [some path, create?, some operations] =>
    let create? ← match create? with
      | none | some .null => some none
      | some j => (Skeleton.ofJson? j).map some
    let operation? (j : Json) := (j.toData? (Json.maxDepth - 2)).bind Operation.ofData?
    return ⟨← path.text?, create?, ← (← operations.list?).mapM operation?⟩
  | _ => none

def ofYaml (d : Yaml.Document) : Yaml.Reader Batch := do
  match ← d.fields ["path", "create", "operations"] d.root with
  | [some path, create?, some operations] =>
    let path ← d.text path
    let create? ← match create? with
      | none => pure none
      | some y => do
        let y ← d.follow y
        if y.isNull then pure none else some <$> Skeleton.ofYaml d y
    let operations ← (← d.items operations).mapM (Operation.ofYaml d (Yaml.maxDepth - 2))
    return ⟨path, create?, operations⟩
  | _ => failure

def isYamlFile (path : Text) : Bool :=
  (Path.extension? path).any fun e => e == "yaml".toList || e == "yml".toList

/-- The batch that the file at `path` says. -/
def parse (content path : Text) : Except Error Batch :=
  match if isYamlFile path then none else (Json.parse? content).bind ofJson? with
  | some b => .ok b
  | none =>
    match (Yaml.parse? content).bind fun d => d.run? (ofYaml d) with
    | some b => .ok b
    | none => .error (.config path .malformed)

end Batch
end PhpGraft
