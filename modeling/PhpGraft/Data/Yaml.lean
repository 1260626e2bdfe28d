import PhpGraft.Data
import PhpGraft.Data.Yaml.Node

/-!
What YAML documents say. A plain scalar means what the core schema makes of it, and so does one
with a tag of that schema; tags of an application leave nothing that could be said as data. Aliases
are followed where a node is read, so a part of a document that nobody reads may hold any.
-/
namespace PhpGraft.Yaml

def normalizeBreaks : Text → Text
  | [] => []
  | '\r' :: '\n' :: t => '\n' :: normalizeBreaks t
  | c :: t => (if c = '\r' ∨ c.toNat = 0x85 then '\n' else c) :: normalizeBreaks t

def isAllowed (c : Char) : Bool :=
  let n := c.toNat
  n == 9 || n == 10 || n == 13 || (0x20 ≤ n && n ≤ 0x7E) || n == 0x85 ||
    (0xA0 ≤ n && n ≤ 0xFFFD) || 0x10000 ≤ n

/-- The one document of the text. -/
def parse? (t : Text) : Option Document :=
  if t.all isAllowed then (tokens? (normalizeBreaks t)).bind Document.ofTokens? else none

/-! The core schema. -/

def nullWords : List Text := ["", "null", "Null", "NULL", "~"]

def trueWords : List Text := ["true", "True", "TRUE"]

def falseWords : List Text := ["false", "False", "FALSE"]

def isSign (c : Char) : Bool := c == '+' || c == '-'

/-- A decimal with zeros in front is text. -/
def hasLeadingZero (t : Text) : Bool :=
  let t := if t.head?.any isSign then t.drop 1 else t
  1 < t.length && t.head? == some '0' && t.all Char.isDigit

def digits? (radix : Nat) (t : Text) : Option Nat :=
  match t.mapM fun c => (Json.hexDigit? c).filter (· < radix) with
  | some (d :: ds) => some ((d :: ds).foldl (fun n d => n * radix + d) 0)
  | _ => none

/-- A natural number behind its sign: decimal, or with a radix in front. -/
def natural? (t : Text) : Option Nat :=
  let radix? (mark : Text) (radix : Nat) := (t.dropPrefix? mark).bind (digits? radix)
  (radix? "0x" 16).or <| (radix? "0o" 8).or <| (radix? "0b" 2).or <|
    if hasLeadingZero t then none else digits? 10 t

def integer? (t : Text) : Option Int :=
  match t with
  | '+' :: t => (natural? t).map Int.ofNat
  | '-' :: t => (natural? t).map fun n => -n
  | t => (natural? t).map Int.ofNat

def decimal? (t : Text) : Option Float :=
  let whole := t.takeWhile Char.isDigit
  let rest := t.drop whole.length
  let (fraction, rest) : Text × Text := match rest with
    | '.' :: r => (r.takeWhile Char.isDigit, r.dropWhile Char.isDigit)
    | r => ([], r)
  let exponent? : Option Int := match rest with
    | [] => some 0
    | e :: r =>
      let (down, r) : Bool × Text := match r with
        | '-' :: r => (true, r)
        | '+' :: r => (false, r)
        | r => (false, r)
      if e = 'e' ∨ e = 'E' then (digits? 10 r).map fun n => if down then -n else n else none
  match exponent?, whole ++ fraction with
  | some e, d :: ds =>
    Float64.ofDecimal? ((d :: ds).foldl (fun n d => n * 10 + Json.digitValue d) 0) (e - fraction.length)
  | _, _ => none

def float? (t : Text) : Option Float :=
  let infinity : List Text := [".inf", ".Inf", ".INF"]
  let nan : List Text := [".nan", ".NaN", ".NAN"]
  if nan.contains t then some (0.0 / 0.0)
  else match t with
    | '+' :: t => if infinity.contains t then some (1.0 / 0.0) else decimal? t
    | '-' :: t => if infinity.contains t then some (-1.0 / 0.0) else (decimal? t).map fun x => -x
    | t => if infinity.contains t then some (1.0 / 0.0) else decimal? t

/-- The integer that a scalar spells. One that needs more than 64 bits, but no more than 128, is
refused. -/
def whole? (t : Text) : Option (Option Number) :=
  match integer? t with
  | some n =>
    if -Int.pow 2 63 ≤ n ∧ n < Int.pow 2 64 then some (some (.integer n))
    else if -Int.pow 2 127 ≤ n ∧ n < Int.pow 2 128 then some none
    else none
  | none => none

def truth? (t : Text) : Option Bool :=
  if trueWords.contains t then some true
  else if falseWords.contains t then some false
  else none

variable {κ : Type}

/-- What a plain scalar means. -/
def resolve? (t : Text) : Option (Data κ) :=
  if nullWords.contains t then some .null
  else match truth? t, whole? t with
    | some b, _ => some (.bool b)
    | none, some n? => n?.map .number
    | none, none =>
      match if hasLeadingZero t then none else float? t with
      | some x => some (.number (.float x))
      | none => some (.text t)

/-- What a scalar means that has a tag. -/
def tagged? (tag : Tag) (t : Text) (plain : Bool) : Option (Data κ) :=
  if tag.isLocal then none
  else if tag = Tag.core "bool" then (truth? t).map .bool
  else if tag = Tag.core "int" then (whole? t).join.map .number
  else if tag = Tag.core "float" then (float? t).map fun x => .number (.float x)
  else if tag = Tag.core "null" then
    if !t.isEmpty && nullWords.contains t then some .null else none
  else if tag.startsLocal && plain then resolve? t
  else some (.text t)

/-- What a scalar means. -/
def scalarData? (p : Properties) (t : Text) (plain : Bool) : Option (Data κ) :=
  match p.tag? with
  | some tag => tagged? tag t plain
  | none => if plain then resolve? t else some (.text t)

/-- A scalar that says there is nothing. -/
def isNull : Yaml → Bool
  | scalar ⟨_, none⟩ t true => nullWords.contains t
  | scalar ⟨_, some tag⟩ t true =>
    tag == Tag.core "null" && !t.isEmpty && nullWords.contains t
  | _ => false

/-! Reading. -/

/-- Reads with a number of aliases that may still be followed. -/
abbrev Reader (α : Type) := StateT Nat Option α

/-- How many aliases may be followed for each event of a document. -/
def maxAliases : Nat := 100

/-- How deep lists and tables may nest where they are read. -/
def maxDepth : Nat := 128

namespace Document

variable (d : Document)

/-- What a reader finds in the document. -/
def run? {α : Type} (read : Reader α) : Option α :=
  (read.run (maxAliases * d.events)).map Prod.fst

/-- The node itself, or what an alias stands for. -/
def follow (y : Yaml) : Reader Yaml := do
  match y with
  | .aliasOf number =>
    match ← get, d.anchors.lookup number with
    | left + 1, some y => do set left; return y
    | _, _ => failure
  | y => return y

/-- A scalar as it is spelled. -/
def text (y : Yaml) : Reader Text := do
  match ← d.follow y with
  | .scalar _ t _ => return t
  | _ => failure

/-- The items of a list; an empty scalar stands for an empty one. -/
def items (y : Yaml) : Reader (List Yaml) := do
  match ← d.follow y with
  | .list _ items => return items
  | .scalar _ [] true => return []
  | _ => failure

/-- The entries of a table; an empty scalar stands for an empty one. -/
def entries (y : Yaml) : Reader (List (Yaml × Yaml)) := do
  match ← d.follow y with
  | .table _ es => return es
  | .scalar _ [] true => return []
  | _ => failure

/-- The fields of a record, whose keys are spelled. What other entries hold is not read. -/
def fields (names : List Text) (y : Yaml) : Reader (List (Option Yaml)) := do
  let es ← (← d.entries y).mapM fun e => return (← d.text e.1, e.2)
  (fieldsNamed? names es : Option _)

/-- The data that a node says, in which collections nest at most so deep. How keys are read may
depend on how nodes below are. -/
def data (key : (Yaml → Reader (Data κ)) → Yaml → Reader κ) : Nat → Yaml → Reader (Data κ)
  | 0, y => do
    match ← d.follow y with
    | .scalar p t plain => (scalarData? p t plain : Option _)
    | _ => failure
  | depth + 1, y => do
    match ← d.follow y with
    | .scalar p t plain => (scalarData? p t plain : Option _)
    | .list p items =>
      if p.tag?.any Tag.isLocal then failure
      return .list (← items.mapM fun y => data key depth y)
    | .table p es =>
      if p.tag?.any Tag.isLocal then failure
      return .table (← es.mapM fun e => return (← key (data key depth) e.1, ← data key depth e.2))
    | .aliasOf _ => failure

/-- Data in which every key is a scalar as it is spelled. -/
def plainData (depth : Nat) (y : Yaml) : Reader (Data Text) := d.data (fun _ => d.text) depth y

/-- A key by what it says. A whole number with a minus sign is no place. -/
def fieldKey (read : Yaml → Reader (Data FieldKey)) (y : Yaml) : Reader FieldKey := do
  let y ← d.follow y
  match ← read y, y with
  | .text t, _ => return .name t
  | .number (.integer n), .scalar _ t _ =>
    return if t.head? == some '-' then .unnamed else .place n.toNat
  | _, _ => return .unnamed

/-- Data whose keys may be anything. -/
def content (depth : Nat) (y : Yaml) : Reader (Data FieldKey) := d.data d.fieldKey depth y

end Document
end PhpGraft.Yaml
