import PhpGraft.Data.Yaml.Token

/-!
YAML documents as trees. Anchors are numbered, and an alias has the number that its name has where
it stands. A number says how many names were in use before it was given, so that a name which is
used again takes a number that the next new name takes too.
-/
namespace PhpGraft

/-- What stands in front of a node. -/
structure Yaml.Properties where
  anchor? : Option Nat := none
  tag? : Option Yaml.Tag := none
  deriving DecidableEq, Repr

inductive Yaml where
  | scalar (properties : Yaml.Properties) (text : Text) (plain : Bool)
  | list (properties : Yaml.Properties) (items : List Yaml)
  | table (properties : Yaml.Properties) (entries : List (Yaml × Yaml))
  | aliasOf (anchor : Nat)

namespace Yaml

def empty : Yaml := scalar {} [] true

/-- What is left to read. -/
structure Feed where
  tokens : List Token
  /-- The number of each name that is in use. -/
  anchors : Entries Nat := []
  handles : List (Text × Tag)
  /-- Scalars, aliases, and both ends of collections. -/
  events : Nat := 0

namespace Feed

def resolve? (f : Feed) (handle : Text) (suffix : Tag) : Option Tag :=
  if handle.isEmpty then some suffix else (f.handles.lookup handle).map (· ++ suffix)

/-- Behind an anchor and a tag. -/
def behind (f : Feed) (name? : Option Text) (tag? : Option Tag) (ts : List Token) :
    Properties × Feed :=
  match name? with
  | none => (⟨none, tag?⟩, { f with tokens := ts })
  | some name =>
    let number := f.anchors.length
    (⟨some number, tag?⟩, { f with tokens := ts, anchors := f.anchors.insert name number })

/-- The anchor and the tag in front of a node, in either order. -/
def properties? (f : Feed) : Option (Properties × Feed) :=
  match f.tokens with
  | .anchor a :: .tag handle suffix :: ts | .tag handle suffix :: .anchor a :: ts =>
    (f.resolve? handle suffix).map fun tag => f.behind (some a) (some tag) ts
  | .anchor a :: ts => some (f.behind (some a) none ts)
  | .tag handle suffix :: ts =>
    (f.resolve? handle suffix).map fun tag => f.behind none (some tag) ts
  | ts => some (f.behind none none ts)

def withTokens (f : Feed) (ts : List Token) : Feed := { f with tokens := ts }

/-- Behind an alias, or a scalar, which may be one that is left out. -/
def behindScalar (f : Feed) (ts : List Token) : Feed :=
  { f with tokens := ts, events := f.events + 1 }

/-- Behind the start of a collection. -/
def inside (f : Feed) (ts : List Token) : Feed := { f with tokens := ts, events := f.events + 2 }

end Feed

def startsKey : List Token → Bool
  | .key :: _ | .value :: _ | .blockEnd :: _ => true
  | _ => false

def startsItem : List Token → Bool
  | .item :: _ => true
  | ts => startsKey ts

/-- At the end of an entry of a flow table or, if not `inTable`, of an item of a flow list. -/
def endsEntry (inTable : Bool) : List Token → Bool
  | .comma :: _ => true
  | .flowTableEnd :: _ => inTable
  | .flowListEnd :: _ => !inTable
  | _ => false

mutual

/-- A node; `block` if block collections may stand there, `bare` if so may the items of a list
without start and end. -/
def node? (fuel : Nat) (block bare : Bool) (f : Feed) : Option (Yaml × Feed) :=
  match fuel, f.tokens with
  | 0, _ => none
  | _, .aliasOf name :: ts =>
    (f.anchors.get? name).map fun number => (aliasOf number, f.behindScalar ts)
  | fuel + 1, _ => f.properties?.bind fun r => content? fuel block bare r.1 r.2

/-- What follows the properties of a node. -/
def content? (fuel : Nat) (block bare : Bool) (p : Properties) (f : Feed) : Option (Yaml × Feed) :=
  match fuel with
  | 0 => none
  | fuel + 1 =>
    match f.tokens, block, bare with
    | ts@(.item :: _), _, true =>
      (bareItems? fuel [] (f.inside ts)).map fun r => (list p r.1, r.2)
    | .scalar text plain :: ts, _, _ =>
      some (scalar p text plain, f.behindScalar ts)
    | .flowList :: ts, _, _ =>
      (flowItems? fuel [] (f.inside ts)).map fun r => (list p r.1, r.2)
    | .flowTable :: ts, _, _ =>
      (flowEntries? fuel [] (f.inside ts)).map fun r => (table p r.1, r.2)
    | .blockList :: ts, true, _ =>
      (items? fuel [] (f.inside ts)).map fun r => (list p r.1, r.2)
    | .blockTable :: ts, true, _ =>
      (entries? fuel [] (f.inside ts)).map fun r => (table p r.1, r.2)
    | ts, _, _ => if p = {} then none else some (scalar p [] true, f.behindScalar ts)

def items? (fuel : Nat) (seen : List Yaml) (f : Feed) : Option (List Yaml × Feed) :=
  match fuel, f.tokens with
  | 0, _ => none
  | fuel + 1, .item :: ts =>
    match ts with
    | .item :: _ | .blockEnd :: _ => items? fuel (empty :: seen) (f.behindScalar ts)
    | _ => (node? fuel true false (f.withTokens ts)).bind fun r => items? fuel (r.1 :: seen) r.2
  | _, .blockEnd :: ts => some (seen.reverse, f.withTokens ts)
  | _, _ => none

def bareItems? (fuel : Nat) (seen : List Yaml) (f : Feed) : Option (List Yaml × Feed) :=
  match fuel, f.tokens with
  | 0, _ => none
  | fuel + 1, .item :: ts =>
    if startsItem ts then bareItems? fuel (empty :: seen) (f.behindScalar ts)
    else (node? fuel true false (f.withTokens ts)).bind fun r => bareItems? fuel (r.1 :: seen) r.2
  | _, _ => some (seen.reverse, f)

def entries? (fuel : Nat) (seen : List (Yaml × Yaml)) (f : Feed) :
    Option (List (Yaml × Yaml) × Feed) :=
  match fuel, f.tokens with
  | 0, _ => none
  | fuel + 1, .key :: ts =>
    let key : Option (Yaml × Feed) :=
      if startsKey ts then some (empty, f.behindScalar ts) else node? fuel true true (f.withTokens ts)
    match key with
    | none => none
    | some (k, f) => (blockValue? fuel f).bind fun r => entries? fuel ((k, r.1) :: seen) r.2
  | _, .blockEnd :: ts => some (seen.reverse, f.withTokens ts)
  | _, _ => none

def blockValue? (fuel : Nat) (f : Feed) : Option (Yaml × Feed) :=
  match fuel, f.tokens with
  | 0, _ => none
  | fuel + 1, .value :: ts =>
    if startsKey ts then some (empty, f.behindScalar ts) else node? fuel true true (f.withTokens ts)
  | _, ts => some (empty, f.behindScalar ts)

def flowItems? (fuel : Nat) (seen : List Yaml) (f : Feed) : Option (List Yaml × Feed) :=
  match fuel, f.tokens with
  | 0, _ => none
  | _, .flowListEnd :: ts => some (seen.reverse, f.withTokens ts)
  | fuel + 1, ts =>
    let item : Option (Yaml × Feed) := match ts with
      | .key :: ts => (flowPair? fuel false (f.inside ts)).map fun r => (table {} [r.1], r.2)
      | _ => node? fuel false false f
    match item with
    | none => none
    | some (y, f) =>
      match f.tokens with
      | .comma :: ts => flowItems? fuel (y :: seen) (f.withTokens ts)
      | .flowListEnd :: ts => some ((y :: seen).reverse, f.withTokens ts)
      | _ => none

def flowEntries? (fuel : Nat) (seen : List (Yaml × Yaml)) (f : Feed) :
    Option (List (Yaml × Yaml) × Feed) :=
  match fuel, f.tokens with
  | 0, _ => none
  | _, .flowTableEnd :: ts => some (seen.reverse, f.withTokens ts)
  | fuel + 1, ts =>
    let entry : Option ((Yaml × Yaml) × Feed) := match ts with
      | .key :: ts => flowPair? fuel true (f.withTokens ts)
      | _ => (node? fuel false false f).map fun r => ((r.1, empty), r.2.behindScalar r.2.tokens)
    match entry with
    | none => none
    | some (e, f) =>
      match f.tokens with
      | .comma :: ts => flowEntries? fuel (e :: seen) (f.withTokens ts)
      | .flowTableEnd :: ts => some ((e :: seen).reverse, f.withTokens ts)
      | _ => none

/-- A key and its value, each of which may be missing. What stands in place of a missing key is
still to be read in a table, but not in a list. -/
def flowPair? (fuel : Nat) (inTable : Bool) (f : Feed) : Option ((Yaml × Yaml) × Feed) :=
  match fuel with
  | 0 => none
  | fuel + 1 =>
    let key : Option (Yaml × Feed) := match f.tokens with
      | t :: ts =>
        if t == .value || endsEntry inTable f.tokens then
          some (empty, f.behindScalar (if inTable then t :: ts else ts))
        else node? fuel false false f
      | [] => none
    match key with
    | none => none
    | some (k, f) =>
      let value : Option (Yaml × Feed) := match f.tokens with
        | .value :: ts =>
          if endsEntry inTable ts then some (empty, f.behindScalar ts)
          else node? fuel false false (f.withTokens ts)
        | ts => some (empty, f.behindScalar ts)
      value.map fun r => ((k, r.1), r.2)

end

/-- The directives in front of a document: the handles that they define, and what follows. -/
def directives? (handles : List (Text × Tag)) (versioned : Bool) :
    List Token → Option (List (Text × Tag) × List Token)
  | .version major minor :: ts =>
    if versioned || major != 1 || !(minor == 1 || minor == 2) then none
    else directives? handles true ts
  | .handle name tag :: ts =>
    if (handles.lookup name).isSome then none
    else directives? ((name, tag) :: handles) versioned ts
  | .documentStart :: ts => some (handles, ts)
  | _ => none

def defaultHandles : List (Text × Tag) := [(['!'], Tag.bare), (['!', '!'], Tag.core [])]

/-- An anchor with the node that it is in front of. -/
def anchored (p : Properties) (y : Yaml) : List (Nat × Yaml) :=
  match p.anchor? with
  | some number => [(number, y)]
  | none => []

mutual

/-- The anchored nodes in a tree, those that start last first, and then those that were `seen`. -/
def anchors (seen : List (Nat × Yaml)) : Yaml → List (Nat × Yaml)
  | scalar p t plain => anchored p (scalar p t plain) ++ seen
  | list p items => anchorsOfItems (anchored p (list p items) ++ seen) items
  | table p entries => anchorsOfEntries (anchored p (table p entries) ++ seen) entries
  | aliasOf _ => seen

def anchorsOfItems (seen : List (Nat × Yaml)) : List Yaml → List (Nat × Yaml)
  | [] => seen
  | y :: ys => anchorsOfItems (anchors seen y) ys

def anchorsOfEntries (seen : List (Nat × Yaml)) : List (Yaml × Yaml) → List (Nat × Yaml)
  | [] => seen
  | (k, v) :: es => anchorsOfEntries (anchors (anchors seen k) v) es

end

structure Document where
  root : Yaml
  /-- What the anchors of the root stand for. The first one of a number counts. -/
  anchors : List (Nat × Yaml)
  events : Nat

/-- The one document of the tokens. -/
def Document.ofTokens? (ts : List Token) : Option Document := do
  let size := 4 * ts.length + 4
  let read (f : Feed) : Option (Yaml × Feed) := node? size true false f
  let (y, f) ← match ts with
    | [] => some (empty, { tokens := [], handles := [] })
    | .version .. :: _ | .handle .. :: _ | .documentStart :: _ => do
      let (handles, ts) ← directives? [] false ts
      let f : Feed := { tokens := ts, handles := handles ++ defaultHandles }
      match ts with
      | [] | .documentEnd :: _ => some (empty, f)
      | _ => read f
    | _ => read { tokens := ts, handles := defaultHandles }
  if f.tokens.all (· == .documentEnd) then some ⟨y, y.anchors [], f.events⟩ else none

end Yaml
end PhpGraft
