import PhpGraft.Entries

/-!
Documentation comments: a message, a description and tags in order. Suppressed values are left out
at any depth; a tag with nothing else to show is left out whole.
-/
namespace PhpGraft

inductive TagValue where
  /-- Never shown. -/
  | suppressed
  /-- Shown as the tag alone. -/
  | flag
  | scalar (text : Text)
  /-- A line for each item. -/
  | list (items : List TagValue)
  /-- A line for each value; the keys are not shown. -/
  | nested (entries : List (Text × TagValue))
  deriving Repr

namespace TagValue

mutual

/-- Without suppressed values and without containers that hold nothing else. -/
def visible? : TagValue → Option TagValue
  | suppressed => none
  | flag => some flag
  | scalar text => some (scalar text)
  | list items =>
    match visibleItems items with
    | [] => none
    | vs => some (list vs)
  | nested entries =>
    match visibleEntries entries with
    | [] => none
    | es => some (nested es)

def visibleItems : List TagValue → List TagValue
  | [] => []
  | v :: vs => (visible? v).toList ++ visibleItems vs

def visibleEntries : List (Text × TagValue) → List (Text × TagValue)
  | [] => []
  | (key, v) :: es => ((visible? v).map (key, ·)).toList ++ visibleEntries es

end

mutual

/-- The scalars at any depth. -/
def leaves : TagValue → List Text
  | suppressed | flag => []
  | scalar text => [text]
  | list items => leavesOfItems items
  | nested entries => leavesOfEntries entries

def leavesOfItems : List TagValue → List Text
  | [] => []
  | v :: vs => leaves v ++ leavesOfItems vs

def leavesOfEntries : List (Text × TagValue) → List Text
  | [] => []
  | (_, v) :: es => leaves v ++ leavesOfEntries es

end

def text (v : TagValue) : Text := .join [' '] v.leaves

/-- One line for the whole value. -/
def line (tag : Text) (v : TagValue) : Text :=
  match v with
  | flag => '@' :: tag
  | scalar text => '@' :: tag ++ ' ' :: text
  | v => if v.text.isEmpty then '@' :: tag else '@' :: tag ++ ' ' :: v.text

def lines (tag : Text) : TagValue → List Text
  | suppressed => []
  | list items => items.map (line tag)
  | nested entries => entries.map fun e => e.2.line tag
  | v => [v.line tag]

/-- What the value says as a message or description. -/
def slot? : TagValue → Option Text
  | suppressed | flag => none
  | scalar text => some text
  | v => some v.text

def ofBool (b : Bool) : TagValue := if b then flag else suppressed

end TagValue

structure DocBlock where
  message? : Option Text := none
  description? : Option Text := none
  tags : Entries TagValue := []
  deriving Repr

namespace DocBlock

def messageKey : Text := "message"

def descriptionKey : Text := "description"

/-- Two keys fill the text slots and the others become tags. -/
def ofEntries (es : Entries TagValue) : DocBlock :=
  { message? := (es.get? messageKey).bind TagValue.slot?
    description? := (es.get? descriptionKey).bind TagValue.slot?
    tags := (es.erase messageKey).erase descriptionKey }

def toEntries (d : DocBlock) : Entries TagValue :=
  let slots := (d.message?.map fun t => (messageKey, TagValue.scalar t)).toList ++
    (d.description?.map fun t => (descriptionKey, TagValue.scalar t)).toList
  .ofList (slots ++ d.tags)

def withText (message description : Text) : DocBlock :=
  { message? := some message, description? := some description }

def setMessage (d : DocBlock) (t : Text) : DocBlock := { d with message? := some t }

def setDescription (d : DocBlock) (t : Text) : DocBlock := { d with description? := some t }

def get? (d : DocBlock) (key : Text) : Option TagValue :=
  if key = messageKey then d.message?.map .scalar
  else if key = descriptionKey then d.description?.map .scalar
  else d.tags.get? key

def setTag (d : DocBlock) (tag : Text) (v : TagValue) : DocBlock :=
  { d with tags := d.tags.insert tag v }

def removeTag (d : DocBlock) (tag : Text) : DocBlock := { d with tags := d.tags.erase tag }

def set (d : DocBlock) (key : Text) (v : TagValue) : DocBlock :=
  if key = messageKey then { d with message? := v.slot? }
  else if key = descriptionKey then { d with description? := v.slot? }
  else d.setTag key v

/-- The groups of lines between which a blank line stands. -/
def groups (d : DocBlock) : List (List Text) :=
  let slot (t : Text) : Option (List Text) := if t.isEmpty then none else some [t]
  [d.message?.bind slot, d.description?.bind slot].filterMap id ++
    (d.tags.filterMap fun e => e.2.visible?.map (·.lines e.1)).filter (!·.isEmpty)

def render (d : DocBlock) : Text :=
  match d.groups with
  | [] => "/**\n *\n */"
  | gs =>
    let group (ls : List Text) : Text := .join ['\n'] (ls.map (" * " ++ ·))
    "/**\n" ++ .join "\n *\n" (gs.map group) ++ "\n */"

end DocBlock
end PhpGraft
