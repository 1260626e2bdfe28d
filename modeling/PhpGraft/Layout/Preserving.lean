import PhpGraft.Layout

/-!
Printing an edited tree with the text of the source it came from. A child that is still behind the
sibling it was read behind keeps everything in front of it; any other child is set off as in
generated code. A tree as it was read therefore prints as its source.
-/
namespace PhpGraft

namespace Node

mutual

def find? (id : Nat) : Node → Option Node
  | ⟨i, origin, decl, children⟩ =>
    if i = id then some ⟨i, origin, decl, children⟩ else findList? id children

def findList? (id : Nat) : List Node → Option Node
  | [] => none
  | n :: ns => (find? id n).or (findList? id ns)

end

/-- The sibling in front of `id`: `some none` for the first one, `none` if it is not in the list. -/
def predecessor? (id : Nat) (prev? : Option Nat) : List Nat → Option (Option Nat)
  | [] => none
  | i :: is => if i = id then some prev? else predecessor? id (some i) is

end Node

namespace Source

/-- The sibling that `child` was read behind. -/
def predecessor? (s : Source) (parent child : Nat) : Option (Option Nat) :=
  (s.tree.root.find? parent).bind fun n => Node.predecessor? child none (n.children.map Node.id)

/-- Where printing stands inside a body: the tokens before `index` are dealt with, `prev?` is the
last child, and `kept` tells whether it kept its place. -/
structure Cursor where
  index : Nat
  prev? : Option Node
  kept : Bool

/-- Still behind the sibling it was read behind, and not yet passed. -/
def keeps (s : Source) (parent : Nat) (cur : Cursor) (n : Node) : Bool :=
  match n.origin with
  | .anchored a =>
    cur.index ≤ a.span.start && s.predecessor? parent n.id == some (cur.prev?.map Node.id)
  | _ => false

/-- What stands in front of a child. -/
def gap (s : Source) (style : Style) (c : Container) (level : Nat) (kept : Bool) (cur : Cursor)
    (n : Node) : Text :=
  match kept, n.origin.anchor? with
  | true, some a => s.tokens.between cur.index a.span.start
  | _, _ => style.newlines (c.gap (cur.prev?.map Node.decl) n.decl) ++ style.indentation level

def Cursor.pass (cur : Cursor) (kept : Bool) (n : Node) : Cursor :=
  ⟨match n.origin.anchor? with
    | some a => max cur.index a.span.stop
    | none => cur.index, some n, kept⟩

/-- What stands behind the last child of a body that ends at `stop`. -/
def tail (s : Source) (style : Style) (c : Container) (level : Nat) (cur : Cursor) (stop : Nat) :
    Text :=
  let rest := s.tokens.between cur.index stop
  if !cur.kept && c = .block && !rest.contains '\n' then
    style.newline ++ style.indentation level ++ rest.trim
  else rest

mutual

def print (s : Source) (style : Style) (level : Nat) : Node → Text
  | ⟨id, origin, decl, children⟩ =>
    match origin.anchor? with
    | none => Node.print style level ⟨id, origin, decl, children⟩
    | some a =>
      match a.body? with
      | none => s.tokens.slice a.span
      | some body =>
        s.tokens.between a.span.start body.start ++
          printList s style (.ofDecl decl) level id body.stop ⟨body.start, none, true⟩ children ++
          s.tokens.between body.stop a.span.stop

/-- The children of node `parent`, and what its body ends with. -/
def printList (s : Source) (style : Style) (c : Container) (level parent stop : Nat)
    (cur : Cursor) : List Node → Text
  | [] => s.tail style c level cur stop
  | n :: ns =>
    let kept := s.keeps parent cur n
    s.gap style c (c.childLevel level) kept cur n ++ print s style (c.childLevel level) n ++
      printList s style c level parent stop (cur.pass kept n) ns

end
end Source
end PhpGraft
