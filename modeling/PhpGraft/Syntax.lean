import PhpGraft.Name
import PhpGraft.Token

/-!
The syntax of a file: namespaces, imports, class-like declarations and their methods, and all other
code as it stands. A node remembers the tokens it was read from for as long as they may be printed
in its place.
-/
namespace PhpGraft

inductive Visibility where
  | pub | prot | priv
  deriving DecidableEq, Repr

namespace Visibility

def word : Visibility → Text
  | pub => "public"
  | prot => "protected"
  | priv => "private"

def ofWord? (t : Text) : Option Visibility := [pub, prot, priv].find? (·.word == t)

def ofKeyword? (t : Text) : Option Visibility := ofWord? t.lower

end Visibility

inductive ImportKind where
  | classLike | function | constant
  deriving DecidableEq, Repr

structure ImportClause where
  name : Text
  alias? : Option Text
  deriving DecidableEq, Repr

structure Import where
  kind : ImportKind
  clauses : List ImportClause
  deriving DecidableEq, Repr

namespace Import

def ofClass (name : Text) : Import := ⟨.classLike, [⟨name, none⟩]⟩

/-- The name that an import is sorted by. -/
def name (i : Import) : Text := (i.clauses.head?.map ImportClause.name).getD []

def bindings (i : Import) : List (ImportKind × Text) := i.clauses.map fun c => (i.kind, c.name)

end Import

inductive ClassKind where
  | plain | interface | trait
  deriving DecidableEq, Repr

namespace ClassKind

def word : ClassKind → Text
  | plain => "class"
  | interface => "interface"
  | trait => "trait"

def ofKeyword? (t : Text) : Option ClassKind := [plain, interface, trait].find? (·.word == t.lower)

end ClassKind

structure ClassHead where
  kind : ClassKind
  modifiers : List Text
  name : Text
  bases : List Text
  interfaces : List Text
  deriving DecidableEq, Repr

def ClassHead.ofName (name : Text) : ClassHead := ⟨.plain, [], name, [], []⟩

structure Method where
  visibility? : Option Visibility
  modifiers : List Text
  byRef : Bool
  name : Text
  /-- Between the parentheses. -/
  params : Text
  returnType? : Option Text
  /-- Statements; none when a semicolon stands in place of the body. -/
  body? : Option (List Text)
  doc? : Option Text
  deriving DecidableEq, Repr

inductive Decl where
  | file
  | scope (name? : Option Text) (braced : Bool)
  | imports (decl : Import)
  | classLike (head : ClassHead)
  | method (decl : Method)
  | verbatim (text : Text)
  deriving DecidableEq, Repr

namespace Decl

def isContainer : Decl → Bool
  | file | scope .. | classLike _ => true
  | _ => false

def isScope : Decl → Bool
  | scope .. => true
  | _ => false

def isClass : Decl → Bool
  | classLike _ => true
  | _ => false

def import? : Decl → Option Import
  | imports i => some i
  | _ => none

end Decl

/-- The tokens of a node, comments in front of it included, and of a container's body. -/
structure Anchor where
  span : Span
  body? : Option Span
  deriving DecidableEq, Repr

inductive Origin where
  /-- Read from the source and still where it was. -/
  | anchored (anchor : Anchor)
  /-- Read from the source, but the white space in front of it is no longer the source's. -/
  | detached (anchor : Anchor)
  | synthesized
  deriving DecidableEq, Repr

namespace Origin

def anchor? : Origin → Option Anchor
  | anchored a | detached a => some a
  | synthesized => none

def detach : Origin → Origin
  | anchored a => detached a
  | o => o

end Origin

structure Node where
  id : Nat
  origin : Origin
  decl : Decl
  children : List Node
  deriving Repr

namespace Node

mutual

def decEq : (a b : Node) → Decidable (a = b)
  | ⟨i, o, d, cs⟩, ⟨j, p, e, ds⟩ =>
    match decEqList cs ds with
    | isTrue h =>
      if h' : i = j ∧ o = p ∧ d = e then isTrue (by simp [h, h'])
      else isFalse (by simp only [Node.mk.injEq]; exact fun k => h' ⟨k.1, k.2.1, k.2.2.1⟩)
    | isFalse h => isFalse (by simp only [Node.mk.injEq]; exact fun k => h k.2.2.2)

def decEqList : (as bs : List Node) → Decidable (as = bs)
  | [], [] => isTrue rfl
  | [], _ :: _ => isFalse nofun
  | _ :: _, [] => isFalse nofun
  | a :: as, b :: bs =>
    match decEq a b, decEqList as bs with
    | isTrue h, isTrue h' => isTrue (by rw [h, h'])
    | isFalse h, _ => isFalse fun k => h (List.cons.inj k).1
    | _, isFalse h => isFalse fun k => h (List.cons.inj k).2

end

instance : DecidableEq Node := decEq

def ofSource (decl : Decl) (span : Span) (body? : Option Span) (children : List Node) : Node :=
  ⟨0, .anchored ⟨span, body?⟩, decl, children⟩

mutual

/-- Numbers the nodes from `n` on, each after its children, and returns the next number. -/
def number (n : Nat) : Node → Node × Nat
  | ⟨_, origin, decl, children⟩ =>
    let r := numberList n children
    (⟨r.2, origin, decl, r.1⟩, r.2 + 1)

def numberList (n : Nat) : List Node → List Node × Nat
  | [] => ([], n)
  | c :: cs =>
    let r := number n c
    let rs := numberList r.2 cs
    (r.1 :: rs.1, rs.2)

end

/-- The node reached by taking the given child at each step. -/
def at? : List Nat → Node → Option Node
  | [], n => some n
  | i :: path, n => n.children[i]?.bind (at? path)

def modifyAt (f : Node → Node) : List Nat → Node → Node
  | [], n => f n
  | i :: path, n => { n with children := n.children.modify i (modifyAt f path) }

def withChildren (f : List Node → List Node) (n : Node) : Node :=
  { n with children := f n.children }

def detach (n : Node) : Node := { n with origin := n.origin.detach }

def isClass (n : Node) : Bool := n.decl.isClass

/-- Position of the last class declared in this list. -/
def lastClass? (children : List Node) : Option Nat :=
  (children.reverse.findIdx? isClass).map (children.length - 1 - ·)

/-- The list that holds the class being edited, as a path, and the position of the class in it:
the last class of the first namespace that declares one, or else the last one of the file itself. -/
def classScope? (root : Node) : Option (List Nat × Nat) :=
  let inScope (i : Nat) : Option (List Nat × Nat) :=
    root.children[i]?.bind fun n =>
      if n.decl.isScope then (lastClass? n.children).map ([i], ·) else none
  ((List.range root.children.length).findSome? inScope).or
    ((lastClass? root.children).map ([], ·))

/-- Qualified names of the classes declared in the file or directly in one of its namespaces. -/
def declaredClasses (root : Node) : List Text :=
  root.children.flatMap fun n =>
    match n.decl with
    | .scope name? _ =>
      n.children.filterMap fun m =>
        match m.decl with
        | .classLike head => some (Name.qualify name? head.name)
        | _ => none
    | .classLike head => [head.name]
    | _ => []

end Node

/-- A numbered syntax tree; new nodes are numbered from `next` on. -/
structure Tree where
  root : Node
  next : Nat
  deriving DecidableEq, Repr

def Tree.ofRoot (root : Node) : Tree :=
  let r := root.number 0
  ⟨r.1, r.2⟩

def Tree.synthesize (t : Tree) (decl : Decl) (children : List Node) : Node :=
  ⟨t.next, .synthesized, decl, children⟩

/-- A file as it was read. -/
structure Source where
  tokens : Tokens
  tree : Tree
  deriving DecidableEq, Repr

end PhpGraft
