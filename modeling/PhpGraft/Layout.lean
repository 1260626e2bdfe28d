import PhpGraft.Layout.Indent
import PhpGraft.Syntax

/-!
The layout of generated code: braces of classes and methods on lines of their own, and a blank line
between declarations but not between imports.
-/
namespace PhpGraft

inductive Container where
  | file
  /-- `namespace A;`, with its declarations at the same indentation. -/
  | scope
  /-- Anything between braces. -/
  | block
  deriving DecidableEq, Repr

namespace Container

def ofDecl : Decl → Container
  | .file => file
  | .scope (some _) false => scope
  | _ => block

def childLevel (c : Container) (level : Nat) : Nat :=
  match c with
  | block => level + 1
  | _ => level

/-- Line breaks in front of a child; its indentation follows them. -/
def gap (c : Container) (prev? : Option Decl) (next : Decl) : Nat :=
  match prev?, next with
  | none, _ => if c = scope then 2 else 1
  | some (.imports _), .imports _ => 1
  | _, _ => 2

end Container

namespace ImportClause

def print (c : ImportClause) : Text :=
  match c.alias? with
  | some a => c.name ++ " as " ++ a
  | none => c.name

end ImportClause

def ImportKind.word : ImportKind → Text
  | classLike => ""
  | function => "function "
  | constant => "const "

def Import.print (i : Import) : Text :=
  "use " ++ i.kind.word ++ .join ", " (i.clauses.map ImportClause.print) ++ ";"

theorem Import.print_ofClass (name : Text) : (ofClass name).print = "use " ++ name ++ ";" := by
  change ("use " : Text) ++ [] ++ Text.join ", " [name] ++ (";" : Text) = _
  simp [Text.join]

def ClassHead.print (h : ClassHead) : Text :=
  let list (word : Text) (names : List Text) : Text :=
    if names.isEmpty then [] else word ++ .join ", " names
  .join " " (h.modifiers ++ [h.kind.word, h.name]) ++ list " extends " h.bases ++
    list " implements " h.interfaces

namespace Method

def signature (m : Method) : Text :=
  .join " " ((m.visibility?.map Visibility.word).toList ++ m.modifiers ++ [("function" : Text)]) ++ " " ++
    (if m.byRef then "&" else "") ++ m.name ++ "(" ++ m.params ++ ")" ++
    (match m.returnType? with
      | some t => ": " ++ t
      | none => [])

def print (style : Style) (level : Nat) (m : Method) : Text :=
  let indent := style.indentation level
  let inner := style.indentation (level + 1)
  let statement (s : Text) : Text := style.newline ++ inner ++ reindent s inner style.newline
  (match m.doc? with
    | some doc => reindentComment doc indent style.newline ++ style.newline ++ indent
    | none => []) ++
  m.signature ++
  match m.body? with
  | some body =>
    style.newline ++ indent ++ "\x7b" ++ body.flatMap statement ++ style.newline ++ indent ++ "\x7d"
  | none => ";"

end Method

namespace Node

mutual

/-- The node in the default layout, from where its indentation ends. -/
def print (style : Style) (level : Nat) : Node → Text
  | ⟨_, _, decl, children⟩ =>
    let c := Container.ofDecl decl
    let inner := printList style c (c.childLevel level) none children
    let braced := "\x7b" ++ inner ++ style.newline ++ style.indentation level ++ "\x7d"
    match decl with
    | .file => "<?php" ++ style.newline ++ inner ++ (if style.finalNewline then style.newline else [])
    | .scope (some name) false => "namespace " ++ name ++ ";" ++ inner
    | .scope (some name) true => "namespace " ++ name ++ " " ++ braced
    | .scope none _ => "namespace " ++ braced
    | .imports i => i.print
    | .classLike head => head.print ++ style.newline ++ style.indentation level ++ braced
    | .method m => m.print style level
    | .verbatim text => reindent text (style.indentation level) style.newline

/-- Siblings, each with the line breaks and the indentation in front of it. -/
def printList (style : Style) (c : Container) (level : Nat) (prev? : Option Decl) :
    List Node → Text
  | [] => []
  | n :: ns =>
    style.newlines (c.gap prev? n.decl) ++ style.indentation level ++ print style level n ++
      printList style c level (some n.decl) ns

end
end Node

def Tree.print (style : Style) (t : Tree) : Text := t.root.print style 0

end PhpGraft
