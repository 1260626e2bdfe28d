import PhpGraft.Layout.Preserving
import PhpGraft.Operation
import PhpGraft.Syntax.Parser

/-!
Editing a file. The source stays as it was read and every operation changes the working tree alone;
one that fails changes nothing. Printing the working tree by the source gives the edited file.
-/
namespace PhpGraft

namespace Node

def importBindings (n : Node) : List (ImportKind × Text) :=
  (n.decl.import?.map Import.bindings).getD []

def importName (n : Node) : Text := (n.decl.import?.map Import.name).getD []

def isImport (n : Node) : Bool := n.decl.import?.isSome

/-- The imports that bind something not bound before them, and all that is bound behind them. -/
def distinctImports (bound : List (ImportKind × Text)) :
    List Node → List Node × List (ImportKind × Text)
  | [] => ([], bound)
  | n :: ns =>
    let r := distinctImports (bound ++ n.importBindings) ns
    if n.importBindings.all (bound.contains ·) then r else (n :: r.1, r.2)

/-- The names not bound yet, each once. -/
def unboundNames (bound : List (ImportKind × Text)) : List Text → List Text
  | [] => []
  | name :: names =>
    if bound.contains (.classLike, name) then unboundNames bound names
    else name :: unboundNames ((.classLike, name) :: bound) names

/-- New class imports, numbered from `next` on. -/
def importsOf (next : Nat) : List Text → List Node
  | [] => []
  | name :: names => ⟨next, .synthesized, .imports (.ofClass name), []⟩ :: importsOf (next + 1) names

/-- Sorted by the size of the imported name and then by the name. -/
def sortImports (ns : List Node) : List Node :=
  ns.mergeSort fun a b => Text.shortLexLE a.importName b.importName

/-- Imports first, then what stood before the class, the class, and what stood behind it. -/
def withImports (imports : List Node) (classAt : Nat) (children : List Node) : List Node :=
  imports ++ (children.take classAt).filter (!·.isImport) ++
    (children[classAt]?.map detach).toList ++ (children.drop (classAt + 1)).filter (!·.isImport)

end Node

structure Editor where
  source : Source
  working : Tree
  style : Style
  deriving Repr

namespace Editor

/-- Opens a file. Line breaks of new code are those of the file, if it has any. -/
def parse (text : Text) (style : Style := {}) : Except ParseError Editor :=
  match Source.parse text with
  | .error e => .error e
  | .ok source => .ok ⟨source, source.tree, style.matching text⟩

def sourceText (e : Editor) : Text := e.source.tokens.source

def isModified (e : Editor) : Bool := e.working ≠ e.source.tree

def render (e : Editor) : Text := e.source.print e.style 0 e.working.root

/-- Appends a method to the class. -/
def addMethod (e : Editor) (m : NewMethod) : Except Error Editor :=
  if !Name.isIdentifier m.name then .error (.invalidName .method m.name)
  else match parseFragment m.body with
    | .error fault => .error (.parse fault)
    | .ok body =>
      match e.working.root.classScope? with
      | none => .error .noClass
      | some (scope, classAt) =>
        let decl : Method :=
          { visibility? := some m.visibility, modifiers := [], byRef := false, name := m.name,
            params := [], returnType? := none, body? := some body, doc? := some m.doc.render }
        let node := e.working.synthesize (.method decl) []
        let root := e.working.root.modifyAt (.withChildren (· ++ [node])) (scope ++ [classAt])
        .ok { e with working := ⟨root, e.working.next + 1⟩ }

/-- The name an import is asked for by, without the backslash it may start with. -/
def importedName (name : Text) : Except Error Text :=
  let name := Name.withoutRoot name.trim
  if Name.isQualified name then .ok name else .error (.invalidName .classLike name)

/-- Imports classes next to the class being edited and puts all imports there in order. -/
def addImports (e : Editor) (names : List Text) : Except Error Editor :=
  match names.mapM importedName with
  | .error fault => .error fault
  | .ok names =>
    match e.working.root.classScope? with
    | none => .error .noClass
    | some (scope, classAt) =>
      let children := ((e.working.root.at? scope).map Node.children).getD []
      let old := Node.distinctImports [] (children.filter Node.isImport)
      let new := Node.importsOf e.working.next (Node.unboundNames old.2 names)
      let imports := Node.sortImports (old.1 ++ new)
      let root := e.working.root.modifyAt (.withChildren (Node.withImports imports classAt)) scope
      .ok { e with working := ⟨root, e.working.next + new.length⟩ }

def apply (e : Editor) : Operation → Except Error Editor
  | .addMethod m => e.addMethod m
  | .addImports names => e.addImports names

end Editor
end PhpGraft
