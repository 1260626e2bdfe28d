import PhpGraft.Editor

/-!
Operations that change one editor a step at a time. An operation may be given up at any of its
steps, and what was changed before that step stays changed.
-/
namespace PhpGraft

/-- Steps on one editor, of which a failing one is the last and undoes nothing. -/
abbrev Edit := ExceptT Error (StateM Editor)

namespace Edit

/-- Takes the next number of the working tree for a node that stands nowhere yet. -/
def newNode (decl : Decl) : Edit Node :=
  modifyGet fun e =>
    (e.working.synthesize decl [], { e with working := ⟨e.working.root, e.working.next + 1⟩ })

/-- The path of the list that holds the class being edited, and the position of the class in it. -/
def classScope : Edit (List Nat × Nat) := do
  match (← get).working.root.classScope? with
  | some place => return place
  | none => throw .noClass

def childrenAt (path : List Nat) : Edit (List Node) :=
  return (((← get).working.root.at? path).map Node.children).getD []

def changeAt (f : Node → Node) (path : List Nat) : Edit Unit :=
  modify fun e => { e with working := ⟨e.working.root.modifyAt f path, e.working.next⟩ }

/-- Changes the children of a node, which has to be one that can have children. -/
def changeChildren (f : List Node → List Node) (path : List Nat) : Edit Unit := do
  match (← get).working.root.at? path with
  | some n => if n.decl.isContainer then changeAt (.withChildren f) path else throw .noClass
  | none => throw .noClass

def addMethod (m : NewMethod) : Edit Unit := do
  if !Name.isIdentifier m.name then throw (.invalidName .method m.name)
  match parseFragment m.body with
  | .error fault => throw (.parse fault)
  | .ok body =>
    let (scope, classAt) ← classScope
    let node ← newNode (.method
      { visibility? := some m.visibility, modifiers := [], byRef := false, name := m.name,
        params := [], returnType? := none, body? := some body, doc? := some m.doc.render })
    changeChildren (· ++ [node]) (scope ++ [classAt])

def newImports : List Text → Edit (List Node)
  | [] => return []
  | name :: names => return (← newNode (.imports (.ofClass name))) :: (← newImports names)

def addImports (names : List Text) : Edit Unit := do
  let names ← ExceptT.mk (pure (names.mapM Editor.importedName))
  let (scope, classAt) ← classScope
  let old := Node.distinctImports [] ((← childrenAt scope).filter Node.isImport)
  let new ← newImports (Node.unboundNames old.2 names)
  changeAt .detach (scope ++ [classAt])
  changeChildren (Node.withImports (Node.sortImports (old.1 ++ new)) classAt) scope

def apply : Operation → Edit Unit
  | .addMethod m => addMethod m
  | .addImports names => addImports names

/-- Operations one after the other, whether the ones before have failed or not, each with its
answer. -/
def session : List Operation → StateM Editor (List (Except Error Unit))
  | [] => return []
  | op :: ops => return (← (apply op).run) :: (← session ops)

end Edit
end PhpGraft
