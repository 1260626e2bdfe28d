import PhpGraft.Editor
import PhpGraft.Locator

/-!
A file that is opened for editing. A new one is not in the storage before it is saved.
-/
namespace PhpGraft

structure ClassFile where
  path : Text
  editor : Editor
  isNew : Bool
  deriving Repr

namespace ClassFile

def contents (f : ClassFile) : Text := f.editor.render

def isModified (f : ClassFile) : Bool := f.isNew || f.editor.isModified

/-- What the file holds before editing. -/
def textBefore (f : ClassFile) : Text := if f.isNew then [] else f.editor.sourceText

def edit (f : ClassFile) (e : Except Error Editor) : Except Error ClassFile :=
  e.map fun editor => { f with editor := editor }

def addMethod (f : ClassFile) (m : NewMethod) : Except Error ClassFile :=
  f.edit (f.editor.addMethod m)

def addImports (f : ClassFile) (names : List Text) : Except Error ClassFile :=
  f.edit (f.editor.addImports names)

def apply (f : ClassFile) (o : Operation) : Except Error ClassFile := f.edit (f.editor.apply o)

def ofText (path text : Text) (style : Style) (isNew : Bool) : Except Error ClassFile :=
  match Editor.parse text style with
  | .error fault => .error (.parse fault)
  | .ok editor => .ok ⟨path, editor, isNew⟩

variable {m : Type → Type} [Monad m] [Storage m]

def openFile (path : Text) (style : Style) : ExceptT Error m ClassFile := do
  if ← (Storage.present path : m _) then
    let text ← Storage.readFile path
    ExceptT.mk (pure (ofText path text style false))
  else throw (.fileNotFound path)

/-- Writes a skeleton where no file is yet, and opens it. -/
def create (path : Text) (skeleton : Skeleton) (style : Style) : ExceptT Error m ClassFile := do
  if ← (Storage.present path : m _) then throw (.alreadyExists path)
  else
    let text ← ExceptT.mk (pure (skeleton.generate style))
    Storage.writeFile path text
    openFile path style

def openOrCreate (path : Text) (skeleton : Skeleton) (style : Style) :
    ExceptT Error m ClassFile := do
  if ← (Storage.present path : m _) then openFile path style else create path skeleton style

/-- Opens a file, or starts a new one in memory where there is none. -/
def openOrNew (path : Text) (skeleton : Skeleton) (style : Style) : ExceptT Error m ClassFile := do
  if ← (Storage.present path : m _) then openFile path style
  else
    let text ← ExceptT.mk (pure (skeleton.generate style))
    ExceptT.mk (pure (ofText path text style true))

/-- Opens the file that declares a class. -/
def openClass (name : Text) (locators : List Locator) (style : Style) :
    ExceptT Error m ClassFile := do
  match ← (Locator.locateFirst? name locators : m _) with
  | some path => openFile path style
  | none => throw (.classNotFound name)

def save (f : ClassFile) : ExceptT Error m ClassFile := do
  Storage.writeFile f.path f.contents
  return { f with isNew := false }

end ClassFile
end PhpGraft
