import PhpGraft.ClassFile
import PhpGraft.Config
import PhpGraft.Diff
import PhpGraft.Operation.Decode

/-!
The commands of the program. A command answers with what it prints, or fails with what went wrong
and why. Files are written only where a command is told to apply its changes; otherwise it shows
them as a diff.
-/
namespace PhpGraft

/-- The file to edit, by its path or by the class that it declares. -/
inductive Target where
  | path (path : Text)
  | classLike (name : Text) (manifest? : Option Text) (roots : List Text)
  deriving DecidableEq, Repr

inductive Command where
  | create (path : Text) (skeleton : Skeleton)
  | display (target : Target)
  | addMethod (target : Target) (visibility name body : Text) (doc? : Option Text) (apply : Bool)
  | addImports (target : Target) (names : List Text) (apply : Bool)
  | batch (file : Text) (apply : Bool)
  deriving DecidableEq, Repr

/-- What went wrong, and why, in order. -/
structure Failure where
  messages : List Text
  deriving DecidableEq, Repr

namespace Failure

def ofError (e : Error) : Failure := ⟨e.messages⟩

def within (context : Text) (f : Failure) : Failure := ⟨context :: f.messages⟩

/-- A message whose further lines are indented below its first. -/
def indented (margin : Text) (message : Text) : Text := .join ('\n' :: margin) (message.splitOn '\n')

def number (i : Nat) : Text :=
  let digits := (toString i).toList
  List.replicate (5 - digits.length) ' ' ++ digits ++ ": "

def report (f : Failure) : Text :=
  match f.messages with
  | [] => []
  | [top] => "Error: " ++ top ++ "\n"
  | [top, cause] => "Error: " ++ top ++ "\n\nCaused by:\n    " ++ indented "    " cause ++ "\n"
  | top :: causes =>
    let line (c : Text × Nat) : Text := "\n" ++ number c.2 ++ indented "       " c.1
    "Error: " ++ top ++ "\n\nCaused by:" ++ causes.zipIdx.flatMap line ++ "\n"

end Failure

namespace Command

variable {m : Type → Type} [Monad m] [Storage m]

def plainly {α : Type} (x : ExceptT Error m α) : ExceptT Failure m α :=
  ExceptT.adapt Failure.ofError x

def inContext {α : Type} (context : Text) (x : ExceptT Error m α) : ExceptT Failure m α :=
  ExceptT.adapt (fun e => (Failure.ofError e).within context) x

def pureInContext {α : Type} (context : Text) (x : Except Error α) : ExceptT Failure m α :=
  inContext context (ExceptT.mk (pure x))

/-- Where classes are looked for: by the manifest, if there is one, and then below the roots. -/
def locators (manifest? : Option Text) (roots : List Text) : ExceptT Failure m (List Locator) := do
  let usual : Text := "composer.json"
  let manifest? ← match manifest? with
    | some path => pure (some path)
    | none => do if ← (Storage.isFile usual : m _) then pure (some usual) else pure none
  let roots : Locator := .roots (if roots.isEmpty then ["."] else roots)
  match manifest? with
  | some path => return [← inContext ("Failed to load " ++ path) (Locator.ofManifest path), roots]
  | none => return [roots]

def openTarget (config? : Option Text) : Target → ExceptT Failure m ClassFile
  | .path path => do
    let style ← plainly (Config.styleFor config? path)
    inContext ("Failed to open " ++ path) (ClassFile.openFile path style)
  | .classLike name manifest? roots => do
    let locators ← locators manifest? roots
    let style ← plainly (Config.styleFor config? [])
    plainly (ClassFile.openClass name locators style)

def noChanges (f : ClassFile) : Text := "No changes to " ++ f.path ++ "\n"

def contextLines : Nat := 3

/-- What would change in the file. -/
def preview (f : ClassFile) : Text :=
  let diff := FileDiff.ofTexts f.path f.textBefore f.contents contextLines
  if diff.stats.isEmpty then noChanges f
  else diff.text ++ "\n" ++ diff.stats.print ++ "\n" ++
    "Dry run: re-run with --apply to write the changes.\n"

/-- Saves the file, or shows what would change. -/
def finish (f : ClassFile) (apply : Bool) : ExceptT Failure m Text := do
  if !apply then return preview f
  else if !f.isModified then return noChanges f
  else
    let _ ← inContext ("Failed to write " ++ f.path) f.save
    return (if f.isNew then "Created " else "Updated ") ++ f.path ++ "\n"

/-- Applies operations in order, counting from `i`; the first failure ends it. -/
def applyAll (i : Nat) (f : ClassFile) : List Operation → ExceptT Failure m ClassFile
  | [] => return f
  | o :: os => do
    let f ← pureInContext s!"Operation {i} failed".toList (f.apply o)
    applyAll (i + 1) f os

/-- The path that a batch names, from where the batch file is. -/
def batchPath (file : Text) (b : Batch) : Text :=
  match Path.parent? file with
  | some directory => if Path.isAbsolute b.path then b.path else Path.join directory b.path
  | none => b.path

def runBatch (config? : Option Text) (file : Text) (b : Batch) (apply : Bool) :
    ExceptT Failure m Text := do
  let path := batchPath file b
  let style ← plainly (Config.styleFor config? path)
  let f ← inContext ("Failed to open " ++ path) <|
    match b.create? with
    | some skeleton => ClassFile.openOrNew path skeleton style
    | none => ClassFile.openFile path style
  finish (← applyAll 1 f b.operations) apply

def docOfText (doc? : Option Text) : Except Failure DocBlock :=
  match doc? with
  | none => .ok {}
  | some t =>
    match (Json.read? t).bind DocBlock.ofData? with
    | some d => .ok d
    | none => .error ⟨["--doc must be a JSON object", ConfigFault.malformed.message]⟩

def run (config? : Option Text) : Command → ExceptT Failure m Text
  | create path skeleton => do
    let style ← plainly (Config.styleFor config? path)
    let _ ← inContext ("Failed to create " ++ path) (ClassFile.create path skeleton style)
    return "Created " ++ path ++ "\n"
  | display target => return (← openTarget config? target).contents
  | addMethod target visibility name body doc? apply => do
    let some visibility := Visibility.ofKeyword? visibility
      | throw (.ofError (.invalidName .visibility visibility))
    let doc ← ExceptT.mk (pure (docOfText doc?))
    let f ← openTarget config? target
    let f ← pureInContext ("Failed to add method " ++ name) (f.addMethod ⟨visibility, name, body, doc⟩)
    finish f apply
  | addImports target names apply => do
    let f ← openTarget config? target
    finish (← pureInContext "Failed to add use declarations" (f.addImports names)) apply
  | batch file apply => do
    match ← (Storage.read file : m _) with
    | .error fault => throw ⟨["Failed to read batch file " ++ file, fault.message]⟩
    | .ok text => runBatch config? file (← plainly (ExceptT.mk (pure (Batch.parse text file)))) apply

end Command
end PhpGraft
