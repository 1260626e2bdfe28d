import PhpGraft.Error
import PhpGraft.Path

/-!
Where files are kept. Programs over a storage say nothing about what it is.
-/
namespace PhpGraft

class Storage (m : Type → Type) where
  present : Text → m Bool
  isFile : Text → m Bool
  read : Text → m (Except IoFault Text)
  /-- Replaces the file or makes it. -/
  write : Text → Text → m (Except IoFault Unit)
  /-- Makes a directory and those it is in; one that is there already is no fault. -/
  makeDirectories : Text → m (Except IoFault Unit)
  /-- The files at and below a path: depth first, siblings by the bytes of their names, directories
  whose name is to be skipped left out. -/
  filesBelow : (Text → Bool) → Text → m (List Text)
  workingDirectory : m Text

namespace Storage

variable {m : Type → Type} [Monad m] [Storage m]

def readFile (path : Text) : ExceptT Error m Text := do
  match ← (Storage.read path : m _) with
  | .ok text => return text
  | .error .notFound => throw (.fileNotFound path)
  | .error fault => throw (.io path fault)

/-- Writes a file, and makes the directories it is in first. -/
def writeFile (path text : Text) : ExceptT Error m Unit := do
  if let some parent := (Path.parent? path).filter (!·.isEmpty) then
    if let .error fault ← (Storage.makeDirectories parent : m _) then throw (.io parent fault)
  if let .error fault ← (Storage.write path text : m _) then throw (.io path fault)

end Storage
end PhpGraft
