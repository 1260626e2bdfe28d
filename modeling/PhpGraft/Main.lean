import PhpGraft.Command.Arguments

/-!
The program on the files of the machine.
-/
namespace PhpGraft

def faultOf : IO.Error → IoFault
  | .noFileOrDirectory .. => .notFound
  | .alreadyExists .. => .fileExists
  | e => .other e.toString.toList

/-- The path as the machine's file functions take it. -/
def located (path : Text) := (· / String.ofList path) <$> IO.currentDir

def isDirectory (path : Text) : IO Bool := do
  if path.isEmpty then return false else (← located path).isDir

def attempt {α : Type} (path : Text) (x : IO α) : IO (Except IoFault α) := do
  if path.isEmpty then return .error .notFound
  else if ← isDirectory path then return .error .isADirectory
  else try return .ok (← x) catch e => return .error (faultOf e)

partial def walk (skip : Text → Bool) (path : Text) : IO (List Text) := do
  if ← isDirectory path then
    let names := (← (← located path).readDir).toList.map fun e => e.fileName.toList
    let below (name : Text) : IO (List Text) := do
      let path := Path.join path name
      if skip name && (← isDirectory path) then return [] else walk skip path
    return (← (names.mergeSort fun a b => decide (a.bytes ≤ b.bytes)).mapM below).flatten
  else if path.isEmpty then return []
  else if ← (← located path).pathExists then return [path]
  else return []

instance : Storage IO where
  present path := do if path.isEmpty then return false else (← located path).pathExists
  isFile path := do
    if path.isEmpty || (← isDirectory path) then return false else (← located path).pathExists
  read path := do
    match ← attempt path (do IO.FS.readBinFile (← located path)) with
    | .error fault => return .error fault
    | .ok bytes =>
      match String.fromUTF8? bytes with
      | some text => return .ok text.toList
      | none => return .error .invalidUtf8
  write path text := attempt path do
    IO.FS.writeBinFile (← located path) (String.ofList text).toUTF8
  makeDirectories path := do
    if path.isEmpty || (← isDirectory path) then return .ok ()
    else attempt path do IO.FS.createDirAll (← located path)
  filesBelow skip root := walk skip root
  workingDirectory := return (toString (← IO.currentDir)).toList

end PhpGraft

open PhpGraft in
def main (args : List String) : IO UInt32 := do
  let outcome ← runProgram (args.map String.toList)
  (← IO.getStdout).putStr (String.ofList outcome.output)
  (← IO.getStderr).putStr (String.ofList outcome.errors)
  return outcome.code.toUInt32
