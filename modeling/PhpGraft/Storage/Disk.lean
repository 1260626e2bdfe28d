import PhpGraft.Storage

/-!
A storage in memory: files and directories by their absolute location, and a working directory.
-/
namespace PhpGraft

/-- What a file holds; bytes that are no text cannot be read as one. -/
inductive Content where
  | text (text : Text)
  | binary (bytes : List UInt8)
  deriving DecidableEq, Repr

inductive Entry where
  | file (content : Content)
  | directory
  deriving DecidableEq, Repr

/-- The names on the way from the root. -/
abbrev Location := List Text

structure Disk where
  entries : List (Location × Entry)
  working : Location
  deriving Repr

namespace Disk

/-- The root is always there, and so are the working directory and every directory that holds
something. -/
def find? (d : Disk) (l : Location) : Option Entry :=
  match d.entries.lookup l with
  | some e => some e
  | none =>
    if l.isPrefixOf d.working || d.entries.any fun e => l.isPrefixOf e.1 then some .directory
    else none

def put (d : Disk) (l : Location) (e : Entry) : Disk :=
  { d with entries := d.entries.filter (·.1 ≠ l) ++ [(l, e)] }

/-- Follows the parts of a path; each step but the last has to end in a directory. -/
def follow (d : Disk) (l : Location) : List Text → Except IoFault Location
  | [] => .ok l
  | part :: parts =>
    match d.find? l with
    | none => .error .notFound
    | some (.file _) => .error .notADirectory
    | some .directory =>
      if part = ['.', '.'] then follow d l.dropLast parts
      else if part = ['.'] ∨ part = ['/'] then follow d l parts
      else follow d (l ++ [part]) parts

def endsInSeparator (path : Text) : Bool := path.getLast? == some '/'

/-- Apart from separators the path ends in a part that stands for a directory. -/
def endsInDots (path : Text) : Bool :=
  let last? := ((path.splitOn '/').filter (!·.isEmpty)).getLast?
  last? == some ['.'] || last? == some ['.', '.']

/-- The location that a path spells, if all directories on the way to it are there. -/
def resolve (d : Disk) (path : Text) : Except IoFault Location :=
  if path.isEmpty then .error .notFound
  else d.follow (if Path.isAbsolute path then [] else d.working) ((Path.parts path).map Prod.fst)

/-- The location of something to look at, which is no file if the path names a directory. -/
def locate (d : Disk) (path : Text) : Except IoFault Location :=
  match d.resolve path with
  | .error fault => .error fault
  | .ok l =>
    match d.find? l with
    | some (.file _) =>
      if endsInSeparator path || endsInDots path then .error .notADirectory else .ok l
    | _ => .ok l

def entryAt? (d : Disk) (path : Text) : Option Entry :=
  match d.locate path with
  | .ok l => d.find? l
  | .error _ => none

def isFile (d : Disk) (path : Text) : Bool :=
  match d.entryAt? path with
  | some (.file _) => true
  | _ => false

def read (d : Disk) (path : Text) : Except IoFault Text :=
  match d.locate path with
  | .error fault => .error fault
  | .ok l =>
    match d.find? l with
    | none => .error .notFound
    | some .directory => .error .isADirectory
    | some (.file (.binary _)) => .error .invalidUtf8
    | some (.file (.text t)) => .ok t

def write (d : Disk) (path text : Text) : Except IoFault Disk :=
  match d.resolve path with
  | .error fault => .error fault
  | .ok l =>
    match d.find? l with
    | some .directory => .error .isADirectory
    | found? =>
      if endsInDots path then .error (if found?.isSome then .notADirectory else .notFound)
      else if endsInSeparator path then .error .isADirectory
      else .ok (d.put l (.file (.text text)))

/-- Makes one directory. -/
def makeDirectory (d : Disk) (path : Text) : Except IoFault Disk :=
  match d.locate path with
  | .error fault => .error fault
  | .ok l =>
    if (d.find? l).isSome then .error .fileExists else .ok (d.put l .directory)

def isDirectory (d : Disk) (path : Text) : Bool := d.entryAt? path == some .directory

def settle (d : Disk) (path : Text) (fault : IoFault) : Except IoFault Disk :=
  if d.isDirectory path then .ok d else .error fault

/-- Makes the directory at a path, and before it its ancestors, which are given nearest first. -/
def makeDirectories (d : Disk) (path : Text) (ancestors : List Text) : Except IoFault Disk :=
  if path.isEmpty then .ok d
  else match d.makeDirectory path, ancestors with
    | .ok d, _ => .ok d
    | .error .notFound, parent :: ancestors =>
      match makeDirectories d parent ancestors with
      | .error fault => .error fault
      | .ok d =>
        match d.makeDirectory path with
        | .ok d => .ok d
        | .error fault => settle d path fault
    | .error fault, _ => settle d path fault

/-- Depth first, siblings by the bytes of their names. -/
def locationLE : Location → Location → Bool
  | [], _ => true
  | _ :: _, [] => false
  | a :: as, b :: bs => if a = b then locationLE as bs else decide (Text.bytes a ≤ Text.bytes b)

def filesBelow (d : Disk) (skip : Text → Bool) (root : Text) : List Text :=
  match d.locate root with
  | .error _ => []
  | .ok base =>
    let below (e : Location × Entry) : Option Location :=
      match e.2, e.1.drop base.length with
      | .file _, rest =>
        if base.isPrefixOf e.1 && !rest.dropLast.any skip then some rest else none
      | .directory, _ => none
    ((d.entries.filterMap below).mergeSort locationLE).map fun rest =>
      rest.foldl Path.join root

def path (l : Location) : Text := '/' :: Text.join ['/'] l

instance : Storage (StateM Disk) where
  present path := return ((← get).entryAt? path).isSome
  isFile path := return (← get).isFile path
  read path := return (← get).read path
  write path text := modifyGet fun d =>
    match d.write path text with
    | .ok d => (.ok (), d)
    | .error fault => (.error fault, d)
  makeDirectories path := modifyGet fun d =>
    match d.makeDirectories path ((Path.ancestors path).drop 1) with
    | .ok d => (.ok (), d)
    | .error fault => (.error fault, d)
  filesBelow skip root := return (← get).filesBelow skip root
  workingDirectory := return path (← get).working

end Disk
end PhpGraft
