import PhpGraft.Data.Json
import PhpGraft.Storage
import PhpGraft.Syntax.Parser

/-!
Finding the file that declares a class: by the directories of namespace prefixes, or by reading all
files below some directories.
-/
namespace PhpGraft

/-- Directories by namespace prefix, longest prefix first. A prefix is empty or ends with a
backslash. -/
structure Autoload where
  prefixes : List (Text × List Text) := []
  deriving DecidableEq, Repr

namespace Autoload

/-- A prefix in the form that names are compared with. -/
def normalizePrefix (scope : Text) : Text :=
  let core := ((Name.normalize scope).reverse.dropWhile (· == '\\')).reverse
  if core.isEmpty then [] else core ++ ['\\']

/-- Puts a new prefix behind those that are not shorter. -/
def insertPrefix (scope directory : Text) : List (Text × List Text) → List (Text × List Text)
  | [] => [(scope, [directory])]
  | e :: es =>
    if scope.byteSize ≤ e.1.byteSize then e :: insertPrefix scope directory es
    else (scope, [directory]) :: e :: es

def add (a : Autoload) (scope directory : Text) : Autoload :=
  let scope := normalizePrefix scope
  if a.prefixes.any (·.1 == scope) then
    ⟨a.prefixes.map fun e => if e.1 = scope then (e.1, e.2 ++ [directory]) else e⟩
  else ⟨insertPrefix scope directory a.prefixes⟩

def ofList (entries : List (Text × Text)) : Autoload :=
  entries.foldl (fun a e => a.add e.1 e.2) {}

/-- Where a class may be declared, most likely first. -/
def candidates (a : Autoload) (name : Text) : List Text :=
  let name := Name.normalize name
  a.prefixes.flatMap fun e =>
    match name.dropPrefix? e.1 with
    | some rest =>
      let file := rest.map (fun c => if c = '\\' then '/' else c) ++ ".php"
      e.2.map (Path.join · file)
    | none => []

/-- One directory or several. -/
def directoriesOfJson? : Json → Option (List Text)
  | .list items => items.mapM Json.text?
  | j => j.text?.map ([·])

/-- Prefixes and their directories; a prefix that is repeated keeps its place. -/
def mapOfJson? (j : Json) : Option (List (Text × Text)) := do
  let es ← (← j.table?).mapM fun e => (directoriesOfJson? e.2).map (e.1, ·)
  return (Entries.ofList es).flatMap fun e => e.2.map (e.1, ·)

def sectionOfJson? (j : Json) : Option (List (Text × Text)) := do
  match ← j.fields? ["psr-4"] with
  | [map?] => (map?.map mapOfJson?).getD (some [])
  | _ => none

/-- The rules of a manifest; directories are relative to `base`. -/
def ofManifest? (base : Text) (j : Json) : Option Autoload := do
  match ← j.fields? ["autoload", "autoload-dev"] with
  | [main?, dev?] =>
    let main ← (main?.map sectionOfJson?).getD (some [])
    let dev ← (dev?.map sectionOfJson?).getD (some [])
    return ofList ((main ++ dev).map fun e => (e.1, Path.join base e.2))
  | _ => none

end Autoload

/-- Directories are not entered if they are hidden or hold the code of others. -/
def isSkippedDirectory (name : Text) : Bool :=
  name.startsWith ['.'] || name == "vendor".toList || name == "node_modules".toList

/-- The text declares a class of this name. Only a text that has the last part of the name in it
is parsed. -/
def declaresClass (text name : Text) : Bool :=
  text.lower.hasInfix (Name.short name).lower &&
    match Source.parse text with
    | .ok s => s.tree.root.declaredClasses.any (·.sameLetters name)
    | .error _ => false

inductive Locator where
  | autoload (rules : Autoload)
  | roots (directories : List Text)
  deriving Repr

namespace Locator

variable {m : Type → Type} [Monad m] [Storage m]

def findM? (p : Text → m Bool) : List Text → m (Option Text)
  | [] => return none
  | path :: paths => do if ← p path then return some path else findM? p paths

def declares (name path : Text) : m Bool := do
  match ← Storage.read path with
  | .ok text => return declaresClass text name
  | .error _ => return false

def findBelow? (name : Text) : List Text → m (Option Text)
  | [] => return none
  | top :: others => do
    let files := (← Storage.filesBelow isSkippedDirectory top).filter fun path =>
      Path.extension? path == some "php".toList
    match ← findM? (declares name) files with
    | some path => return some path
    | none => findBelow? name others

def locate? (name : Text) : Locator → m (Option Text)
  | autoload rules => findM? Storage.isFile (rules.candidates name)
  | roots directories => findBelow? (Name.normalize name) directories

/-- The first answer of several locators. -/
def locateFirst? (name : Text) : List Locator → m (Option Text)
  | [] => return none
  | l :: ls => do
    match ← l.locate? name with
    | some path => return some path
    | none => locateFirst? name ls

/-- The autoload rules of a manifest. -/
def ofManifest (path : Text) : ExceptT Error m Locator := do
  match ← (Storage.read path : m _) with
  | .error fault => throw (.io path fault)
  | .ok text =>
    match (Json.parse? text).bind (Autoload.ofManifest? ((Path.parent? path).getD [])) with
    | some rules => return autoload rules
    | none => throw (.config path .malformed)

end Locator
end PhpGraft
