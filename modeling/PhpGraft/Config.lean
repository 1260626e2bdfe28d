import PhpGraft.Data.Toml
import PhpGraft.Error
import PhpGraft.Storage
import PhpGraft.Style

/-!
Configuration files. The nearest one in a directory or above it counts.
-/
namespace PhpGraft

/-- A line ending by its word, which may also be the only key of a table and say nothing there. -/
def LineEnding.ofData? (nothing : Data Text → Bool) : Data Text → Option LineEnding
  | .text t => ofWord? t
  | .table [(t, d)] => if nothing d then ofWord? t else none
  | _ => none

/-- The style that data of some format says, in which `nothing` is how a value is left out. -/
def Style.ofData? (nothing : Data Text → Bool) (d : Data Text) : Option Style := do
  let names : List Text := ["indent", "final_newline", "line_ending"]
  if let .table es := d then
    if !es.all (names.contains ·.1) then none
  match ← d.fields? names with
  | [indent?, finalNewline?, lineEnding?] =>
    let default : Style := {}
    return {
      indent := ← (indent?.map Data.text?).getD (some default.indent)
      finalNewline := ← (finalNewline?.map Data.bool?).getD (some default.finalNewline)
      lineEnding :=
        ← (lineEnding?.map (LineEnding.ofData? nothing)).getD (some default.lineEnding) }
  | _ => none

namespace Config

def fileName : Text := ".php-editor.toml"

/-- The style that a configuration file says, whose only entry is `style`. Of a list only the first
three items are read. -/
def styleOfData? : Data Text → Option Style
  | .table [] => some {}
  | .table [(key, d)] =>
    if key = "style".toList then
      match d with
      | .list items => Style.ofData? Data.isEmpty (.list (items.take 3))
      | d => Style.ofData? Data.isEmpty d
    else none
  | _ => none

def parse (text path : Text) : Except Error Style :=
  match (Toml.read? text).bind styleOfData? with
  | none => .error (.config path .malformed)
  | some style =>
    if style.indent.all fun c => c == ' ' || c == '\t' then .ok style
    else .error (.config path .indentNotBlank)

variable {m : Type → Type} [Monad m] [Storage m]

def load (path : Text) : ExceptT Error m Style := do
  match ← (Storage.read path : m _) with
  | .error fault => throw (.io path fault)
  | .ok text => ExceptT.mk (pure (parse text path))

def findFile? : List Text → m (Option Text)
  | [] => return none
  | path :: paths => do if ← Storage.isFile path then return some path else findFile? paths

/-- The configuration file of a directory, if there is one. -/
def discover? (directory : Text) : m (Option Text) :=
  findFile? ((Path.ancestors directory).map (Path.join · fileName))

/-- The style of a directory: the default one without configuration. -/
def loadNearest (directory : Text) : ExceptT Error m Style := do
  match ← (discover? directory : m _) with
  | some path => load path
  | none => return {}

/-- The style for a file: the one that is asked for, or else that of the directory it is in. -/
def styleFor (config? : Option Text) (path : Text) : ExceptT Error m Style := do
  match config? with
  | some config => load config
  | none =>
    match (Path.parent? path).filter (!·.isEmpty) with
    | some directory => loadNearest directory
    | none => loadNearest (← (Storage.workingDirectory : m _))

end Config
end PhpGraft
