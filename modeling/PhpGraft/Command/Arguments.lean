import PhpGraft.Command

/-!
Reading the command line, and the program as a whole: what it prints and the code it ends with.
-/
namespace PhpGraft

/-- Why no command is run. -/
inductive Detour where
  | help | version | misuse
  deriving DecidableEq, Repr

inductive OptionKind where
  | flag
  /-- May be given several times. -/
  | counted
  | value (isPath repeatable : Bool)
  | detour (detour : Detour)
  deriving DecidableEq, Repr

structure OptionRule where
  long : Text
  short? : Option Char
  kind : OptionKind
  deriving DecidableEq, Repr

/-- Options by their long names, in the order they are given, and the other words. -/
structure Given where
  options : List (Text × Text) := []
  words : List Text := []
  deriving DecidableEq, Repr

namespace Given

def option (name value : Text) (g : Given) : Given :=
  { g with options := (name, value) :: g.options }

def word (w : Text) (g : Given) : Given := { g with words := w :: g.words }

def get? (g : Given) (name : String) : Option Text := g.options.lookup name.toList

def all (g : Given) (name : String) : List Text :=
  (g.options.filter (·.1 == name.toList)).map Prod.snd

def has (g : Given) (name : String) : Bool := (g.get? name).isSome

end Given

def value (isPath : Bool) (repeatable : Bool := false) : OptionKind := .value isPath repeatable

def rule (long : String) (short? : Option Char) (kind : OptionKind) : OptionRule :=
  ⟨long.toList, short?, kind⟩

def globalRules : List OptionRule :=
  [rule "verbose" 'v' .counted, rule "config" none (value true), rule "help" 'h' (.detour .help)]

def topRules : List OptionRule := rule "version" 'V' (.detour .version) :: globalRules

def targetRules : List OptionRule :=
  [rule "path" 'p' (value true), rule "class" 'c' (value false), rule "composer" none (value true),
    rule "root" none (value true true)] ++ globalRules

/-- The options of a command. -/
def rulesOf? (command : Text) : Option (List OptionRule) :=
  if command = "create".toList then
    some ([rule "path" 'p' (value true), rule "namespace" 'n' (value false),
      rule "class" 'c' (value false)] ++ globalRules)
  else if command = "show".toList then some targetRules
  else if command = "add-method".toList then
    some ([rule "name" 'n' (value false), rule "visibility" none (value false),
      rule "body" 'b' (value false), rule "doc" 'd' (value false), rule "apply" none .flag] ++
        targetRules)
  else if command = "add-use".toList then some (rule "apply" none .flag :: targetRules)
  else if command = "batch".toList then
    some ([rule "spec" 's' (value true), rule "apply" none .flag] ++ globalRules)
  else none

/-- The options in a word of short ones, and the last of them if it still lacks its value. -/
def shortOptions (rules : List OptionRule) :
    Text → Except Detour (List (Text × Text) × Option Text)
  | [] => .ok ([], none)
  | c :: cs =>
    match rules.find? (·.short? == some c) with
    | none => .error .misuse
    | some r =>
      match r.kind with
      | .detour detour => .error detour
      | .value .. =>
        if cs.isEmpty then .ok ([], some r.long)
        else .ok ([(r.long, if cs.head? == some '=' then cs.drop 1 else cs)], none)
      | .flag | .counted =>
        match shortOptions rules cs with
        | .error detour => .error detour
        | .ok (os, last?) => .ok ((r.long, []) :: os, last?)

/-- A word starting with a dash is an option, unless it is the dash alone. -/
def isWord (arg : Text) : Bool := !arg.startsWith ['-'] || arg == ['-']

/-- The option that a word of the form `--name` or `--name=value` gives, and whether its value is
still to come. -/
def longOption (rules : List OptionRule) (arg : Text) : Except Detour (Text × Option Text × Bool) :=
  let name := (arg.drop 2).takeWhile (· != '=')
  let value? := if arg.contains '=' then some (arg.drop (name.length + 3)) else none
  match rules.find? (·.long == name) with
  | none => .error .misuse
  | some r =>
    match r.kind, value? with
    | .detour detour, none => .error detour
    | .value .., some v => .ok (name, some v, false)
    | .value .., none => .ok (name, none, true)
    | _, none => .ok (name, some [], false)
    | _, some _ => .error .misuse

/-- Whether the option may be given with the value after what has been given: it is not repeated
unless it may be, and no path is empty. -/
def OptionRule.accepts (r : OptionRule) (g : Given) (v : Text) : Bool :=
  let isNew := (g.options.lookup r.long).isNone
  match r.kind with
  | .value isPath repeatable => (isNew || repeatable) && !(isPath && v.isEmpty)
  | .flag => isNew
  | _ => true

def accept (rules : List OptionRule) (g : Given) : List (Text × Text) → Except Detour Given
  | [] => .ok g
  | (name, v) :: os =>
    if rules.all fun r => r.long != name || r.accepts g v then accept rules (g.option name v) os
    else .error .misuse

/-- Reads arguments and returns those that are left: none, or if `one` those behind the first word,
which is no word if it follows two dashes. -/
def readArguments (rules : List OptionRule) (one : Bool) (g : Given) :
    List Text → Except Detour (Given × List Text)
  | [] => .ok (g, [])
  | arg :: args =>
    if arg = ['-', '-'] then
      if one then .error .misuse else .ok (args.foldl (fun g w => g.word w) g, [])
    else if isWord arg then
      if one then .ok (g.word arg, args) else readArguments rules one (g.word arg) args
    else
      let given : Except Detour (List (Text × Text) × Option Text) :=
        if arg.startsWith ['-', '-'] then
          match longOption rules arg with
          | .error detour => .error detour
          | .ok (name, _, true) => .ok ([], some name)
          | .ok (name, v?, false) => .ok ([(name, v?.getD [])], none)
        else shortOptions rules (arg.drop 1)
      match given, args with
      | .error detour, _ => .error detour
      | .ok (os, none), args =>
        match accept rules g os with
        | .error detour => .error detour
        | .ok g => readArguments rules one g args
      | .ok (os, some name), v :: args =>
        if isWord v then
          match accept rules g (os ++ [(name, v)]) with
          | .error detour => .error detour
          | .ok g => readArguments rules one g args
        else .error .misuse
      | .ok (_, some _), [] => .error .misuse

def targetOf? (g : Given) : Option Target :=
  match g.get? "path", g.get? "class" with
  | some path, none => some (.path path)
  | none, some name => some (.classLike name (g.get? "composer") (g.all "root").reverse)
  | _, _ => none

def commandOf? (command : Text) (g : Given) : Option Command :=
  let names := g.words.reverse
  if command = "add-use".toList then do
    if names.isEmpty then none
    return .addImports (← targetOf? g) names (g.has "apply")
  else if !names.isEmpty then none
  else if command = "create".toList then do
    return .create (← g.get? "path") ⟨(g.get? "namespace").getD [], ← g.get? "class"⟩
  else if command = "show".toList then (targetOf? g).map .display
  else if command = "add-method".toList then do
    return .addMethod (← targetOf? g) ((g.get? "visibility").getD "public") (← g.get? "name")
      ((g.get? "body").getD []) (g.get? "doc") (g.has "apply")
  else if command = "batch".toList then do return .batch (← g.get? "spec") (g.has "apply")
  else none

/-- The configuration file and the command that the arguments ask for. -/
def commandOfArguments (args : List Text) : Except Detour (Option Text × Command) :=
  match readArguments topRules true {} args with
  | .error detour => .error detour
  | .ok (top, rest) =>
    match top.words with
    | [command] =>
      if command = "help".toList then .error .help
      else match rulesOf? command with
        | none => .error .misuse
        | some rules =>
          match readArguments rules false {} rest with
          | .error detour => .error detour
          | .ok (g, _) =>
            match commandOf? command g with
            | some c => .ok ((g.get? "config").or (top.get? "config"), c)
            | none => .error .misuse
    | _ => .error .misuse

/-- What a run of the program leaves behind for the one who started it. -/
structure Outcome where
  code : Nat
  output : Text
  errors : Text
  deriving DecidableEq, Repr

namespace Outcome

def usage : Text := "Usage: php-editor [OPTIONS] <COMMAND>\n"

def ofDetour : Detour → Outcome
  | .help => ⟨0, usage, []⟩
  | .version => ⟨0, "php-editor 0.2.0\n", []⟩
  | .misuse => ⟨2, [], usage⟩

def ofResult : Except Failure Text → Outcome
  | .ok output => ⟨0, output, []⟩
  | .error f => ⟨1, [], f.report⟩

end Outcome

/-- The whole program. -/
def runProgram {m : Type → Type} [Monad m] [Storage m] (args : List Text) : m Outcome := do
  match commandOfArguments args with
  | .error detour => return .ofDetour detour
  | .ok (config?, c) => return .ofResult (← (c.run config?).run)

end PhpGraft
