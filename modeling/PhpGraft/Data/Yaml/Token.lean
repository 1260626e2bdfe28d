import PhpGraft.Data.Yaml.Tag

/-!
YAML text as tokens. Indentation becomes the start and end of collections. Whether a scalar is a
key shows only at the colon behind it, so the places where a key may have started are kept and the
tokens for it are put there later.
-/
namespace PhpGraft.Yaml

inductive Token where
  | version (major minor : Nat)
  | handle (name : Text) (tag : Tag)
  | documentStart | documentEnd
  | blockList | blockTable | blockEnd
  | flowList | flowListEnd | flowTable | flowTableEnd
  | item | comma | key | value
  | aliasOf (name : Text)
  | anchor (name : Text)
  | tag (handle : Text) (suffix : Tag)
  | scalar (text : Text) (plain : Bool)
  deriving DecidableEq, Repr

/-- Where a character is: behind so many bytes, and in which line and column. -/
structure Place where
  index : Nat := 0
  line : Nat := 0
  column : Nat := 0
  deriving DecidableEq, Repr

namespace Place

def next (p : Place) (c : Char) : Place :=
  let index := p.index + c.utf8Size
  if isBreak c then ⟨index, p.line + 1, 0⟩ else ⟨index, p.line, p.column + 1⟩

end Place

/-- Where a key may have started. -/
structure Candidate where
  token : Nat
  place : Place
  /-- Nothing but a key can stand there. -/
  required : Bool
  deriving DecidableEq, Repr

/-- A key ends on its line and has at most 1024 bytes. -/
def Candidate.isStale (k : Candidate) (p : Place) : Bool :=
  k.place.line < p.line || k.place.index + 1024 < p.index

structure Scanner where
  rest : Text
  place : Place := {}
  tokens : Array Token := #[]
  /-- Columns of the open block collections, innermost first. -/
  columns : List Nat := []
  candidate? : Option Candidate := none
  /-- The candidates outside of each open flow collection. -/
  outer : List (Option Candidate) := []
  keyAllowed : Bool := true

namespace Scanner

def inFlow (s : Scanner) : Bool := !s.outer.isEmpty

def emit (s : Scanner) (t : Token) : Scanner := { s with tokens := s.tokens.push t }

/-- Goes on behind so many characters. -/
def drop (s : Scanner) (n : Nat) : Scanner :=
  { s with rest := s.rest.drop n, place := (s.rest.take n).foldl Place.next s.place }

/-- Goes on at `rest`, which ends the text. -/
def goTo (s : Scanner) (rest : Text) : Scanner := s.drop (s.rest.length - rest.length)

def allowKey (s : Scanner) (allowed : Bool) : Scanner := { s with keyAllowed := allowed }

/-- How many characters are white space and comments, and whether a key may start behind them. A
tab is no indentation, and a byte order mark is white space at the start of a line. -/
def gapFrom (flow atStart comment allowed : Bool) (n : Nat) : Text → Nat × Bool
  | [] => (n, allowed)
  | c :: t =>
    if isBreak c then gapFrom flow true false (allowed || !flow) (n + 1) t
    else if comment || c == ' ' || (c == '\t' && (flow || !allowed)) ||
        (atStart && c.toNat == 0xFEFF) then
      gapFrom flow false comment allowed (n + 1) t
    else if c == '#' then gapFrom flow false true allowed (n + 1) t
    else (n, allowed)

def skip (s : Scanner) : Scanner :=
  let r := gapFrom s.inFlow (s.place.column == 0) false s.keyAllowed 0 s.rest
  (s.drop r.1).allowKey r.2

def dropStale? (place : Place) : Option Candidate → Option (Option Candidate)
  | some k => if k.isStale place then if k.required then none else some none else some (some k)
  | none => some none

/-- Candidates that can no longer be keys are given up. -/
def refresh? (s : Scanner) : Option Scanner := do
  let outer ← s.outer.mapM (dropStale? s.place)
  return { s with candidate? := ← dropStale? s.place s.candidate?, outer := outer }

def forget? (s : Scanner) : Option Scanner :=
  if s.candidate?.any Candidate.required then none else some { s with candidate? := none }

/-- A key may start here. -/
def offer? (s : Scanner) : Option Scanner :=
  if s.keyAllowed then
    let k := ⟨s.tokens.size, s.place, !s.inFlow && s.columns.head? == some s.place.column⟩
    s.forget?.map fun s => { s with candidate? := some k }
  else some s

/-- Opens a block collection, unless one of this column is open. -/
def openBlock (s : Scanner) (column token : Nat) (start : Token) : Scanner :=
  if !s.inFlow && s.columns.head?.all (· < column) then
    { s with columns := column :: s.columns, tokens := s.tokens.insertIdxIfInBounds token start }
  else s

/-- Closes the block collections that are indented by more than `column`. -/
def closeBlocks (column : Int) : List Nat → Array Token → List Nat × Array Token
  | [], ts => ([], ts)
  | c :: cs, ts => if column < c then closeBlocks column cs (ts.push .blockEnd) else (c :: cs, ts)

def close (s : Scanner) (column : Int) : Scanner :=
  if s.inFlow then s
  else
    let r := closeBlocks column s.columns s.tokens
    { s with columns := r.1, tokens := r.2 }

def decimal? (t : Text) : Option Nat :=
  if t.isEmpty ∨ 9 < t.length then none
  else some (t.foldl (fun n c => n * 10 + Json.digitValue c) 0)

def versionOf? (t : Text) : Option (Token × Text) := do
  let t := t.dropWhile isBlank
  let major := t.takeWhile Char.isDigit
  match t.drop major.length with
  | '.' :: t =>
    let minor := t.takeWhile Char.isDigit
    return (.version (← decimal? major) (← decimal? minor), t.drop minor.length)
  | _ => none

def handleOf? (t : Text) : Option (Token × Text) := do
  let t := t.dropWhile isBlank
  let word := (t.drop 1).takeWhile Tag.isWordChar
  let named : Option (Text × Text) := match t, t.drop (word.length + 1) with
    | '!' :: _, '!' :: rest => some ('!' :: word ++ ['!'], rest)
    | '!' :: _, rest => if word.isEmpty then some (['!'], rest) else none
    | _, _ => none
  let (name, t) ← named
  if !t.head?.any isBlank then none
  let t := t.dropWhile isBlank
  let body := t.takeWhile (Tag.isChar true)
  let rest := t.drop body.length
  if body.isEmpty || !atGap rest then none
  return (.handle name (← Tag.decode? body), rest)

def directive? (s : Scanner) : Option Scanner := do
  let t := s.rest.drop 1
  let name := t.takeWhile Tag.isWordChar
  let t := t.drop name.length
  if !atGap t then none
  let (token, t) ←
    if name = "YAML".toList then versionOf? t
    else if name = "TAG".toList then handleOf? t
    else none
  let t := t.dropWhile isBlank
  let t := if t.head? == some '#' then t.dropWhile (!isBreak ·) else t
  if !t.head?.all isBreak then none
  return (((← (s.close (-1)).forget?).allowKey false).goTo (t.drop 1)).emit token

def marker? (s : Scanner) : Option Scanner := do
  let token := if s.rest.startsWith "---" then .documentStart else .documentEnd
  return (((← (s.close (-1)).forget?).allowKey false).emit token).drop 3

def openFlow? (s : Scanner) (start : Token) : Option Scanner := do
  let s ← s.offer?
  let s := (s.emit start).drop 1
  return { s with candidate? := none, outer := s.candidate? :: s.outer, keyAllowed := true }

def closeFlow? (s : Scanner) (stop : Token) : Option Scanner := do
  let s := (((← s.forget?).allowKey false).emit stop).drop 1
  return match s.outer with
    | k :: ks => { s with candidate? := k, outer := ks }
    | [] => s

def comma? (s : Scanner) : Option Scanner := do
  return (((← s.forget?).allowKey true).emit .comma).drop 1

/-- Block collections start where keys may. -/
def openAt? (s : Scanner) (start : Token) : Option Scanner :=
  if s.inFlow then some s
  else if s.keyAllowed then some (s.openBlock s.place.column s.tokens.size start)
  else none

def item? (s : Scanner) : Option Scanner := do
  return (((← (← s.openAt? .blockList).forget?).allowKey true).emit .item).drop 1

def key? (s : Scanner) : Option Scanner := do
  return (((← (← s.openAt? .blockTable).forget?).allowKey (!s.inFlow)).emit .key).drop 1

def value? (s : Scanner) : Option Scanner := do
  let s ← match s.candidate? with
    | some k =>
      let s := { s with tokens := s.tokens.insertIdxIfInBounds k.token .key, candidate? := none }
      some ((s.openBlock k.place.column k.token .blockTable).allowKey false)
    | none => (s.openAt? .blockTable).map (·.allowKey (!s.inFlow))
  return (s.emit .value).drop 1

/-- An anchor or alias behind its sign. -/
def name? (s : Scanner) (token : Text → Token) : Option Scanner := do
  let s ← s.offer?
  let name := (s.rest.drop 1).takeWhile Tag.isWordChar
  let rest := s.rest.drop (name.length + 1)
  let ends := atGap rest || rest.head?.any fun c => "?:,]\x7d%@\x60".toList.contains c
  if name.isEmpty || !ends then none
  return ((s.allowKey false).goTo rest).emit (token name)

def tagged? (s : Scanner) : Option Scanner := do
  let s ← s.offer?
  let r ← Tag.read? s.rest
  if !(atGap r.rest || (s.inFlow && r.rest.head? == some ',')) then none
  return ((s.allowKey false).goTo r.rest).emit (.tag r.handle r.suffix)

def block? (s : Scanner) (folded : Bool) : Option Scanner := do
  let s ← s.forget?
  let (text, rest) ← Yaml.block? folded s.columns.head? (s.rest.drop 1)
  return ((s.allowKey true).goTo rest).emit (.scalar text false)

def quoted? (s : Scanner) : Option Scanner := do
  let s ← s.offer?
  let (text, rest) ← Yaml.quoted? s.rest
  return ((s.allowKey false).goTo rest).emit (.scalar text false)

def plain? (s : Scanner) : Option Scanner := do
  let s ← s.offer?
  let indent := (s.columns.head?.map (· + 1)).getD 0
  let p ← Yaml.plain? (s.rest.length + 1) s.inFlow indent [] s.rest
  return ((s.allowKey p.ended).goTo p.rest).emit (.scalar p.text true)

/-- The token that starts with `c`, which `t` follows. -/
def token? (s : Scanner) (c : Char) (t : Text) : Option Scanner :=
  if s.place.column = 0 ∧ c = '%' then s.directive?
  else if s.place.column = 0 ∧ isMarker s.rest then s.marker?
  else if c = '[' then s.openFlow? .flowList
  else if c = '\x7b' then s.openFlow? .flowTable
  else if c = ']' then s.closeFlow? .flowListEnd
  else if c = '\x7d' then s.closeFlow? .flowTableEnd
  else if c = ',' then s.comma?
  else if c = '-' ∧ atGap t then s.item?
  else if c = '?' ∧ (s.inFlow ∨ atGap t) then s.key?
  else if c = ':' ∧ (s.inFlow ∨ atGap t) then s.value?
  else if c = '*' then s.name? .aliasOf
  else if c = '&' then s.name? .anchor
  else if c = '!' then s.tagged?
  else if (c = '|' ∨ c = '>') ∧ !s.inFlow then s.block? (c == '>')
  else if isQuote c then s.quoted?
  else if startsPlain s.inFlow s.rest then s.plain?
  else none

def run? (fuel : Nat) (s : Scanner) : Option (Array Token) :=
  match fuel with
  | 0 => none
  | fuel + 1 =>
    match s.skip.refresh? with
    | none => none
    | some s =>
      match s.rest with
      | [] => (s.close (-1)).forget?.map Scanner.tokens
      | c :: t => ((s.close s.place.column).token? c t).bind (run? fuel)

end Scanner

/-- The tokens of a text. -/
def tokens? (t : Text) : Option (List Token) :=
  (Scanner.run? (t.length + 1) { rest := t }).map Array.toList

end PhpGraft.Yaml
