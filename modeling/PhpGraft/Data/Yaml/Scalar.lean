import PhpGraft.Data.Json

/-!
How scalars are written in YAML: plain, quoted and as blocks of lines. All but literal blocks are
folded: a line break between two lines becomes a space, and of several breaks the first is dropped.
-/
namespace PhpGraft.Yaml

/-- Line feed, line separator and paragraph separator. -/
def isBreak (c : Char) : Bool := c == '\n' || c.toNat == 0x2028 || c.toNat == 0x2029

def isBlank (c : Char) : Bool := c == ' ' || c == '\t'

def isGap (c : Char) : Bool := isBlank c || isBreak c

/-- At white space or at the end. -/
def atGap (t : Text) : Bool := t.head?.all isGap

/-- At the start of a line, the mark between documents. -/
def isMarker (t : Text) : Bool :=
  (t.startsWith "---" || t.startsWith "...") && atGap (t.drop 3)

def isFlowIndicator (c : Char) : Bool := ",[]\x7b\x7d".toList.contains c

def spaces (t : Text) : Nat := (t.takeWhile (· == ' ')).length

/-- White space that goes up to the start of a line. -/
def endsLine (gap : Text) : Bool := gap.getLast?.any isBreak

/-- What white space inside of a folded scalar stands for. -/
def fold (gap : Text) : Text :=
  match gap.filter isBreak with
  | [] => gap
  | ['\n'] => [' ']
  | '\n' :: breaks => breaks
  | breaks => breaks

/-- The rest of a single-quoted scalar; `seen` is what came before, backwards. -/
def single? (fuel : Nat) (seen t : Text) : Option (Text × Text) :=
  match fuel, t with
  | 0, _ => none
  | _, [] => none
  | fuel + 1, c :: rest =>
    if c = '\'' then
      match rest with
      | '\'' :: rest => single? fuel ('\'' :: seen) rest
      | rest => some (seen.reverse, rest)
    else if isGap c then
      let gap := t.takeWhile isGap
      let rest := t.drop gap.length
      if endsLine gap && isMarker rest then none
      else single? fuel ((fold gap).reverse ++ seen) rest
    else single? fuel (c :: seen) rest

def simpleEscape? : Char → Option Char
  | '0' => some '\x00'
  | 'a' => some '\x07'
  | 'b' => some '\x08'
  | 't' | '\t' => some '\t'
  | 'n' => some '\n'
  | 'v' => some '\x0b'
  | 'f' => some '\x0c'
  | 'r' => some '\r'
  | 'e' => some '\x1b'
  | ' ' => some ' '
  | '"' => some '"'
  | '/' => some '/'
  | '\\' => some '\\'
  | 'N' => some (.ofNat 0x85)
  | '_' => some (.ofNat 0xA0)
  | 'L' => some (.ofNat 0x2028)
  | 'P' => some (.ofNat 0x2029)
  | _ => none

def escapeDigits? : Char → Option Nat
  | 'x' => some 2
  | 'u' => some 4
  | 'U' => some 8
  | _ => none

def escape? (c : Char) (t : Text) : Option (Char × Text) :=
  match escapeDigits? c with
  | none => (simpleEscape? c).map (·, t)
  | some digits =>
    let code := (t.take digits).mapM Json.hexDigit?
    code.bind fun ds =>
      let n := ds.foldl (fun n d => n * 16 + d) 0
      if ds.length = digits ∧ n.isValidChar then some (.ofNat n, t.drop digits) else none

/-- The rest of a double-quoted scalar. A line break that is escaped says nothing. -/
def double? (fuel : Nat) (seen t : Text) : Option (Text × Text) :=
  match fuel, t with
  | 0, _ => none
  | _, [] => none
  | fuel + 1, c :: rest =>
    if c = '"' then some (seen.reverse, rest)
    else if c = '\\' then
      match rest with
      | [] => none
      | e :: rest =>
        if isBreak e then
          let gap := rest.takeWhile isGap
          let rest := rest.drop gap.length
          if endsLine (e :: gap) && isMarker rest then none
          else double? fuel ((gap.filter isBreak).reverse ++ seen) rest
        else (escape? e rest).bind fun r => double? fuel (r.1 :: seen) r.2
    else if isGap c then
      let gap := t.takeWhile isGap
      let rest := t.drop gap.length
      if endsLine gap && isMarker rest then none
      else double? fuel ((fold gap).reverse ++ seen) rest
    else double? fuel (c :: seen) rest

def isQuote (c : Char) : Bool := c == '"' || c == '\''

/-- A quoted scalar and what follows it. -/
def quoted? : Text → Option (Text × Text)
  | '"' :: t => double? (t.length + 1) [] t
  | '\'' :: t => single? (t.length + 1) [] t
  | _ => none

/-- Size of the part of a plain scalar without white space; none where a colon has no place. -/
def plainSize? (flow : Bool) : Text → Option Nat
  | [] => some 0
  | c :: t =>
    if isGap c then some 0
    else if c = ':' ∧ flow ∧ t.head?.any (fun d => d == '?' || isFlowIndicator d) then none
    else if (c = ':' ∧ atGap t) ∨ (flow ∧ isFlowIndicator c) then some 0
    else (plainSize? flow t).map (· + 1)

def startsPlain (flow : Bool) : Text → Bool
  | [] => false
  | c :: t =>
    if c = '-' then !t.head?.any isBlank
    else if c = '?' ∨ c = ':' then !flow && !atGap t
    else !isGap c && !(",[]\x7b\x7d#&*!|>'\"%@\x60".toList.contains c)

/-- A line starts with a tab where indentation is expected. -/
def hasTabIndent (indent : Nat) : Text → Bool
  | [] => false
  | c :: t =>
    (isBreak c && spaces t < indent && (t.drop (spaces t)).head? == some '\t') ||
      hasTabIndent indent t

/-- Column behind white space with a line break in it. -/
def lastColumn (gap : Text) : Nat := (gap.reverse.takeWhile (!isBreak ·)).length

structure Plain where
  text : Text
  /-- A line break stands behind the scalar. -/
  ended : Bool
  rest : Text

/-- A plain scalar whose further lines have at least this indentation. -/
def plain? (fuel : Nat) (flow : Bool) (indent : Nat) (seen t : Text) : Option Plain :=
  match fuel with
  | 0 => none
  | fuel + 1 =>
    match plainSize? flow t with
    | none => none
    | some size =>
      let seen := seen ++ t.take size
      let t := t.drop size
      let gap := t.takeWhile isGap
      let rest := t.drop gap.length
      let ended := gap.any isBreak
      let stops := (ended && !flow && lastColumn gap < indent) ||
        (endsLine gap && isMarker rest) || rest.head? == some '#'
      if gap.isEmpty then some ⟨seen, false, t⟩
      else if hasTabIndent indent gap then none
      else if stops || plainSize? flow rest == some 0 then some ⟨seen, ended, rest⟩
      else plain? fuel flow indent (seen ++ fold gap) rest

/-- How a block scalar ends: without line breaks, with one, or with all of them. -/
inductive Chomping where
  | strip | clip | keep
  deriving DecidableEq, Repr

def chomping? : Char → Option Chomping
  | '-' => some .strip
  | '+' => some .keep
  | _ => none

structure BlockStyle where
  folded : Bool
  chomping : Chomping
  indent? : Option Nat
  deriving DecidableEq, Repr

/-- What stands behind the bar of a block scalar, and the lines after it. -/
def blockStyle? (folded : Bool) (t : Text) : Option (BlockStyle × Text) :=
  let chomp (t : Text) : Option Chomping × Text :=
    match t.head?.bind chomping? with
    | some k => (some k, t.drop 1)
    | none => (none, t)
  let digit (t : Text) : Option Nat × Text :=
    match t with
    | c :: rest => if '1' ≤ c ∧ c ≤ '9' then (some (c.toNat - '0'.toNat), rest) else (none, t)
    | [] => (none, t)
  let (k?, t) := chomp t
  let (indent?, t) := digit t
  let (k?, t) := if k?.isSome then (k?, t) else chomp t
  let t := t.dropWhile isBlank
  let t := if t.head? == some '#' then t.dropWhile (!isBreak ·) else t
  if t.head?.all isBreak then some (⟨folded, k?.getD .clip, indent?⟩, t.drop 1) else none

/-- The line breaks in front of the next line with content, and the text from that line on.
Spaces are content beyond the indentation, if that is given. -/
def blockBreaks? (fuel : Nat) (indent? : Option Nat) (breaks t : Text) : Option (Text × Text) :=
  match fuel with
  | 0 => none
  | fuel + 1 =>
    let size := match indent? with
      | some n => min (spaces t) n
      | none => spaces t
    match t.drop size with
    | c :: rest =>
      if c = '\t' ∧ indent?.all (size < ·) then none
      else if isBreak c then blockBreaks? fuel indent? (breaks ++ [c]) rest
      else some (breaks, t)
    | [] => some (breaks, t)

/-- The deepest indentation up to the first line with content. -/
def blockIndent (fuel deepest : Nat) (t : Text) : Nat :=
  match fuel with
  | 0 => deepest
  | fuel + 1 =>
    let deepest := max deepest (spaces t)
    match t.drop (spaces t) with
    | c :: rest => if isBreak c then blockIndent fuel deepest rest else deepest
    | [] => deepest

/-- Lines from `t` on; `ending` ends the line before them, which starts with white space if
`isIndented`. -/
def blockLines? (fuel : Nat) (style : BlockStyle) (indent : Nat) (seen ending : Text)
    (isIndented : Bool) (t : Text) : Option (Text × Text) :=
  match fuel with
  | 0 => none
  | fuel + 1 =>
    match blockBreaks? (t.length + 1) (some indent) [] t with
    | none => none
    | some (breaks, t) =>
      let line := t.takeWhile (!isBreak ·)
      if indent ≤ spaces line ∧ indent < line.length then
        let content := line.drop indent
        let startsBlank := content.head?.any isBlank
        let isFolded := style.folded && ending == ['\n'] && !isIndented && !startsBlank
        let lead := if !isFolded then ending else if breaks.isEmpty then [' '] else []
        let rest := t.drop line.length
        blockLines? fuel style indent (seen ++ lead ++ breaks ++ content) (rest.take 1) startsBlank
          (rest.drop 1)
      else
        let tail := match style.chomping with
          | .strip => []
          | .clip => ending
          | .keep => ending ++ breaks
        some (seen ++ tail, t)

/-- The block scalar behind its bar, in a collection of this column if there is one; and what
follows from the start of a line on. -/
def block? (folded : Bool) (column? : Option Nat) (t : Text) : Option (Text × Text) :=
  match blockStyle? folded t with
  | none => none
  | some (style, t) =>
    let least := (column?.map (· + 1)).getD 0
    let indent := match style.indent? with
      | some n => column?.getD 0 + n
      | none => max (blockIndent (t.length + 1) 0 t) (max least 1)
    match blockBreaks? (t.length + 1) (style.indent?.map fun _ => indent) [] t with
    | none => none
    | some _ => blockLines? (t.length + 1) style indent [] [] false t

end PhpGraft.Yaml
