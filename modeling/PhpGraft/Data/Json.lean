import PhpGraft.Data

/-!
Reading and writing JSON. A text is first taken apart by the grammar alone; what its strings and
numbers say is settled only where they are read. Then containers nest at most 127 deep, and a
number is a 64-bit integer or else a float in the reach of binary64.
-/
namespace PhpGraft

/-- A number as it is written. -/
structure Json.Numeral where
  negative : Bool
  whole : Text
  /-- The digits behind the point. -/
  fraction? : Option Text
  /-- The sign and the digits of the power of ten. -/
  exponent? : Option (Bool × Text)
  deriving DecidableEq, Repr

/-- A JSON text by its grammar; strings and keys are as they stand between the quotes. -/
inductive Json where
  | null
  | bool (value : Bool)
  | number (numeral : Json.Numeral)
  | text (quoted : Text)
  | list (items : List Json)
  | table (entries : List (Text × Json))

namespace Json

def isGap (c : Char) : Bool := c == ' ' || c == '\n' || c == '\t' || c == '\r'

def skipGap (t : Text) : Text := t.dropWhile isGap

def hexDigit? (c : Char) : Option Nat :=
  if c.isDigit then some (c.toNat - '0'.toNat)
  else if 'a' ≤ c ∧ c ≤ 'f' then some (c.toNat - 'a'.toNat + 10)
  else if 'A' ≤ c ∧ c ≤ 'F' then some (c.toNat - 'A'.toNat + 10)
  else none

def hex4? (t : Text) : Option (Nat × Text) :=
  match (t.take 4).mapM hexDigit? with
  | some [a, b, c, d] => some (((a * 16 + b) * 16 + c) * 16 + d, t.drop 4)
  | _ => none

def escape? : Char → Option Char
  | '"' => some '"'
  | '\\' => some '\\'
  | '/' => some '/'
  | 'b' => some '\x08'
  | 'f' => some '\x0c'
  | 'n' => some '\n'
  | 'r' => some '\r'
  | 't' => some '\t'
  | _ => none

/-! The grammar. -/

/-- What stands before the closing quote, and what follows that; `seen` is what came before,
backwards. -/
def quoted? (seen : Text) : Text → Option (Text × Text)
  | [] => none
  | '"' :: t => some (seen.reverse, t)
  | '\\' :: 'u' :: t => if (hex4? t).isSome then quoted? ('u' :: '\\' :: seen) t else none
  | '\\' :: e :: t => if (escape? e).isSome then quoted? (e :: '\\' :: seen) t else none
  | c :: t => if c.toNat < 0x20 ∨ c = '\\' then none else quoted? (c :: seen) t

def digits (t : Text) : Text := t.takeWhile Char.isDigit

def fraction? : Text → Option (Option Text × Text)
  | '.' :: t =>
    let ds := digits t
    if ds.isEmpty then none else some (some ds, t.drop ds.length)
  | t => some (none, t)

def exponent? : Text → Option (Option (Bool × Text) × Text)
  | [] => some (none, [])
  | e :: t =>
    if e = 'e' ∨ e = 'E' then
      let (down, t) : Bool × Text := match t with
        | '+' :: t => (false, t)
        | '-' :: t => (true, t)
        | t => (false, t)
      let ds := digits t
      if ds.isEmpty then none else some (some (down, ds), t.drop ds.length)
    else some (none, e :: t)

def numeral? (t : Text) : Option (Numeral × Text) := do
  let negative := t.head? == some '-'
  let t := if negative then t.drop 1 else t
  let whole := digits t
  if whole.isEmpty || (whole.head? == some '0' && 1 < whole.length) then none
  let (fraction?, t) ← fraction? (t.drop whole.length)
  let (exponent?, t) ← exponent? t
  return (⟨negative, whole, fraction?, exponent?⟩, t)

mutual

def value? (fuel : Nat) (t : Text) : Option (Json × Text) :=
  match fuel with
  | 0 => none
  | fuel + 1 =>
    match skipGap t with
    | [] => none
    | 'n' :: 'u' :: 'l' :: 'l' :: t => some (null, t)
    | 't' :: 'r' :: 'u' :: 'e' :: t => some (bool true, t)
    | 'f' :: 'a' :: 'l' :: 's' :: 'e' :: t => some (bool false, t)
    | '"' :: t => (quoted? [] t).map fun r => (text r.1, r.2)
    | '[' :: t =>
      match skipGap t with
      | ']' :: t => some (list [], t)
      | t => (items? fuel [] t).map fun r => (list r.1, r.2)
    | '\x7b' :: t =>
      match skipGap t with
      | '\x7d' :: t => some (table [], t)
      | t => (entries? fuel [] t).map fun r => (table r.1, r.2)
    | t => (numeral? t).map fun r => (number r.1, r.2)

/-- The rest of a list from an item on; `seen` holds the items before it, backwards. -/
def items? (fuel : Nat) (seen : List Json) (t : Text) : Option (List Json × Text) :=
  match fuel with
  | 0 => none
  | fuel + 1 =>
    match value? fuel t with
    | none => none
    | some (v, t) =>
      match skipGap t with
      | ',' :: t => items? fuel (v :: seen) t
      | ']' :: t => some ((v :: seen).reverse, t)
      | _ => none

def entries? (fuel : Nat) (seen : List (Text × Json)) (t : Text) :
    Option (List (Text × Json) × Text) :=
  match fuel with
  | 0 => none
  | fuel + 1 =>
    match skipGap t with
    | '"' :: t =>
      match quoted? [] t with
      | none => none
      | some (key, t) =>
        match skipGap t with
        | ':' :: t =>
          match value? fuel t with
          | none => none
          | some (v, t) =>
            match skipGap t with
            | ',' :: t => entries? fuel ((key, v) :: seen) t
            | '\x7d' :: t => some (((key, v) :: seen).reverse, t)
            | _ => none
        | _ => none
    | _ => none

end

/-- The value that the whole text is. -/
def parse? (t : Text) : Option Json :=
  match value? (2 * t.length + 2) t with
  | some (v, rest) => if (skipGap rest).isEmpty then some v else none
  | none => none

/-! What values say. -/

/-- The character written behind `\u`, where two surrogates stand for one character. -/
def unicodeEscape? (t : Text) : Option (Char × Text) :=
  match hex4? t with
  | none => none
  | some (n, rest) =>
    if 0xD800 ≤ n ∧ n < 0xDC00 then
      match rest with
      | '\\' :: 'u' :: low =>
        match hex4? low with
        | some (k, rest) =>
          if 0xDC00 ≤ k ∧ k < 0xE000 then
            some (.ofNat (0x10000 + (n - 0xD800) * 0x400 + (k - 0xDC00)), rest)
          else none
        | none => none
      | _ => none
    else if 0xDC00 ≤ n ∧ n < 0xE000 then none
    else some (.ofNat n, rest)

def unescapeFrom? (fuel : Nat) (seen t : Text) : Option Text :=
  match fuel, t with
  | _, [] => some seen.reverse
  | 0, _ => none
  | fuel + 1, '\\' :: 'u' :: t =>
    (unicodeEscape? t).bind fun r => unescapeFrom? fuel (r.1 :: seen) r.2
  | fuel + 1, '\\' :: e :: t => (escape? e).bind fun c => unescapeFrom? fuel (c :: seen) t
  | fuel + 1, c :: t => unescapeFrom? fuel (c :: seen) t

/-- What a string says. -/
def unescape? (quoted : Text) : Option Text := unescapeFrom? quoted.length [] quoted

def digitValue (c : Char) : Nat := c.toNat - '0'.toNat

/-- Digits are taken for as long as they fit 64 bits. -/
def takeDigits (n : Nat) : Text → Nat × Text
  | [] => (n, [])
  | c :: t =>
    if n * 10 + digitValue c < Nat.pow 2 64 then takeDigits (n * 10 + digitValue c) t else (n, c :: t)

/-- `significand * 10 ^ exponent`, rounded once for each power of ten that it takes. -/
def scaleFloat? (x : Float) (exponent : Int) (fuel : Nat) : Option Float :=
  if exponent.natAbs ≤ 308 then
    let p := Float.ofScientific 1 false exponent.natAbs
    let y := if 0 ≤ exponent then x * p else x / p
    if y.isInf then none else some y
  else if x == 0 then some x
  else if 0 ≤ exponent then none
  else match fuel with
    | 0 => some 0
    | fuel + 1 => scaleFloat? (x / Float.ofScientific 1 false 308) (exponent + 308) fuel

/-- The float `significand * 10 ^ power`, times the power of ten that is written behind it. -/
def float? (significand : Nat) (power : Int) (exponent? : Option (Bool × Text)) : Option Float :=
  let (down, ds) := exponent?.getD (false, [])
  let n := ds.foldl (fun n c => n * 10 + digitValue c) 0
  if Nat.pow 2 31 ≤ n then if significand ≠ 0 ∧ !down then none else some 0
  else
    let power := if down then power - n else power + n
    scaleFloat? significand.toUInt64.toFloat power 4

/-- The number that a numeral says. Digits past 64 bits only count. -/
def Numeral.number? (n : Numeral) : Option Number :=
  let (significand, excess) := takeDigits 0 n.whole
  let power : Int := excess.length
  let signed (x : Float) : Number := .float (if n.negative then -x else x)
  match n.fraction?, n.exponent? with
  | none, none =>
    if !excess.isEmpty then (float? significand power none).map signed
    else if !n.negative then some (.integer significand)
    else if 0 < significand ∧ significand ≤ Nat.pow 2 63 then some (.integer (-significand))
    else some (.float (-significand.toUInt64.toFloat))
  | fraction?, exponent? =>
    let fraction := fraction?.getD []
    let (significand, unread) := takeDigits significand fraction
    let power := power - (fraction.length - unread.length : Nat)
    (float? significand power exponent?).map signed

mutual

/-- The data that a value says, in which containers nest at most so deep. -/
def toData? (depth : Nat) : Json → Option (Data Text)
  | null => some .null
  | bool b => some (.bool b)
  | number n => n.number?.map .number
  | text t => (unescape? t).map .text
  | list items =>
    match depth with
    | 0 => none
    | depth + 1 => (itemsToData? depth items).map .list
  | table es =>
    match depth with
    | 0 => none
    | depth + 1 => (entriesToData? depth es).map .table

def itemsToData? (depth : Nat) : List Json → Option (List (Data Text))
  | [] => some []
  | j :: js =>
    match toData? depth j, itemsToData? depth js with
    | some d, some ds => some (d :: ds)
    | _, _ => none

def entriesToData? (depth : Nat) : List (Text × Json) → Option (List (Text × Data Text))
  | [] => some []
  | (key, j) :: es =>
    match unescape? key, toData? depth j, entriesToData? depth es with
    | some key, some d, some es => some ((key, d) :: es)
    | _, _, _ => none

end

def maxDepth : Nat := 127

/-- The data that the whole text says. -/
def read? (t : Text) : Option (Data Text) := (parse? t).bind (toData? maxDepth)

def text? : Json → Option Text
  | text t => unescape? t
  | _ => none

def list? : Json → Option (List Json)
  | list items => some items
  | _ => none

def table? : Json → Option (List (Text × Json))
  | table es => es.mapM fun e => (unescape? e.1).map (·, e.2)
  | _ => none

/-- The fields of a record. Values of other entries say nothing, and need not. -/
def fields? (names : List Text) : Json → Option (List (Option Json))
  | list items => fieldsInOrder? names.length items
  | j => j.table?.bind (fieldsNamed? names)

/-! Writing. -/

def hexChar (n : Nat) : Char := Nat.digitChar n

def quoteChar (c : Char) : Text :=
  if c = '"' then ['\\', '"']
  else if c = '\\' then ['\\', '\\']
  else if c.toNat < 0x20 then
    ['\\', 'u', '0', '0', hexChar (c.toNat / 16), hexChar (c.toNat % 16)]
  else [c]

def quote (t : Text) : Text := '"' :: t.flatMap quoteChar ++ ['"']

mutual

def write : Data Text → Text
  | .null => "null"
  | .bool true => "true"
  | .bool false => "false"
  | .number n => n.text
  | .text t => quote t
  | .list items => '[' :: writeItems items ++ [']']
  | .table es => '\x7b' :: writeEntries es ++ ['\x7d']

def writeItems : List (Data Text) → Text
  | [] => []
  | [d] => write d
  | d :: ds => write d ++ ',' :: writeItems ds

def writeEntries : List (Text × Data Text) → Text
  | [] => []
  | [(key, d)] => quote key ++ ':' :: write d
  | (key, d) :: es => quote key ++ ':' :: write d ++ ',' :: writeEntries es

end
end Json
end PhpGraft
