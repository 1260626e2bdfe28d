import PhpGraft.Data
import PhpGraft.Data.Json

/-!
How strings, numbers, dates and times are written in TOML.
-/
namespace PhpGraft.Toml

def isGap (c : Char) : Bool := c == ' ' || c == '\t'

def skipGap (t : Text) : Text := t.dropWhile isGap

def isControl (c : Char) : Bool := (c.toNat < 0x20 && c != '\t') || c.toNat == 0x7F

/-- Behind a line break. -/
def newline? : Text → Option Text
  | '\n' :: t => some t
  | '\r' :: '\n' :: t => some t
  | _ => none

/-- Behind the comment, if there is one. -/
def skipComment (t : Text) : Text :=
  if t.head? == some '#' then t.dropWhile fun c => !isControl c else t

/-- Behind white space, comments and line breaks. -/
def skipLines (fuel : Nat) (t : Text) : Text :=
  match fuel with
  | 0 => t
  | fuel + 1 =>
    let t := skipComment (skipGap t)
    match newline? t with
    | some t => skipLines fuel t
    | none => t

/-- Behind what may follow a statement on its line; none if anything else follows. -/
def endOfLine? (t : Text) : Option Text :=
  let t := skipComment (skipGap t)
  if t.isEmpty then some t else newline? t

def escape? : Char → Option Char
  | 'b' => some '\x08'
  | 't' => some '\t'
  | 'n' => some '\n'
  | 'f' => some '\x0c'
  | 'r' => some '\r'
  | '"' => some '"'
  | '\\' => some '\\'
  | _ => none

def unicode? (digits : Nat) (t : Text) : Option (Char × Text) :=
  ((t.take digits).mapM Json.hexDigit?).bind fun ds =>
    let n := ds.foldl (fun n d => n * 16 + d) 0
    if ds.length = digits ∧ n.isValidChar then some (.ofNat n, t.drop digits) else none

def escaped? : Text → Option (Char × Text)
  | 'u' :: t => unicode? 4 t
  | 'U' :: t => unicode? 8 t
  | c :: t => (escape? c).map (·, t)
  | [] => none

def line? (quote : Char) (fuel : Nat) (seen t : Text) : Option (Text × Text) :=
  match fuel, t with
  | 0, _ => none
  | _, [] => none
  | fuel + 1, c :: t =>
    if c = quote then some (seen.reverse, t)
    else if isControl c then none
    else if c = '\\' ∧ quote = '"' then
      (escaped? t).bind fun r => line? quote fuel (r.1 :: seen) r.2
    else line? quote fuel (c :: seen) t

/-- Behind a line break and the blank lines after it, up to the next line with something in it. -/
def continue? (fuel : Nat) (t : Text) : Option Text :=
  match fuel, newline? (skipGap t) with
  | fuel + 1, some t => some ((continue? fuel t).getD (skipGap t))
  | _, _ => none

/-- The rest of a text in three quotes; up to two more of them may stand before the closing ones. -/
def lines? (quote : Char) (fuel : Nat) (seen t : Text) : Option (Text × Text) :=
  match fuel, t with
  | 0, _ => none
  | _, [] => none
  | fuel + 1, c :: t =>
    let quotes := ((c :: t).takeWhile (· == quote)).length
    if 3 ≤ quotes then
      let extra := min (quotes - 3) 2
      some (seen.reverse ++ List.replicate extra quote, (c :: t).drop (3 + extra))
    else match newline? (c :: t) with
      | some rest => lines? quote fuel ('\n' :: seen) rest
      | none =>
        if isControl c then none
        else if c = '\\' ∧ quote = '"' then
          match continue? (t.length + 1) t with
          | some rest => lines? quote fuel seen rest
          | none => (escaped? t).bind fun r => lines? quote fuel (r.1 :: seen) r.2
        else lines? quote fuel (c :: seen) t

def string? (t : Text) : Option (Text × Text) :=
  match t with
  | a :: b :: c :: t =>
    if (a = '"' ∨ a = '\'') ∧ a = b ∧ a = c then
      lines? a (t.length + 1) [] ((newline? t).getD t)
    else if a = '"' ∨ a = '\'' then line? a (t.length + 3) [] (b :: c :: t)
    else none
  | [a, b] => if (a = '"' ∨ a = '\'') ∧ a = b then some ([], []) else none
  | _ => none

/-! Numbers. -/

/-- The rest of some digits, between any two of which one underscore may stand. -/
def moreDigits? (isDigit : Char → Bool) : Text → Option (Text × Text)
  | [] => some ([], [])
  | ['_'] => none
  | '_' :: c :: t =>
    if isDigit c then (moreDigits? isDigit t).map fun r => (c :: r.1, r.2) else none
  | c :: t =>
    if isDigit c then (moreDigits? isDigit t).map fun r => (c :: r.1, r.2) else some ([], c :: t)

def digits? (isDigit : Char → Bool) (t : Text) : Option (Text × Text) :=
  if t.head?.any isDigit then moreDigits? isDigit t else none

def natural (radix : Nat) (ds : Text) : Nat :=
  ds.foldl (fun n c => n * radix + (Json.hexDigit? c).getD 0) 0

def integer? (n : Int) : Option (Data Text) :=
  if -Int.pow 2 63 ≤ n ∧ n < Int.pow 2 63 then some (.number (.integer n)) else none

/-- A number whose digits are not decimal. -/
def radixInteger? (t : Text) : Option (Data Text × Text) :=
  let read (radix : Nat) (t : Text) : Option (Data Text × Text) := do
    let (ds, t) ← digits? (fun c => (Json.hexDigit? c).any (· < radix)) t
    return (← integer? (natural radix ds), t)
  match t with
  | '0' :: 'x' :: t => read 16 t
  | '0' :: 'o' :: t => read 8 t
  | '0' :: 'b' :: t => read 2 t
  | _ => none

/-- A float may only be too large for binary64 if it is negative. -/
def float? (negative : Bool) (digits : Nat) (exponent : Int) : Option (Data Text) :=
  match Float64.ofDecimal? digits exponent with
  | some x => some (.number (.float (if negative then -x else x)))
  | none => if negative then some (.number (.float (-1.0 / 0.0))) else none

def fraction? : Text → Option (Option Text × Text)
  | '.' :: t => (digits? Char.isDigit t).map fun r => (some r.1, r.2)
  | t => some (none, t)

def exponent? : Text → Option (Option Int × Text)
  | [] => some (none, [])
  | e :: t =>
    if e = 'e' ∨ e = 'E' then
      let (down, t) : Bool × Text := match t with
        | '+' :: t => (false, t)
        | '-' :: t => (true, t)
        | t => (false, t)
      (digits? Char.isDigit t).map fun r =>
        (some (if down then -natural 10 r.1 else natural 10 r.1), r.2)
    else some (none, e :: t)

/-- A decimal number behind its sign. No digit follows a leading zero. -/
def decimal? (negative : Bool) (t : Text) : Option (Data Text × Text) := do
  let (whole, t) ← match t with
    | '0' :: t => some (['0'], t)
    | t => digits? Char.isDigit t
  let (fraction?, t) ← fraction? t
  let (exponent?, t) ← exponent? t
  let n := natural 10 whole
  match fraction?, exponent? with
  | none, none => return (← integer? (if negative then -n else n), t)
  | _, _ =>
    let fraction := fraction?.getD []
    let exponent := exponent?.getD 0 - fraction.length
    return (← float? negative (natural 10 (whole ++ fraction)) exponent, t)

def number? (t : Text) : Option (Data Text × Text) :=
  match radixInteger? t with
  | some r => some r
  | none =>
    let negative := t.head? == some '-'
    match if t.head?.any (fun c => c == '+' || c == '-') then t.drop 1 else t with
    | 'i' :: 'n' :: 'f' :: t =>
      some (.number (.float (if negative then -1.0 / 0.0 else 1.0 / 0.0)), t)
    | 'n' :: 'a' :: 'n' :: t => some (.number (.float (0.0 / 0.0)), t)
    | t => decimal? negative t

/-! Dates and times. -/

/-- A number of so many digits, and the rest of the text. -/
def fixed? (size : Nat) (t : Text) : Option (Nat × Text) :=
  let ds := t.take size
  if ds.length = size ∧ ds.all Char.isDigit then some (natural 10 ds, t.drop size) else none

def daysInMonth (year month : Nat) : Nat :=
  if month = 2 then
    if year % 4 = 0 ∧ (year % 100 ≠ 0 ∨ year % 400 = 0) then 29 else 28
  else if month = 4 ∨ month = 6 ∨ month = 9 ∨ month = 11 then 30
  else 31

def behind? (c : Char) (t : Text) : Option Text := if t.head? = some c then some (t.drop 1) else none

/-- Behind a date. -/
def date? (t : Text) : Option Text := do
  let (year, t) ← fixed? 4 t
  let (month, t) ← fixed? 2 (← behind? '-' t)
  let (day, t) ← fixed? 2 (← behind? '-' t)
  if 1 ≤ month ∧ month ≤ 12 ∧ 1 ≤ day ∧ day ≤ daysInMonth year month then some t else none

/-- Behind hours and minutes. -/
def minutes? (t : Text) : Option Text := do
  let (hour, t) ← fixed? 2 t
  let (minute, t) ← fixed? 2 (← behind? ':' t)
  if hour < 24 ∧ minute < 60 then some t else none

/-- Behind a time of the day. -/
def time? (t : Text) : Option Text := do
  let (second, t) ← fixed? 2 (← behind? ':' (← minutes? t))
  if 60 < second then none
  match t with
  | '.' :: rest => if rest.head?.any Char.isDigit then some (rest.dropWhile Char.isDigit) else some t
  | _ => some t

/-- Behind the offset of a time, if there is one. -/
def skipOffset (t : Text) : Text :=
  match t with
  | 'Z' :: rest | 'z' :: rest => rest
  | '+' :: rest | '-' :: rest => (minutes? rest).getD t
  | _ => t

/-- Behind a date, which a time may follow, or a time. -/
def moment? (t : Text) : Option Text :=
  match date? t with
  | none => time? t
  | some t =>
    match t with
    | 'T' :: rest | 't' :: rest | ' ' :: rest => ((time? rest).map skipOffset).getD t
    | _ => some t

/-- A date, time or number. A date or time is a table of one entry, as it is written. -/
def quantity? (t : Text) : Option (Data Text × Text) :=
  match moment? t with
  | some rest => some (.table [("date", .text (t.take (t.length - rest.length)))], rest)
  | none => number? t

end PhpGraft.Toml
