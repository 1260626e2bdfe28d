import PhpGraft.Text

/-!
Numbers of data files and their decimal text: integers of 64 bits as they are, other numbers as
binary floating point. A float is written with the fewest digits that read back as it, without
exponent.
-/
namespace PhpGraft

inductive Number where
  | integer (value : Int)
  | float (value : Float)

namespace Float64

/-- Mantissa and exponent of a finite positive float: the value is `m * 2 ^ (q - 1074)`. -/
def decompose (bits : Nat) : Nat × Nat :=
  let e := bits / Nat.pow 2 52 % Nat.pow 2 11
  let m := bits % Nat.pow 2 52
  if e = 0 then (m, 0) else (m + Nat.pow 2 52, e - 1)

/-- A decimal `digits * 10 ^ exponent`. -/
structure Decimal where
  digits : Nat
  exponent : Int

/-- Without zeros at the end of the digits. -/
def Decimal.reduce (d : Decimal) : Decimal :=
  if 0 < d.digits ∧ d.digits % 10 = 0 then reduce ⟨d.digits / 10, d.exponent + 1⟩ else d
termination_by d.digits

/-- The quotient `num / (den * 10 ^ e)` as numerator and denominator. -/
def scale (num den : Nat) (e : Int) : Nat × Nat :=
  if 0 ≤ e then (num, den * Nat.pow 10 e.toNat) else (num * Nat.pow 10 (-e).toNat, den)

/-- Least `p` from `p` on with `num / den < 10 ^ p`. -/
def magnitude (num den fuel : Nat) (p : Int) : Int :=
  match fuel with
  | 0 => p
  | fuel + 1 =>
    let r := scale num den p
    if r.1 < r.2 then p else magnitude num den fuel (p + 1)

/-- On the grid of `10 ^ e`, the neighbour of `v / den` that lies between `low / den` and
`high / den` and is nearest to it. Bounds count if `closed`. -/
def neighbour? (low v high den : Nat) (closed : Bool) (e : Int) : Option Decimal :=
  let inside (d : Nat) : Bool :=
    let l := scale low den e
    let h := scale high den e
    let above := if closed then l.1 ≤ d * l.2 else l.1 < d * l.2
    let below := if closed then d * h.2 ≤ h.1 else d * h.2 < h.1
    above && below
  let r := scale v den e
  let d := r.1 / r.2
  let down := inside d
  let up := inside (d + 1)
  let nearer := 2 * (r.1 % r.2) < r.2
  if down && (nearer || !up) then some ⟨d, e⟩
  else if up then some ⟨d + 1, e⟩
  else none

def shortestFrom (low v high den : Nat) (closed : Bool) (p : Int) (fuel digits : Nat) : Decimal :=
  match fuel with
  | 0 => ⟨(scale v den (p - digits)).1 / (scale v den (p - digits)).2, p - digits⟩
  | fuel + 1 =>
    match neighbour? low v high den closed (p - digits) with
    | some d => d
    | none => shortestFrom low v high den closed p fuel (digits + 1)

/-- The decimal of fewest digits among those that read back as `m * 2 ^ (q - 1074)`. -/
def shortest (m q : Nat) : Decimal :=
  let den := 4 * Nat.pow 2 1074
  let v := 4 * m * Nat.pow 2 q
  let half := 2 * Nat.pow 2 q
  let low := if m = Nat.pow 2 52 ∧ 0 < q then v - half / 2 else v - half
  let p := magnitude v den 700 (-330)
  (shortestFrom low v (v + half) den (m % 2 == 0) p 17 1).reduce

def Decimal.text (d : Decimal) : Text :=
  let ds := Nat.toDigits 10 d.digits
  if 0 ≤ d.exponent then ds ++ List.replicate d.exponent.toNat '0'
  else
    let places := (-d.exponent).toNat
    let ds := List.replicate (places + 1 - ds.length) '0' ++ ds
    ds.take (ds.length - places) ++ '.' :: ds.drop (ds.length - places)

/-- The float that is nearest to `digits * 10 ^ exponent`, unless that is out of reach. -/
def ofDecimal? (digits : Nat) (exponent : Int) : Option Float :=
  if digits = 0 ∨ exponent + (Nat.toDigits 10 digits).length < -400 then some 0
  else if 400 < exponent then none
  else
    let x := Float.ofScientific digits (decide (exponent < 0)) exponent.natAbs
    if x.isFinite then some x else none

def text (x : Float) : Text :=
  let bits := x.toBits.toNat
  let sign : Text := if bits / Nat.pow 2 63 = 1 then ['-'] else []
  let r := decompose bits
  if bits / Nat.pow 2 52 % Nat.pow 2 11 = 2047 then
    if bits % Nat.pow 2 52 = 0 then sign ++ "inf" else "NaN"
  else if r.1 = 0 then sign ++ "0"
  else sign ++ (shortest r.1 r.2).text

end Float64

def Number.text : Number → Text
  | integer n => (toString n).toList
  | float x => Float64.text x

end PhpGraft
