import LightClient.Decimal.Ratio
/-!
# Shortest decimals

The decimal with the fewest digits that reads back as a given floating-point number, and of those the
nearest one. It is written out in full, without an exponent.
-/
namespace LightClient.Decimal

/-- The numbers that round to `value`, over a common denominator. -/
structure Interval where
  low : Nat
  value : Nat
  high : Nat
  den : Nat
  /-- The ends belong to it. -/
  closed : Bool

def Interval.ofFloat (x : Float) : Interval :=
  let b := Binary.ofFloat x
  let unit := Ratio.scale ⟨1, 4⟩ 2 b.exponent
  { low := (4 * b.mantissa - if b.atStep then 1 else 2) * unit.num
    value := 4 * b.mantissa * unit.num
    high := (4 * b.mantissa + 2) * unit.num
    den := unit.den
    closed := b.mantissa % 2 = 0 }

/-- The multiple of a ratio that lies in the interval, if there is one, and the nearest one if there
are two on either side of the value. -/
def Interval.multiple? (i : Interval) (unit : Ratio) : Option Nat :=
  let step := unit.num * i.den
  let inside (n : Nat) : Bool :=
    let low := i.low * unit.den
    let high := i.high * unit.den
    if i.closed then low ≤ n * step && n * step ≤ high else low < n * step && n * step < high
  let value := i.value * unit.den
  let below := value / step
  match inside below, inside (below + 1) with
  | true, true => some (if 2 * (value % step) < step then below else below + 1)
  | true, false => some below
  | false, true => some (below + 1)
  | false, false => none

/-- Digits and exponent of ten; with seventeen digits every number reads back. -/
def shortest (x : Float) : Nat × Int :=
  let i := Interval.ofFloat x
  let first := (Ratio.ofFloat x).decimalExponent
  let found := (List.range 17).findSome? fun n : Nat =>
    let e := first - n
    (i.multiple? (Ratio.scale ⟨1, 1⟩ 10 e)).map fun digits => (digits, e)
  match found with
  | some (digits, e) => if digits = 10 then (1, e + 1) else (digits, e)
  | none => (0, 0)

/-- A number `digits * 10 ^ exponent` without an exponent. -/
def positional (digits : Nat) (exponent : Int) : List Char :=
  let text := Nat.toDigits 10 digits
  if 0 ≤ exponent then text ++ List.replicate exponent.toNat '0'
  else
    let places := (-exponent).toNat
    let text := List.replicate (places + 1 - text.length) '0' ++ text
    text.take (text.length - places) ++ '.' :: text.drop (text.length - places)

/-- The sign shows also on a zero. -/
def render (x : Float) : String :=
  let sign := if x.toBits.toNat < 2 ^ 63 then "" else "-"
  if x.isNaN then "NaN"
  else if x.isInf then sign ++ "inf"
  else if x == 0 then sign ++ "0"
  else
    let s := shortest x
    sign ++ String.ofList (positional s.1 s.2)

end LightClient.Decimal
