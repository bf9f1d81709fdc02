/-!
# Floating-point numbers as ratios

The exact value of a finite binary fraction, and the binary fraction nearest to a ratio. A tie goes to
the even neighbour.
-/
namespace LightClient.Decimal

/-- The quotient rounded to the nearest whole number, a tie to the even one. -/
def roundDiv (num den : Nat) : Nat :=
  let q := num / den
  let r := num % den
  if 2 * r < den then q
  else if den < 2 * r then q + 1
  else q + q % 2

/-- A number that is not negative, as `num / den`. -/
structure Ratio where
  num : Nat
  den : Nat

/-- The product of a ratio and a power, which may be a negative one. -/
def Ratio.scale (r : Ratio) (base : Nat) (exponent : Int) : Ratio :=
  if 0 ≤ exponent then ⟨r.num * base ^ exponent.toNat, r.den⟩
  else ⟨r.num, r.den * base ^ (-exponent).toNat⟩

/-- A finite number as a multiple of a power of two, without its sign. -/
structure Binary where
  mantissa : Nat
  exponent : Int
  /-- The next smaller number is nearer than the next greater one. -/
  atStep : Bool

def Binary.ofFloat (x : Float) : Binary :=
  let bits := x.toBits.toNat % 2 ^ 63
  let exponent := bits / 2 ^ 52
  let fraction := bits % 2 ^ 52
  { mantissa := if exponent = 0 then fraction else 2 ^ 52 + fraction
    exponent := (max exponent 1 : Nat) - 1075
    atStep := fraction = 0 && 1 < exponent }

def Ratio.ofFloat (x : Float) : Ratio :=
  let b := Binary.ofFloat x
  Ratio.scale ⟨b.mantissa, 1⟩ 2 b.exponent

/-- How often a positive ratio below one is to be multiplied by ten until it is not, at most `fuel`
times. -/
def exponentBelow : (fuel num den : Nat) → Nat
  | 0, _, _ => 0
  | fuel + 1, num, den => if den ≤ num then 0 else exponentBelow fuel (10 * num) den + 1

def leastExponent : Nat := 400

/-- The exponent of the first digit of a positive ratio. -/
def Ratio.decimalExponent (r : Ratio) : Int :=
  if r.den ≤ r.num then (Nat.toDigits 10 (r.num / r.den)).length - 1
  else -exponentBelow leastExponent r.num r.den

/-- The exponent of two with which a positive ratio has a mantissa of 53 bits, or of fewer where the
exponent is the least one. -/
def Ratio.binaryExponent (r : Ratio) : Int :=
  let e : Int := r.num.log2 - r.den.log2
  let below := (Ratio.scale ⟨1, 1⟩ 2 e)
  max (if below.num * r.den ≤ r.num * below.den then e - 52 else e - 53) (-1074)

/-- The floating-point number nearest to a ratio; infinity if the ratio is above all of them. -/
def Ratio.toFloat (r : Ratio) : Float :=
  if r.num = 0 then 0
  else
    let e := r.binaryExponent
    let scaled := r.scale 2 (-e)
    let bits := (e + 1074).toNat * 2 ^ 52 + roundDiv scaled.num scaled.den
    Float.ofBits (.ofNat (min bits (2047 * 2 ^ 52)))

/-- The floating-point number nearest to `digits * 10 ^ exponent`. Numbers that are far out of range
are not computed. -/
def nearest (digits : Nat) (exponent : Int) : Float :=
  let places : Int := (Nat.toDigits 10 digits).length
  if digits = 0 ∨ exponent + places < -330 then 0
  else if 330 < exponent + places then Float.ofBits (.ofNat (2047 * 2 ^ 52))
  else (Ratio.scale ⟨digits, 1⟩ 10 exponent).toFloat

end LightClient.Decimal
