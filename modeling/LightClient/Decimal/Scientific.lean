import LightClient.Decimal.Ratio
/-!
# Scientific notation

The decimal text of a binary fraction with one digit before the point and a fixed number after it.
The value is rounded once, from its exact binary form, and a tie goes to the even digit.
-/
namespace LightClient.Decimal

/-- Digits after the point and exponent of ten of a positive ratio, in one number with the digit
before the point. -/
def Ratio.round (places : Nat) (r : Ratio) : Nat × Int :=
  let e := r.decimalExponent
  let scaled := r.scale 10 (places - e)
  let digits := roundDiv scaled.num scaled.den
  if digits = 10 ^ (places + 1) then (10 ^ places, e + 1) else (digits, e)

/-- A finite floating-point number with the given count of digits after the point. -/
def scientific (places : Nat) (x : Float) : String :=
  let r := Ratio.ofFloat x
  let (digits, e) := if r.num = 0 then (0, 0) else r.round places
  let text := Nat.toDigits 10 digits
  let text := List.replicate (places + 1 - text.length) '0' ++ text
  (if x < 0 then "-" else "") ++ String.ofList (text.take 1) ++ "." ++ String.ofList (text.drop 1)
    ++ "e" ++ toString e

end LightClient.Decimal
