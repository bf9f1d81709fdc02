import LightClient.Decimal.Ratio
import LightClient.Toml.Value
/-!
# Settings from the environment

A variable `SPV_SYNC__MAX_ORPHANS` is the setting `sync.max_orphans`: in small letters, without its
first word, and with a point for each pair of underscores. Its value is a truth value, a whole number,
another number or a string, the first of these that it can be.
-/
namespace LightClient.Environment

open Toml (Value)

/-! ## Names -/

/-- A letter as a small one. The sign for kelvin is a letter K. -/
def lowerChar (c : Char) : Char := if c = '\u212a' then 'k' else c.toLower

def pointPairs : List Char → List Char
  | '_' :: '_' :: cs => '.' :: pointPairs cs
  | c :: cs => c :: pointPairs cs
  | [] => []

/-- The key that a variable stands for, if it is one of ours. -/
def keyOf? (name : String) : Option String :=
  let cs := name.toList.map lowerChar
  let mark := "spv_".toList
  if mark.isPrefixOf cs then some (String.ofList (pointPairs (cs.drop mark.length))) else none

/-! ## Values -/

/-- The sign of a number, which may be left out, and the rest. -/
def takeSign : List Char → Bool × List Char
  | '-' :: cs => (true, cs)
  | '+' :: cs => (false, cs)
  | cs => (false, cs)

def readInteger (cs : List Char) : Option Int :=
  let (negative, digits) := takeSign cs
  let n := Toml.signed negative (Nat.ofDigitChars 10 digits 0)
  if !digits.isEmpty && digits.all Char.isDigit && Toml.fitsWord n then some n else none

def readExponent : List Char → Option Int
  | [] => some 0
  | c :: cs =>
    let (negative, digits) := takeSign cs
    if (c = 'e' || c = 'E') && !digits.isEmpty && digits.all Char.isDigit then
      some (Toml.signed negative (Nat.ofDigitChars 10 digits 0))
    else none

/-- The magnitude of a number in digits. There is a digit before the point or after it. -/
def readMagnitude (cs : List Char) : Option Float := do
  let whole := cs.takeWhile Char.isDigit
  let rest := cs.dropWhile Char.isDigit
  let (places, rest) :=
    if rest.head? = some '.' then
      ((rest.drop 1).takeWhile Char.isDigit, (rest.drop 1).dropWhile Char.isDigit)
    else ([], rest)
  if whole.isEmpty && places.isEmpty then none
  let exponent ← readExponent rest
  return Decimal.nearest (Nat.ofDigitChars 10 (whole ++ places) 0) (exponent - places.length)

def readFloat (cs : List Char) : Option Float :=
  let (negative, cs) := takeSign cs
  let word := String.ofList (cs.map Char.toLower)
  let magnitude : Option Float :=
    if word = "inf" || word = "infinity" then some (1 / 0)
    else if word = "nan" then some (0 / 0)
    else readMagnitude cs
  magnitude.map fun x => if negative then -x else x

def readValue (s : String) : Value :=
  if s.toLower = "true" then .boolean true
  else if s.toLower = "false" then .boolean false
  else
    match readInteger s.toList with
    | some n => .integer n
    | none =>
      match readFloat s.toList with
      | some x => .float x
      | none => .string s

def layer (vars : List (String × String)) : List (String × Value) :=
  vars.filterMap fun e => (keyOf? e.1).map fun key => (key, readValue e.2)

end LightClient.Environment
