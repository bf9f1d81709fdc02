import LightClient.Decimal.Ratio
import LightClient.Toml.Token
import LightClient.Toml.Value
/-!
# Numbers of a configuration file

Digits may stand in groups with an underscore between two groups. Whole numbers are those of 64 bits
with a sign; a fraction or an exponent makes a floating-point number.
-/
namespace LightClient.Toml

/-- Each underscore has a digit on both sides, and there is a digit. -/
def isGrouped : (afterDigit : Bool) → List Char → Bool
  | afterDigit, [] => afterDigit
  | afterDigit, c :: rest => if c = '_' then afterDigit && isGrouped false rest else isGrouped true rest

def isDigitOf (base : Nat) (c : Char) : Bool := (hexValue? c).any (· < base)

/-- Grouped digits, without their underscores, and what follows them. -/
def readDigits (base : Nat) (cs : List Char) : Option (List Char × List Char) :=
  let isPart (c : Char) : Bool := isDigitOf base c || c = '_'
  let run := cs.takeWhile isPart
  if isGrouped false run then some (run.filter (· ≠ '_'), cs.dropWhile isPart) else none

def readSigned (cs : List Char) : Option (Bool × List Char × List Char) :=
  match cs with
  | '-' :: cs => (readDigits 10 cs).map fun r => (true, r)
  | cs => (readDigits 10 cs).map fun r => (false, r)

def ofDigits (base : Nat) (digits : List Char) : Nat :=
  digits.foldl (fun n c => base * n + (hexValue? c).getD 0) 0

def hasLeadingZero (digits : List Char) : Bool := digits.head? = some '0' && 1 < digits.length

/-- A whole number that is all of the text. -/
def readInteger (cs : List Char) : Option Int := do
  let (negative, digits, rest) ← readSigned cs
  let n := signed negative (ofDigits 10 digits)
  if rest.isEmpty && !hasLeadingZero digits && fitsWord n then some n else none

/-- A whole number in another base, which may begin with zeros. -/
def readBased (base : Nat) (cs : List Char) : Option Int := do
  let (digits, rest) ← readDigits base cs
  let n : Int := ofDigits base digits
  if rest.isEmpty && fitsWord n then some n else none

def isExponentMark (c : Char) : Bool := c = 'e' || c = 'E'

/-- The exponent at the end of a word. A plus sign ends a word, so that after it the digits are the next
word. -/
def readExponent : List Char → List Token → Option (Int × List Token)
  | [], ts => some (0, ts)
  | c :: cs, ts => do
    if !isExponentMark c then none
    if cs.isEmpty then
      let ts := if ts.head? = some .plus then ts.drop 1 else ts
      match ts with
      | .word w :: ts =>
        let (digits, rest) ← readDigits 10 w
        if rest.isEmpty then some (ofDigits 10 digits, ts) else none
      | _ => none
    else
      let (negative, digits, rest) ← readSigned cs
      if rest.isEmpty then some (signed negative (ofDigits 10 digits), ts) else none

/-- A floating-point number from its word, the word after its point if it has one, and what follows.
It has to be finite. -/
def readFloat (whole : List Char) (places : Option (List Char)) (ts : List Token) :
    Option (Value × List Token) := do
  let (negative, digits, tail) ← readSigned whole
  if hasLeadingZero digits then none
  let (fraction, tail) ← match places with
    | none => some ([], tail)
    | some places => if tail.isEmpty then readDigits 10 places else none
  let (exponent, ts) ← readExponent tail ts
  let x := Decimal.nearest (ofDigits 10 (digits ++ fraction)) (exponent - fraction.length)
  if x.isFinite then some (.float (if negative then -x else x), ts) else none

def readNumber (w : List Char) (ts : List Token) : Option (Value × List Token) :=
  match w with
  | '0' :: 'x' :: cs => (readBased 16 cs).map fun n => (.integer n, ts)
  | '0' :: 'o' :: cs => (readBased 8 cs).map fun n => (.integer n, ts)
  | '0' :: 'b' :: cs => (readBased 2 cs).map fun n => (.integer n, ts)
  | w =>
    if w.any isExponentMark then readFloat w none ts
    else
      match ts with
      | .period :: .word places :: ts => readFloat w (some places) ts
      | .period :: _ => none
      | ts =>
        if w = ['i', 'n', 'f'] then some (.float (1 / 0), ts)
        else if w = ['-', 'i', 'n', 'f'] then some (.float (-1 / 0), ts)
        else if w = ['n', 'a', 'n'] || w = ['-', 'n', 'a', 'n'] then some (.float (0 / 0), ts)
        else (readInteger w).map fun n => (.integer n, ts)

end LightClient.Toml
