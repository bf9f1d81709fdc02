import LightClient.Toml.Token
/-!
# Dates and times of a configuration file

A moment is a date, a time of day, or both, and then it may have an offset from universal time. It is
kept as text in one form: with `T` between date and time, and with no more places of a second than
needed.
-/
namespace LightClient.Toml

structure Date where
  year : Nat
  month : Nat
  day : Nat

structure Time where
  hour : Nat
  minute : Nat
  second : Nat
  /-- Nine digits. -/
  fraction : List Char

inductive Offset where
  | universal
  | shifted (negative : Bool) (hours minutes : Nat)

/-! ## Reading -/

def dropChar (c : Char) : List Char → Option (List Char)
  | d :: rest => if d = c then some rest else none
  | [] => none

def readFixed (count : Nat) (cs : List Char) : Option (Nat × List Char) :=
  let digits := cs.take count
  if digits.length = count ∧ digits.all Char.isDigit then
    some (Nat.ofDigitChars 10 digits 0, cs.drop count)
  else none

/-- Every month may have 31 days. -/
def Date.read (cs : List Char) : Option (Date × List Char) := do
  let (year, cs) ← readFixed 4 cs
  let (month, cs) ← readFixed 2 (← dropChar '-' cs)
  let (day, cs) ← readFixed 2 (← dropChar '-' cs)
  if 1 ≤ month ∧ month ≤ 12 ∧ 1 ≤ day ∧ day ≤ 31 then return (⟨year, month, day⟩, cs)
  none

/-- The places of a second, cut or filled to nine. -/
def readFraction (cs : List Char) : Option (List Char × List Char) :=
  match cs with
  | '.' :: cs =>
    let digits := cs.takeWhile Char.isDigit
    if digits.isEmpty then none
    else some ((digits ++ List.replicate 9 '0').take 9, cs.dropWhile Char.isDigit)
  | cs => some (List.replicate 9 '0', cs)

/-- The hour may be 24, but no second is above 59. -/
def Time.read (cs : List Char) : Option (Time × List Char) := do
  let (hour, cs) ← readFixed 2 cs
  let (minute, cs) ← readFixed 2 (← dropChar ':' cs)
  let (second, cs) ← readFixed 2 (← dropChar ':' cs)
  let (fraction, cs) ← readFraction cs
  if hour ≤ 24 ∧ minute ≤ 59 ∧ second ≤ 59 then return (⟨hour, minute, second, fraction⟩, cs)
  none

def Offset.read (cs : List Char) : Option (Option Offset × List Char) := do
  let shifted (negative : Bool) (cs : List Char) : Option (Option Offset × List Char) := do
    let (hours, cs) ← readFixed 2 cs
    let (minutes, cs) ← readFixed 2 (← dropChar ':' cs)
    return (some (.shifted negative hours minutes), cs)
  match cs with
  | [] => return (none, [])
  | 'Z' :: cs | 'z' :: cs => return (some .universal, cs)
  | '+' :: cs => shifted false cs
  | '-' :: cs => shifted true cs
  | _ => none

/-! ## The kept form -/

def padded (width n : Nat) : List Char :=
  let digits := Nat.toDigits 10 n
  List.replicate (width - digits.length) '0' ++ digits

def Date.text (d : Date) : List Char :=
  padded 4 d.year ++ '-' :: padded 2 d.month ++ '-' :: padded 2 d.day

def Time.text (t : Time) : List Char :=
  let places := (t.fraction.reverse.dropWhile (· = '0')).reverse
  padded 2 t.hour ++ ':' :: padded 2 t.minute ++ ':' :: padded 2 t.second
    ++ if places.isEmpty then [] else '.' :: places

/-- An offset of no hours has a plus sign. -/
def Offset.text : Offset → List Char
  | .universal => ['Z']
  | .shifted negative hours minutes =>
    (if negative ∧ hours ≠ 0 then '-' else '+') :: padded 2 hours ++ ':' :: padded 2 minutes

def isDateEnd (c : Char) : Bool := c = 'T' || c = 't' || c = ' '

/-- The kept form of a moment that is all of the text. -/
def momentText (cs : List Char) : Option (List Char) := do
  if cs[2]? = some ':' then
    let (time, rest) ← Time.read cs
    if rest.isEmpty then some time.text else none
  else
    let (date, rest) ← Date.read cs
    match rest with
    | [] => some date.text
    | c :: rest =>
      if !isDateEnd c then none
      let (time, rest) ← Time.read rest
      let (offset, rest) ← Offset.read rest
      let zone := (offset.map Offset.text).getD []
      if rest.isEmpty then some (date.text ++ 'T' :: time.text ++ zone) else none

/-! ## From tokens -/

/-- Adds a mark and the word after it to a text, if the mark comes next. -/
def joinMarked (mark : Token) (c : Char) (text : List Char) (ts : List Token) :
    Option (List Char × List Token) :=
  if ts.head? = some mark then
    match ts.drop 1 with
    | .word w :: ts => some (text ++ c :: w, ts)
    | _ => none
  else some (text, ts)

/-- The rest of a time after its hour and the first colon. -/
def joinTime (text : List Char) (ts : List Token) : Option (List Char × List Token) :=
  match ts with
  | .word minute :: .colon :: .word second :: ts => do
    let (text, ts) ← joinMarked .period '.' (text ++ minute ++ ':' :: second) ts
    let (text, ts) ← joinMarked .plus '+' text ts
    joinMarked .colon ':' text ts
  | _ => none

/-- A moment that begins with a word. One space may stand between date and time. -/
def readMoment (w : List Char) (ts : List Token) : Option (List Char × List Token) := do
  let (text, ts) ← match ts with
    | .colon :: ts => joinTime (w ++ [':']) ts
    | .blank [' '] :: .word hour :: .colon :: ts => joinTime (w ++ ' ' :: hour ++ [':']) ts
    | .blank [' '] :: .word hour :: ts => some (w ++ ' ' :: hour, ts)
    | ts => some (w, ts)
  return (← momentText text, ts)

end LightClient.Toml
