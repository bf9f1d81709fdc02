import LightClient.Toml.Value
/-!
# Layers of tables

Values come in layers, each a table that is laid over those before it. The keys of a layer are places:
`sync.max_orphans` is an entry of a section, `network.seed_list[0]` an item of a list. A table is merged
into what is in its place, and any other value replaces it.
-/
namespace LightClient.Toml

/-- A step from a value to one inside it. -/
inductive Step where
  | key (name : String)
  /-- A negative position counts from the end. -/
  | item (position : Int)
  deriving DecidableEq

abbrev Place := List Step

/-! ## Reading a place -/

def isPlaceChar (c : Char) : Bool := c.isAlphanum || c = ' ' || c = '_' || c = '-'

/-- The position between brackets, from after the first one on. -/
def readPosition (cs : List Char) : Option (Int × List Char) :=
  let isGap (c : Char) : Bool := c = ' ' || c = '\t'
  let cs := cs.dropWhile isGap
  let (negative, cs) := if cs.head? = some '-' then (true, cs.drop 1) else (false, cs)
  let digits := cs.takeWhile Char.isDigit
  match (cs.dropWhile Char.isDigit).dropWhile isGap with
  | ']' :: rest =>
    let n := signed negative (Nat.ofDigitChars 10 digits 0)
    if !digits.isEmpty && fitsWord n then some (n, rest) else none
  | _ => none

def readKey (cs : List Char) : Option (String × List Char) :=
  let name := cs.takeWhile isPlaceChar
  if name.isEmpty then none else some (String.ofList name, cs.dropWhile isPlaceChar)

def readSteps : (fuel : Nat) → List Char → Option (List Step)
  | _, [] => some []
  | 0, _ => none
  | fuel + 1, '.' :: cs => do
    let (name, cs) ← readKey cs
    return .key name :: (← readSteps fuel cs)
  | fuel + 1, '[' :: cs => do
    let (position, cs) ← readPosition cs
    return .item position :: (← readSteps fuel cs)
  | _, _ => none

/-- The place that a key names. A key of no such form is the name of an entry as it stands. -/
def placeOf (key : String) : Place :=
  let steps : Option Place := do
    let (name, cs) ← readKey key.toList
    return Step.key name :: (← readSteps cs.length cs)
  steps.getD [.key key]

/-! ## Writing to a place -/

mutual

/-- A value laid over the one in its place. -/
def overlay (old : Option Value) : Value → Value
  | .table entries => overlayAll (old.getD (.table [])) entries
  | v => v

/-- Entries laid over a value, which becomes a table if it is none and there are entries. -/
def overlayAll (old : Value) : List (String × Value) → Value
  | [] => old
  | (key, v) :: rest =>
    overlayAll (.table (writeEntry key (overlay (old.get? key) v) old.entries)) rest

end

def Value.itemList : Value → List Value
  | .list items => items
  | _ => []

def indexOf (position : Int) (length : Nat) : Nat :=
  if 0 ≤ position then position.toNat else length - position.natAbs

/-- Writes an item, with nothing at the places between the end of the list and it. -/
def writeItem (index : Nat) (v : Value) (items : List Value) : List Value :=
  (items ++ List.replicate (index + 1 - items.length) Value.absent).set index v

/-- Writes a value to a place. What stands in the way, a value that is no table or no list, is replaced. -/
def writeAt (v : Value) : Place → Value → Value
  | [], _ => v
  | [.key name], old => .table (writeEntry name (overlay (old.get? name) v) old.entries)
  | .key name :: place, old =>
    .table (writeEntry name (writeAt v place ((old.get? name).getD .absent)) old.entries)
  | .item position :: place, old =>
    let items := old.itemList
    let index := indexOf position items.length
    .list (writeItem index (writeAt v place (items[index]?.getD .absent)) items)

def addLayer (under : Value) (layer : List (String × Value)) : Value :=
  layer.foldl (fun v e => writeAt e.2 (placeOf e.1) v) under

end LightClient.Toml
