import LightClient.Toml.Moment
import LightClient.Toml.Value
/-!
# Values as they are written

A draft is a value before its tables are checked for keys given twice. A table that begins with the
reserved key stands for the moment whose text is given there, and the rest of it is passed over.
-/
namespace LightClient.Toml

abbrev Path := List String

inductive Draft where
  | plain (v : Value)
  | moment (text : String)
  | list (items : List Draft)
  /-- Keys with several parts may add entries to a table that such a key has made. -/
  | table (fromKey : Bool) (entries : List (String × Draft))

/-! ## Entries -/

/-- Adds an entry at a path; none if a part of the path before the last names what no such path has
made. -/
def addEntry : Path → Draft → List (String × Draft) → Option (List (String × Draft))
  | [], _, _ => none
  | [key], d, entries => some (entries ++ [(key, d)])
  | key :: path, d, entries => do
    let inner ← match entries.lookup key with
      | none => some []
      | some (.table true inner) => some inner
      | some _ => none
    return writeEntry key (.table true (← addEntry path d inner)) entries

def nest (entries : List (Path × Draft)) : Option (List (String × Draft)) :=
  entries.foldlM (fun made e => addEntry e.1 e.2 made) []

/-! ## Checking -/

/-- The first key of a table that stands for a moment. -/
def momentKey : String := "$__toml_private_datetime"

/-- The moment for which the first entry stands. Its text is a string, and not a moment itself. -/
def momentOf : List (String × Draft) → Option Value
  | (_, .plain (.string s)) :: _ => (momentText s.toList).map fun text => .string (String.ofList text)
  | _ => none

def tableOf (entries : List (String × Value)) : Option Value :=
  if (entries.map Prod.fst).Nodup then some (.table entries) else none

mutual

/-- The value, if every table in it that is looked at has each key once. -/
def Draft.value? : Draft → Option Value
  | .plain v => some v
  | .moment text => some (.string text)
  | .list items => (valuesOf items).map .list
  | .table _ entries =>
    if entries.head?.any fun e => e.1 = momentKey then momentOf entries
    else (entriesOf entries).bind tableOf

def valuesOf : List Draft → Option (List Value)
  | [] => some []
  | d :: items => do return (← d.value?) :: (← valuesOf items)

def entriesOf : List (String × Draft) → Option (List (String × Value))
  | [] => some []
  | (key, d) :: entries => do return (key, ← d.value?) :: (← entriesOf entries)

end

end LightClient.Toml
