/-!
# Values of a configuration file

A table keeps its keys in the order in which they were written.
-/
namespace LightClient.Toml

inductive Value where
  /-- A place in a list to which nothing was written. -/
  | absent
  | boolean (b : Bool)
  | integer (n : Int)
  | float (x : Float)
  | string (s : String)
  | list (items : List Value)
  | table (entries : List (String × Value))

namespace Value

/-- The entries of a table; anything else has none. -/
def entries : Value → List (String × Value)
  | .table entries => entries
  | _ => []

def get? (v : Value) (key : String) : Option Value := (v.entries.find? fun e => e.1 = key).map Prod.snd

end Value

/-- Whole numbers of 64 bits with a sign are the ones that can be read. -/
def fitsWord (n : Int) : Bool := -(2 ^ 63 : Int) ≤ n && n < 2 ^ 63

def signed (negative : Bool) (n : Nat) : Int := if negative then -n else n

/-- Writes an entry in place of the one with its key, or at the end. -/
def writeEntry {α : Type} (key : String) (v : α) : List (String × α) → List (String × α)
  | [] => [(key, v)]
  | e :: rest => if e.1 = key then (key, v) :: rest else e :: writeEntry key v rest

end LightClient.Toml
