import LightClient.Toml.Token
/-!
# Writing a configuration file

A file is written as sections of entries, each entry a number, or a list of strings. A string has the
plainest of four forms that can hold it: in double quotes as it is, in single quotes, in threefold
quotes of either kind, and else with escapes.
-/
namespace LightClient.Toml

inductive Field where
  | number (n : Nat)
  | strings (items : List String)
  deriving DecidableEq

/-! ## Strings -/

/-- Characters that no string can hold without an escape; a line end and a tab are not among them. -/
def needsEscape (c : Char) : Bool := !isPlainChar c && c ≠ '\n'

def threeInRow (q : Char) : List Char → Bool
  | a :: b :: c :: rest => (a = q && b = q && c = q) || threeInRow q (b :: c :: rest)
  | _ => false

def StringKind.of (cs : List Char) : StringKind :=
  let plain := !cs.any needsEscape
  let oneLine := !cs.contains '\n'
  if plain && oneLine && !cs.contains '\\' && !cs.contains '"' then ⟨'"', false⟩
  else if plain && oneLine && !cs.contains '\'' then ⟨'\'', false⟩
  else if plain && !cs.contains '\\' && !threeInRow '"' cs then ⟨'"', true⟩
  else if plain && !threeInRow '\'' cs then ⟨'\'', true⟩
  else ⟨'"', !oneLine⟩

/-- A hexadecimal digit as a capital letter or a digit. -/
def upperDigit (n : Nat) : Char := (Nat.digitChar n).toUpper

def escape (c : Char) : List Char :=
  match c with
  | '"' => ['\\', '"']
  | '\\' => ['\\', '\\']
  | '\x08' => ['\\', 'b']
  | '\t' => ['\\', 't']
  | '\n' => ['\\', 'n']
  | '\x0c' => ['\\', 'f']
  | '\r' => ['\\', 'r']
  | c => ['\\', 'u', '0', '0', upperDigit (c.toNat / 16), upperDigit (c.toNat % 16)]

/-- The content of a string in double quotes. In threefold quotes a line end stands for itself, and so
do two quotes in a row. -/
def escapeAll (multiline : Bool) : (quotes : Nat) → List Char → List Char
  | _, [] => []
  | quotes, c :: cs =>
    if c = '"' ∧ multiline ∧ quotes < 2 then c :: escapeAll multiline (quotes + 1) cs
    else if c = '\n' ∧ multiline then c :: escapeAll multiline 0 cs
    else if c = '"' ∨ c = '\\' ∨ c = '\t' ∨ !isPlainChar c then escape c ++ escapeAll multiline 0 cs
    else c :: escapeAll multiline 0 cs

/-- A string with its quotes. A line end comes first if there is another one in the string. -/
def writeString (cs : List Char) : List Char :=
  let kind := StringKind.of cs
  let quotes := List.replicate (if kind.multiline then 3 else 1) kind.quote
  let content := if kind.quote = '"' then escapeAll kind.multiline 0 cs else cs
  quotes ++ (if cs.contains '\n' && kind.multiline then ['\n'] else []) ++ content ++ quotes

/-! ## Entries -/

def itemLine (s : String) : List Char := "    ".toList ++ writeString s.toList ++ ",\n".toList

/-- One string stands beside its brackets, more have a line each. -/
def writeStrings : List String → List Char
  | [] => "[]".toList
  | [s] => '[' :: writeString s.toList ++ [']']
  | items => "[\n".toList ++ items.flatMap itemLine ++ [']']

/-- Numbers of 64 bits with a sign have a written form. -/
def Field.write? : Field → Option (List Char)
  | .number n => if n < 2 ^ 63 then some (Nat.toDigits 10 n) else none
  | .strings items => some (writeStrings items)

def writeEntryLine (entry : String × Field) : Option (List Char) :=
  entry.2.write?.map fun v => entry.1.toList ++ " = ".toList ++ v ++ ['\n']

def writeSection (sec : String × List (String × Field)) : Option (List Char) :=
  (sec.2.mapM writeEntryLine).map fun lines => '[' :: sec.1.toList ++ "]\n".toList ++ lines.flatten

/-- The text of sections with an empty line between them; none if a number is too great. -/
def write (sections : List (String × List (String × Field))) : Option String :=
  (sections.mapM writeSection).map fun texts => String.ofList (['\n'].intercalate texts)

end LightClient.Toml
