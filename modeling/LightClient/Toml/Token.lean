/-!
# Tokens of a configuration file

A word is a run of letters, digits, `-` and `_`: a bare key, a number or part of a date. Line ends are
tokens of their own; a carriage return counts only as part of one. Strings come in four kinds, with
one quote or three, and with escapes or without.
-/
namespace LightClient.Toml

inductive Token where
  | blank (text : List Char)
  | newline
  | comment
  | equals
  | period
  | comma
  | colon
  | plus
  | leftBrace
  | rightBrace
  | leftBracket
  | rightBracket
  | word (text : List Char)
  | string (text : List Char) (multiline : Bool)
  deriving DecidableEq

/-- Replaces each carriage return before a line feed by the line feed alone. -/
def foldLineEnds : List Char → List Char
  | '\r' :: '\n' :: rest => '\n' :: foldLineEnds rest
  | c :: rest => c :: foldLineEnds rest
  | [] => []

def isBlank (c : Char) : Bool := c = ' ' || c = '\t'

def isWordChar (c : Char) : Bool := c.isAlphanum || c = '-' || c = '_'

def isCommentChar (c : Char) : Bool := c = '\t' || ' ' ≤ c

/-- Characters that stand for themselves in a string. -/
def isPlainChar (c : Char) : Bool := c = '\t' || (' ' ≤ c && c ≠ '\x7f')

/-! ## Escapes -/

def hexValue? (c : Char) : Option Nat :=
  if '0' ≤ c ∧ c ≤ '9' then some (c.toNat - 48)
  else if 'a' ≤ c ∧ c ≤ 'f' then some (c.toNat - 87)
  else if 'A' ≤ c ∧ c ≤ 'F' then some (c.toNat - 55)
  else none

def readScalar (count : Nat) (cs : List Char) : Option (Char × List Char) := do
  let digits ← (cs.take count).mapM hexValue?
  if digits.length = count then
    let n := digits.foldl (fun n d => 16 * n + d) 0
    if n.isValidChar then return (Char.ofNat n, cs.drop count)
  none

/-- The character that an escape stands for, from the character after the backslash on. -/
def readEscape : List Char → Option (Char × List Char)
  | '"' :: rest => some ('"', rest)
  | '\\' :: rest => some ('\\', rest)
  | 'b' :: rest => some ('\x08', rest)
  | 'f' :: rest => some ('\x0c', rest)
  | 'n' :: rest => some ('\n', rest)
  | 'r' :: rest => some ('\r', rest)
  | 't' :: rest => some ('\t', rest)
  | 'u' :: rest => readScalar 4 rest
  | 'U' :: rest => readScalar 8 rest
  | _ => none

/-- What follows a backslash at the end of a line in a long string: blanks, the line end, and then
all blanks and line ends. -/
def skipLineEnd (cs : List Char) : Option (List Char) :=
  match cs.dropWhile isBlank with
  | '\n' :: rest => some (rest.dropWhile fun c => isBlank c || c = '\n')
  | _ => none

/-! ## Strings -/

structure StringKind where
  quote : Char
  multiline : Bool

/-- The end of a string, if it is here. Up to two quotes in front of a closing threefold quote belong
to the string; they come with the rest. -/
def StringKind.close? (k : StringKind) (cs : List Char) : Option (List Char × List Char) :=
  if k.multiline then
    let quotes := min (cs.takeWhile (· = k.quote)).length 5
    if 3 ≤ quotes then some (List.replicate (quotes - 3) k.quote, cs.drop quotes) else none
  else
    match cs with
    | c :: rest => if c = k.quote then some ([], rest) else none
    | [] => none

/-- The content of a string and what follows its end; `fuel` bounds the number of characters. -/
def StringKind.read (k : StringKind) : (fuel : Nat) → List Char → Option (List Char × List Char)
  | 0, _ => none
  | fuel + 1, cs =>
    match k.close? cs with
    | some done => some done
    | none =>
      match cs with
      | [] => none
      | c :: rest =>
        if c = '\\' ∧ k.quote = '"' then
          match readEscape rest with
          | some (c, rest) => (k.read fuel rest).map fun r => (c :: r.1, r.2)
          | none => if k.multiline then (skipLineEnd rest).bind (k.read fuel) else none
        else if c = '\n' ∧ k.multiline ∨ isPlainChar c then
          (k.read fuel rest).map fun r => (c :: r.1, r.2)
        else none

/-- A string from the character after its first quote on. A line end directly after a threefold quote
is not part of the string. -/
def readString (quote : Char) (cs : List Char) : Option (Token × List Char) :=
  if cs.take 2 = [quote, quote] then
    let cs := cs.drop 2
    let cs := if cs.head? = some '\n' then cs.drop 1 else cs
    (StringKind.read ⟨quote, true⟩ (cs.length + 1) cs).map fun r => (.string r.1 true, r.2)
  else
    (StringKind.read ⟨quote, false⟩ (cs.length + 1) cs).map fun r => (.string r.1 false, r.2)

/-! ## The whole text -/

def readToken (c : Char) (rest : List Char) : Option (Token × List Char) :=
  match c with
  | '\n' => some (.newline, rest)
  | '=' => some (.equals, rest)
  | '.' => some (.period, rest)
  | ',' => some (.comma, rest)
  | ':' => some (.colon, rest)
  | '+' => some (.plus, rest)
  | '\x7b' => some (.leftBrace, rest)
  | '\x7d' => some (.rightBrace, rest)
  | '[' => some (.leftBracket, rest)
  | ']' => some (.rightBracket, rest)
  | '#' => some (.comment, rest.dropWhile isCommentChar)
  | '"' => readString '"' rest
  | '\'' => readString '\'' rest
  | c =>
    if isBlank c then some (.blank (c :: rest.takeWhile isBlank), rest.dropWhile isBlank)
    else if isWordChar c then
      some (.word (c :: rest.takeWhile isWordChar), rest.dropWhile isWordChar)
    else none

def readTokens : (fuel : Nat) → List Char → Option (List Token)
  | _, [] => some []
  | 0, _ => none
  | fuel + 1, c :: rest => do
    let (token, rest) ← readToken c rest
    return token :: (← readTokens fuel rest)

/-- The tokens of a text. A byte order mark in front is left out. -/
def tokenize (text : String) : Option (List Token) :=
  let cs := foldLineEnds text.toList
  let cs := if cs.head? = some '\ufeff' then cs.drop 1 else cs
  readTokens cs.length cs

end LightClient.Toml
