import LightClient.Toml.Draft
import LightClient.Toml.Number
/-!
# Reading a configuration file

A file is a list of lines: headers, which open a section, and entries. A key may have several parts, of
which all but the last name tables. No key is given twice: a table that comes from keys with several
parts is only in one section, and a section has one header, unless doubled brackets make it an item of
a list.
-/
namespace LightClient.Toml

/-! ## Tables from sections -/

structure Section where
  path : Path
  isItem : Bool
  entries : List (String × Draft)

/-- The section below a key, if its path begins with the key. -/
def Section.below? (key : String) (s : Section) : Option Section :=
  match s.path with
  | part :: path => if part = key then some { s with path := path } else none
  | [] => none

/-- The keys under which sections lie, each once, in the order in which they come. -/
def heads (sections : List Section) : List String :=
  (sections.filterMap fun s => s.path.head?).eraseDups

/-- The first key of the table that sections make. -/
def firstKey? : List Section → Option String
  | [] => none
  | s :: sections =>
    match s.path, s.entries with
    | key :: _, _ => some key
    | [], (key, _) :: _ => some key
    | [], [] => firstKey? sections

/-- Cuts sections before each item header of the list itself. -/
def listItems (sections : List Section) : List (List Section) :=
  (sections.foldr
    (fun s (run, done) =>
      if s.path.isEmpty && s.isItem then ([], ({ s with isItem := false } :: run) :: done)
      else (s :: run, done))
    (([] : List Section), ([] : List (List Section)))).2

/-- The values of list items, each of which begins with its own section. Sections that one item passes
over belong to the next, and none may be left after the last. -/
def itemsOf (value? : List Section → Option (Value × List Section)) :
    (passed : List Section) → List (List Section) → Option (List Value)
  | passed, [] => if passed.isEmpty then some [] else none
  | passed, run :: runs => do
    let (v, passed) ← value? (run.take 1 ++ passed ++ run.drop 1)
    return v :: (← itemsOf value? passed runs)

/-- The value that sections make, where no path has `depth` parts or more, and the sections that it
passes over if it is a moment; none if a key or a section is given twice. -/
def assemble : (depth : Nat) → List Section → Option (Value × List Section)
  | 0, _ => none
  | depth + 1, sections =>
    if firstKey? sections = some momentKey then
      match sections with
      | ⟨[], _, entries⟩ :: passed => (momentOf entries).map (·, passed)
      | _ => none
    else do
      let own ← match sections.filter (·.path.isEmpty) with
        | [] => some []
        | [s] => if s.isItem then none else entriesOf s.entries
        | _ => none
      let inner ← (heads sections).mapM fun key =>
        let members := sections.filterMap (·.below? key)
        if members.head?.any fun s => s.path.isEmpty && s.isItem then
          (itemsOf (assemble depth) [] (listItems members)).map fun items => (key, .list items)
        else
          match assemble depth members with
          | some (v, []) => some (key, v)
          | _ => none
      return (← tableOf (own ++ inner), [])

/-! ## Lines -/

def skipBlanks : List Token → List Token
  | .blank _ :: ts => skipBlanks ts
  | ts => ts

def isFiller : Token → Bool
  | .blank _ | .newline | .comment => true
  | _ => false

def skipFiller (ts : List Token) : List Token := ts.dropWhile isFiller

def endLine (ts : List Token) : Option (List Token) :=
  match skipBlanks ts with
  | [] | [.comment] => some []
  | .newline :: ts | .comment :: .newline :: ts => some ts
  | _ => none

def readPart : List Token → Option (String × List Token)
  | .word w :: ts => some (String.ofList w, ts)
  | .string s false :: ts => some (String.ofList s, ts)
  | _ => none

/-- A key with its parts, and what follows the blanks after it. -/
def readPath : (fuel : Nat) → List Token → Option (Path × List Token)
  | 0, _ => none
  | fuel + 1, ts => do
    let (part, ts) ← readPart ts
    match skipBlanks ts with
    | .period :: ts =>
      let (path, ts) ← readPath fuel (skipBlanks ts)
      return (part :: path, ts)
    | ts => return ([part], ts)

/-- A word that begins a date, not a number. -/
def isDateWord (w : List Char) : Bool :=
  w.contains 'T' || w.contains 't' ||
    ((w.drop 1).contains '-' && !(w.zip (w.drop 1)).any fun p => isExponentMark p.1 && p.2 = '-')

def readWord (w : List Char) (ts : List Token) : Option (Draft × List Token) :=
  let begins := w.head?.any fun c => c = '-' || c.isDigit
  if w = "true".toList then some (.plain (.boolean true), ts)
  else if w = "false".toList then some (.plain (.boolean false), ts)
  else if w ≠ "inf".toList ∧ w ≠ "nan".toList ∧ !begins then none
  else if isDateWord w || ts.head? = some .colon then
    (readMoment w ts).map fun r => (.moment (String.ofList r.1), r.2)
  else (readNumber w ts).map fun r => (.plain r.1, r.2)

mutual

def readValue : (fuel : Nat) → List Token → Option (Draft × List Token)
  | 0, _ => none
  | fuel + 1, ts =>
    match ts with
    | .string s _ :: ts => some (.plain (.string (String.ofList s)), ts)
    | .word w :: ts => readWord w ts
    | .plus :: .word w :: ts => (readNumber w ts).map fun r => (.plain r.1, r.2)
    | .leftBrace :: ts =>
      match skipBlanks ts with
      | .rightBrace :: ts => some (.table false [], ts)
      | ts => do
        let (entries, ts) ← readEntries fuel ts
        return (.table false (← nest entries), ts)
    | .leftBracket :: ts => (readItems fuel (skipFiller ts)).map fun r => (.list r.1, r.2)
    | _ => none

/-- The entries of a table in braces, all on one line. -/
def readEntries : (fuel : Nat) → List Token → Option (List (Path × Draft) × List Token)
  | 0, _ => none
  | fuel + 1, ts => do
    match ← readPath ts.length ts with
    | (path, .equals :: ts) =>
      let (d, ts) ← readValue fuel (skipBlanks ts)
      match skipBlanks ts with
      | .rightBrace :: ts => return ([(path, d)], ts)
      | .comma :: ts =>
        let (entries, ts) ← readEntries fuel (skipBlanks ts)
        return ((path, d) :: entries, ts)
      | _ => none
    | _ => none

/-- The items of a list in brackets. A comma may follow the last one. -/
def readItems : (fuel : Nat) → List Token → Option (List Draft × List Token)
  | 0, _ => none
  | fuel + 1, ts =>
    match ts with
    | .rightBracket :: ts => some ([], ts)
    | ts => do
      let (d, ts) ← readValue fuel ts
      match skipFiller ts with
      | .rightBracket :: ts => return ([d], ts)
      | .comma :: ts =>
        let (items, ts) ← readItems fuel (skipFiller ts)
        return (d :: items, ts)
      | _ => none

end

inductive Line where
  | header (path : Path) (isItem : Bool)
  | entry (path : Path) (d : Draft)

def readHeader (ts : List Token) : Option (Line × List Token) := do
  let (isItem, ts) := if ts.head? = some .leftBracket then (true, ts.drop 1) else (false, ts)
  let (path, ts) ← readPath ts.length (skipBlanks ts)
  match isItem, ts with
  | false, .rightBracket :: ts => return (.header path false, ← endLine ts)
  | true, .rightBracket :: .rightBracket :: ts => return (.header path true, ← endLine ts)
  | _, _ => none

/-- A value holds no more values than it has tokens, and each takes two steps at most. -/
def readEntry (ts : List Token) : Option (Line × List Token) := do
  match ← readPath ts.length ts with
  | (path, .equals :: ts) =>
    let (d, ts) ← readValue (2 * ts.length) (skipBlanks ts)
    return (.entry path d, ← endLine ts)
  | _ => none

def readLines : (fuel : Nat) → List Token → Option (List Line)
  | 0, _ => none
  | fuel + 1, ts =>
    match skipFiller ts with
    | [] => some []
    | .leftBracket :: ts => do
      let (line, ts) ← readHeader ts
      return line :: (← readLines fuel ts)
    | ts => do
      let (line, ts) ← readEntry ts
      return line :: (← readLines fuel ts)

/-- The entries before the first header, and the sections. -/
def sections : List Line → Option (List (Path × Draft) × List Section)
  | [] => some ([], [])
  | .entry path d :: lines => do
    let (entries, rest) ← sections lines
    return ((path, d) :: entries, rest)
  | .header path isItem :: lines => do
    let (entries, rest) ← sections lines
    return ([], ⟨path, isItem, ← nest entries⟩ :: rest)

def depthOf (sections : List Section) : Nat := (sections.map (·.path.length)).foldl max 0

/-- The table that a text stands for. A text that stands for a moment has no entries. -/
def parse (text : String) : Option (List (String × Value)) := do
  let tokens ← tokenize text
  let lines ← readLines (tokens.length + 1) tokens
  let (entries, rest) ← sections lines
  let (v, _) ← assemble (depthOf rest + 1) (⟨[], false, ← nest entries⟩ :: rest)
  return v.entries

end LightClient.Toml
