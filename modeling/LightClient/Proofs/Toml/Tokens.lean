import LightClient.Proofs.Toml.Strings
/-!
# The tokens of a written file

A written file is put together from pieces, and each piece spells its tokens whatever comes after it (`Spells`), as long
as what comes after a word or blanks does not prolong them. Pieces that spell their tokens do so in a row
(`Spells.append`), from strings and numbers up to the file (`tokenize_write`).
-/
namespace LightClient.Toml

/-! ## Texts and their tokens -/

/-- A text begins with some tokens if something is left after it, and each of them takes a character at least. -/
structure Spells (cs : List Char) (ts : List Token) (rest : List Char) : Prop where
  length_le : ts.length ≤ cs.length
  return_not_mem : '\r' ∉ cs
  read : ∀ fuel, readTokens (fuel + ts.length) (cs ++ rest) = (readTokens fuel rest).map (ts ++ ·)

/-- Characters that are a token each. -/
inductive IsMark : Char → Token → Prop where
  | newline : IsMark '\n' .newline
  | equals : IsMark '=' .equals
  | comma : IsMark ',' .comma
  | leftBracket : IsMark '[' .leftBracket
  | rightBracket : IsMark ']' .rightBracket

namespace Spells

theorem nil (rest : List Char) : Spells [] [] rest where
  length_le := Nat.le_refl 0
  return_not_mem := List.not_mem_nil
  read fuel := by simp

theorem one {c : Char} {cs rest : List Char} {t : Token} (hreturn : '\r' ∉ c :: cs)
    (h : readToken c (cs ++ rest) = some (t, rest)) : Spells (c :: cs) [t] rest where
  length_le := Nat.le_add_left 1 cs.length
  return_not_mem := hreturn
  read fuel := by
    rw [List.cons_append, List.length_singleton, readTokens, h, Option.map_eq_bind]
    rfl

theorem append {cs₁ cs₂ rest : List Char} {ts₁ ts₂ : List Token} (h₁ : Spells cs₁ ts₁ (cs₂ ++ rest))
    (h₂ : Spells cs₂ ts₂ rest) : Spells (cs₁ ++ cs₂) (ts₁ ++ ts₂) rest where
  length_le := by
    have := h₁.length_le
    have := h₂.length_le
    simp only [List.length_append]
    omega
  return_not_mem := by
    rw [List.mem_append, not_or]
    exact ⟨h₁.return_not_mem, h₂.return_not_mem⟩
  read fuel := by
    rw [List.append_assoc, List.length_append, Nat.add_comm ts₁.length, ← Nat.add_assoc, h₁.read, h₂.read,
      Option.map_map]
    congr 1
    funext ts
    exact (List.append_assoc ts₁ ts₂ ts).symm

theorem mark {c : Char} {t : Token} {cs rest : List Char} {ts : List Token} (hc : IsMark c t)
    (hcs : Spells cs ts rest) : Spells (c :: cs) (t :: ts) rest := by
  have hone : Spells [c] [t] (cs ++ rest) := by cases hc <;> exact one (by decide) rfl
  exact hone.append hcs

end Spells

theorem foldLineEnds_eq_self : ∀ {cs : List Char}, '\r' ∉ cs → foldLineEnds cs = cs
  | [], _ => rfl
  | c :: cs, h => by
    rw [List.mem_cons, not_or] at h
    unfold foldLineEnds
    split
    · rename_i hcs
      exact absurd (List.cons.inj hcs).1.symm h.1
    · rename_i hcs
      obtain ⟨rfl, rfl⟩ := List.cons.inj hcs
      rw [foldLineEnds_eq_self h.2]
    · rename_i hcs
      cases hcs

theorem tokenize_of_spells {cs : List Char} {ts : List Token} (h : Spells cs ts []) :
    tokenize (String.ofList cs) = some ts := by
  have hread := h.read (cs.length - ts.length)
  have hnil : ∀ fuel, readTokens fuel [] = some [] := fun fuel => by cases fuel <;> rfl
  rw [Nat.sub_add_cancel h.length_le, List.append_nil, hnil, Option.map_some, List.append_nil] at hread
  have hmark : cs.head? ≠ some '\ufeff' := by
    cases cs with
    | nil => exact nofun
    | cons c cs =>
      rintro ⟨⟩
      cases hread
  unfold tokenize
  rw [String.toList_ofList, foldLineEnds_eq_self h.return_not_mem]
  dsimp only
  rw [if_neg hmark, hread]

/-! ## Words, blanks and strings -/

theorem isBlank_of_isWordChar {c : Char} (hc : isWordChar c = true) : isBlank c = false := by
  rw [isBlank, Bool.or_eq_false_iff, decide_eq_false_iff_not, decide_eq_false_iff_not]
  constructor <;> rintro rfl <;> cases hc

theorem readToken_word {c : Char} (hc : isWordChar c = true) (rest : List Char) :
    readToken c rest = some (.word (c :: rest.takeWhile isWordChar), rest.dropWhile isWordChar) := by
  unfold readToken
  split
  case h_14 =>
    rw [isBlank_of_isWordChar hc, hc]
    rfl
  all_goals cases hc

theorem return_not_mem_word {w : List Char} (hw : ∀ c ∈ w, isWordChar c = true) : '\r' ∉ w :=
  fun h => nomatch hw _ h

theorem spells_word {w rest : List Char} (hw : w ≠ []) (hword : ∀ c ∈ w, isWordChar c = true)
    (hrest : ∀ c ∈ rest.head?, isWordChar c = false) : Spells w [.word w] rest := by
  obtain ⟨c, w, rfl⟩ := List.exists_cons_of_ne_nil hw
  have htail : ∀ d ∈ w, isWordChar d = true := fun d hd => hword d (List.mem_cons_of_mem c hd)
  have hstop : rest.takeWhile isWordChar = [] ∧ rest.dropWhile isWordChar = rest := by
    cases rest with
    | nil => exact ⟨rfl, rfl⟩
    | cons d rest => simp [hrest d rfl]
  refine .one (return_not_mem_word hword) ?_
  rw [readToken_word (hword c List.mem_cons_self), List.takeWhile_append_of_pos htail,
    List.dropWhile_append_of_pos htail, hstop.1, hstop.2, List.append_nil]

theorem spells_blanks {n : Nat} {rest : List Char} (hrest : ∀ c ∈ rest.head?, isBlank c = false) :
    Spells (List.replicate (n + 1) ' ') [.blank (List.replicate (n + 1) ' ')] rest := by
  have hblanks : ∀ c ∈ List.replicate n ' ', isBlank c = true := fun c hc => (List.mem_replicate.1 hc).2 ▸ rfl
  have hstop : rest.takeWhile isBlank = [] ∧ rest.dropWhile isBlank = rest := by
    cases rest with
    | nil => exact ⟨rfl, rfl⟩
    | cons d rest => simp [hrest d rfl]
  have hread : ∀ text, readToken ' ' text = some (.blank (' ' :: text.takeWhile isBlank), text.dropWhile isBlank) :=
    fun _ => rfl
  rw [List.replicate_succ]
  refine .one (by simp) ?_
  rw [hread, List.takeWhile_append_of_pos hblanks, List.dropWhile_append_of_pos hblanks, hstop.1, hstop.2,
    List.append_nil]

def stringToken (s : String) : Token := .string s.toList (StringKind.of s.toList).multiline

theorem spells_string (s : String) {rest : List Char} (hrest : ∀ c ∈ rest.head?, c ≠ '"' ∧ c ≠ '\'') :
    Spells (writeString s.toList) [stringToken s] rest := by
  obtain ⟨inner, hwritten, hread⟩ := readToken_writeString s.toList
  have hreturn := return_not_mem_writeString s.toList
  have hquote : rest.head? ≠ some (StringKind.of s.toList).quote := by
    intro h
    rcases quote_of s.toList with hq | hq
    · exact (hrest _ h).1 hq
    · exact (hrest _ h).2 hq
  rw [hwritten] at hreturn ⊢
  exact .one hreturn (hread rest hquote)

/-! ## Entries -/

def itemTokens (s : String) : List Token := [.blank (List.replicate 4 ' '), stringToken s, .comma, .newline]

theorem spells_item (s : String) (rest : List Char) : Spells (itemLine s) (itemTokens s) rest := by
  have hend : Spells ",\n".toList [.comma, .newline] rest := .mark .comma (.mark .newline (.nil rest))
  have hstring : Spells (writeString s.toList) [stringToken s] (",\n".toList ++ rest) :=
    spells_string s (by rintro c ⟨⟩; decide)
  have hblank :
      Spells "    ".toList [.blank (List.replicate 4 ' ')] (writeString s.toList ++ (",\n".toList ++ rest)) := by
    refine spells_blanks (n := 3) fun c hc => ?_
    obtain ⟨inner, hwritten, -⟩ := readToken_writeString s.toList
    rw [hwritten] at hc
    obtain rfl := Option.some.inj hc
    rcases quote_of s.toList with hq | hq <;> rw [hq] <;> rfl
  exact (hblank.append hstring).append hend

def stringsTokens : List String → List Token
  | [] => [.leftBracket, .rightBracket]
  | [s] => [.leftBracket, stringToken s, .rightBracket]
  | items => .leftBracket :: .newline :: (items.flatMap itemTokens ++ [.rightBracket])

def Field.tokens : Field → List Token
  | .number n => [.word (Nat.toDigits 10 n)]
  | .strings items => stringsTokens items

/-- A list of texts spells the tokens of all of them. -/
theorem spells_flatMap {α : Type} {text : α → List Char} {tokens : α → List Token}
    (h : ∀ x rest, Spells (text x) (tokens x) rest) : ∀ (xs : List α) (rest : List Char),
    Spells (xs.flatMap text) (xs.flatMap tokens) rest
  | [], rest => .nil rest
  | x :: xs, rest => by
    rw [List.flatMap_cons, List.flatMap_cons]
    exact (h x _).append (spells_flatMap h xs rest)

theorem spells_strings (items : List String) (rest : List Char) :
    Spells (writeStrings items) (stringsTokens items) rest := by
  have hright : Spells [']'] [.rightBracket] rest := .mark .rightBracket (.nil rest)
  match items with
  | [] => exact .mark .leftBracket hright
  | [s] =>
    have hstring : Spells (writeString s.toList) [stringToken s] ([']'] ++ rest) :=
      spells_string s (by rintro c ⟨⟩; decide)
    exact .mark .leftBracket (hstring.append hright)
  | s :: s' :: items =>
    have hitems := spells_flatMap spells_item (s :: s' :: items) ([']'] ++ rest)
    exact .mark .leftBracket (.mark .newline (hitems.append hright))

theorem isDigit_of_mem_digits {n : Nat} {c : Char} (hc : c ∈ Nat.toDigits 10 n) : c.isDigit = true :=
  Nat.isDigit_of_mem_toDigits (by decide) (by decide) hc

theorem isWordChar_of_mem_digits {n : Nat} {c : Char} (hc : c ∈ Nat.toDigits 10 n) : isWordChar c = true := by
  simp [isWordChar, Char.isAlphanum, isDigit_of_mem_digits hc]

theorem Field.write?_number {n : Nat} {cs : List Char} :
    (Field.number n).write? = some cs ↔ n < 2 ^ 63 ∧ Nat.toDigits 10 n = cs := by
  simp [Field.write?]

theorem spells_field {f : Field} {cs rest : List Char} (h : f.write? = some cs)
    (hrest : ∀ c ∈ rest.head?, isWordChar c = false) : Spells cs f.tokens rest := by
  cases f with
  | number n =>
    obtain ⟨-, rfl⟩ := Field.write?_number.1 h
    exact spells_word Nat.toDigits_ne_nil (fun _ => isWordChar_of_mem_digits) hrest
  | strings items =>
    obtain rfl := Option.some.inj h
    exact spells_strings items rest

theorem isBlank_of_head?_field {f : Field} {cs rest : List Char} (h : f.write? = some cs) :
    ∀ c ∈ (cs ++ rest).head?, isBlank c = false := by
  intro c hc
  cases f with
  | number n =>
    obtain ⟨-, rfl⟩ := Field.write?_number.1 h
    obtain ⟨d, digits, hdigits⟩ := List.exists_cons_of_ne_nil (Nat.toDigits_ne_nil (b := 10) (n := n))
    rw [hdigits] at hc
    obtain rfl := Option.some.inj hc
    exact isBlank_of_isWordChar (isWordChar_of_mem_digits (n := n) (hdigits ▸ List.mem_cons_self))
  | strings items =>
    obtain rfl := Option.some.inj h
    match items with
    | [] | [_] | _ :: _ :: _ =>
      obtain rfl := Option.some.inj hc
      rfl

/-- Names that need no quotes. -/
def IsBare (name : String) : Prop := name.toList ≠ [] ∧ ∀ c ∈ name.toList, isWordChar c = true

instance (name : String) : Decidable (IsBare name) :=
  decidable_of_iff (name.toList ≠ [] ∧ name.toList.all isWordChar = true) (by rw [IsBare, List.all_eq_true])

def entryTokens (entry : String × Field) : List Token :=
  .word entry.1.toList :: .blank [' '] :: .equals :: .blank [' '] :: (entry.2.tokens ++ [.newline])

theorem spells_entry {entry : String × Field} (hname : IsBare entry.1) {cs : List Char}
    (h : writeEntryLine entry = some cs) (rest : List Char) : Spells cs (entryTokens entry) rest := by
  obtain ⟨v, hv, rfl⟩ := Option.map_eq_some_iff.1 h
  have hend : Spells ['\n'] [.newline] rest := .mark .newline (.nil rest)
  have hvalue : Spells (v ++ ['\n']) (entry.2.tokens ++ [.newline]) rest :=
    (spells_field hv (by rintro c ⟨⟩; rfl)).append hend
  have hafter : Spells [' '] [.blank [' ']] (v ++ ['\n'] ++ rest) := by
    rw [List.append_assoc]
    exact spells_blanks (n := 0) (isBlank_of_head?_field hv)
  have hequals : Spells ('=' :: ([' '] ++ (v ++ ['\n']))) _ rest := .mark .equals (hafter.append hvalue)
  have hbefore : Spells [' '] [.blank [' ']] ('=' :: ([' '] ++ (v ++ ['\n'])) ++ rest) :=
    spells_blanks (n := 0) (by rintro c ⟨⟩; rfl)
  have hkey : Spells entry.1.toList [.word entry.1.toList] (" = ".toList ++ (v ++ ['\n']) ++ rest) :=
    spells_word hname.1 hname.2 (by rintro c ⟨⟩; rfl)
  rw [List.append_assoc, List.append_assoc]
  exact hkey.append (hbefore.append hequals)

/-! ## Sections -/

/-- What a section is written from: its name and its entries. -/
abbrev NamedFields := String × List (String × Field)

def sectionTokens (sec : NamedFields) : List Token :=
  .leftBracket :: .word sec.1.toList :: .rightBracket :: .newline :: sec.2.flatMap entryTokens

theorem mapM_cons_eq_some {α β : Type} {f : α → Option β} {x : α} {xs : List α} {ys : List β}
    (h : (x :: xs).mapM f = some ys) : ∃ y ys', f x = some y ∧ xs.mapM f = some ys' ∧ ys = y :: ys' := by
  rw [List.mapM_cons] at h
  obtain ⟨y, hy, h⟩ := Option.bind_eq_some_iff.1 h
  obtain ⟨ys', hys, h⟩ := Option.bind_eq_some_iff.1 h
  exact ⟨y, ys', hy, hys, (Option.some.inj h).symm⟩

theorem spells_entries : ∀ {entries : List (String × Field)} {lines : List (List Char)},
    (∀ e ∈ entries, IsBare e.1) → entries.mapM writeEntryLine = some lines → ∀ rest,
    Spells lines.flatten (entries.flatMap entryTokens) rest
  | [], lines, _, h, rest => by
    obtain rfl := Option.some.inj h
    exact .nil rest
  | e :: entries, lines, hbare, h, rest => by
    obtain ⟨line, lines, hline, hlines, rfl⟩ := mapM_cons_eq_some h
    rw [List.forall_mem_cons] at hbare
    exact (spells_entry hbare.1 hline _).append (spells_entries hbare.2 hlines rest)

/-- All names in a section are bare. -/
def IsBareSection (sec : NamedFields) : Prop := IsBare sec.1 ∧ ∀ e ∈ sec.2, IsBare e.1

theorem spells_section {sec : NamedFields} (hbare : IsBareSection sec) {cs : List Char}
    (h : writeSection sec = some cs) (rest : List Char) : Spells cs (sectionTokens sec) rest := by
  obtain ⟨lines, hlines, rfl⟩ := Option.map_eq_some_iff.1 h
  have hentries := spells_entries hbare.2 hlines rest
  have hend : Spells ("]\n".toList ++ lines.flatten) _ rest := .mark .rightBracket (.mark .newline hentries)
  have hname : Spells sec.1.toList [.word sec.1.toList] ("]\n".toList ++ lines.flatten ++ rest) :=
    spells_word hbare.1.1 hbare.1.2 (by rintro c ⟨⟩; rfl)
  rw [List.cons_append, List.cons_append, List.append_assoc]
  exact .mark .leftBracket (hname.append hend)

def documentTokens (sections : List NamedFields) : List Token :=
  [.newline].intercalate (sections.map sectionTokens)

theorem documentTokens_cons_cons (s s' : NamedFields) (sections : List NamedFields) :
    documentTokens (s :: s' :: sections) = sectionTokens s ++ .newline :: documentTokens (s' :: sections) := by
  simp only [documentTokens, List.map_cons, List.intercalate_cons_cons, List.append_assoc]
  rfl

theorem spells_document : ∀ {sections : List NamedFields} {texts : List (List Char)},
    (∀ s ∈ sections, IsBareSection s) → sections.mapM writeSection = some texts →
    Spells (['\n'].intercalate texts) (documentTokens sections) []
  | [], texts, _, h => by
    obtain rfl := Option.some.inj h
    exact .nil []
  | [s], texts, hbare, h => by
    obtain ⟨text, texts, htext, hnone, rfl⟩ := mapM_cons_eq_some h
    obtain rfl := Option.some.inj hnone
    have hsection := spells_section (hbare s List.mem_cons_self) htext []
    simpa [documentTokens] using hsection
  | s :: s' :: sections, texts, hbare, h => by
    obtain ⟨text, texts, htext, htexts, rfl⟩ := mapM_cons_eq_some h
    rw [List.forall_mem_cons] at hbare
    have hmore : texts ≠ [] := by
      obtain ⟨_, _, -, -, rfl⟩ := mapM_cons_eq_some htexts
      exact List.cons_ne_nil _ _
    rw [List.intercalate_cons_of_ne_nil hmore, documentTokens_cons_cons, List.append_assoc]
    exact (spells_section hbare.1 htext _).append (.mark .newline (spells_document hbare.2 htexts))

/-- **What is written has the tokens of its sections.** -/
theorem tokenize_write {sections : List NamedFields} {text : String}
    (hbare : ∀ s ∈ sections, IsBareSection s) (h : write sections = some text) :
    tokenize text = some (documentTokens sections) := by
  obtain ⟨texts, htexts, rfl⟩ := Option.map_eq_some_iff.1 h
  exact tokenize_of_spells (spells_document hbare htexts)

end LightClient.Toml
