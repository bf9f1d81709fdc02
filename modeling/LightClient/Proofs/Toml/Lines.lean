import LightClient.Proofs.Toml.Tokens
import LightClient.Settings.Fields
import LightClient.Toml.Document
/-!
# The lines of a written file

The tokens of a section are read as one header and one line for each of its entries (`readLines_section`), those of a
file as the lines of its sections (`readLines_document`). A number is read back because its digits are grouped in no way
and begin with no zero, and because it has a written form only below 2^63 (`readWord_toDigits`).
-/
namespace LightClient.Toml

/-! ## Numbers -/

theorem head?_toDigits_ne_zero {n : Nat} (hn : 0 < n) : (Nat.toDigits 10 n).head? ≠ some '0' := by
  by_cases hlt : n < 10
  · rw [Nat.toDigits_of_lt_base hlt, List.head?_cons]
    intro h
    have hzero := Nat.digitChar_eq_zero.1 (Option.some.inj h)
    omega
  · have hfirst := head?_toDigits_ne_zero (n := n / 10) (by omega)
    rw [Nat.toDigits_of_base_le (by decide) (by omega), List.head?_append]
    cases hhead : (Nat.toDigits 10 (n / 10)).head? with
    | none => exact absurd (List.head?_eq_none_iff.1 hhead) Nat.toDigits_ne_nil
    | some c => rwa [hhead] at hfirst

theorem hasLeadingZero_toDigits (n : Nat) : hasLeadingZero (Nat.toDigits 10 n) = false := by
  rw [hasLeadingZero, Bool.and_eq_false_iff, decide_eq_false_iff_not, decide_eq_false_iff_not]
  by_cases hlt : n < 10
  · right
    rw [Nat.toDigits_of_lt_base hlt]
    exact Nat.lt_irrefl 1
  · exact .inl (head?_toDigits_ne_zero (by omega))

theorem hexValue?_of_isDigit {c : Char} (hc : c.isDigit = true) : hexValue? c = some (c.toNat - '0'.toNat) := by
  rw [Char.isDigit, Bool.and_eq_true, decide_eq_true_iff, decide_eq_true_iff] at hc
  exact if_pos hc

theorem ofDigits_eq_ofDigitChars : ∀ {cs : List Char} (made : Nat), (∀ c ∈ cs, c.isDigit = true) →
    cs.foldl (fun n c => 10 * n + (hexValue? c).getD 0) made = Nat.ofDigitChars 10 cs made
  | [], _, _ => rfl
  | c :: cs, made, h => by
    rw [List.forall_mem_cons] at h
    rw [List.foldl_cons, hexValue?_of_isDigit h.1, ofDigits_eq_ofDigitChars _ h.2]
    rfl

theorem ofDigits_toDigits (n : Nat) : ofDigits 10 (Nat.toDigits 10 n) = n := by
  rw [ofDigits, ofDigits_eq_ofDigitChars 0 fun _ => isDigit_of_mem_digits]
  exact Nat.ofDigitChars_toDigits (by decide) (by decide)

theorem isGrouped_of_digits : ∀ {cs : List Char} (afterDigit : Bool), (∀ c ∈ cs, c.isDigit = true) →
    (cs = [] → afterDigit = true) → isGrouped afterDigit cs = true
  | [], _, _, h => h rfl
  | c :: cs, _, h, _ => by
    rw [List.forall_mem_cons] at h
    have hc : c ≠ '_' := by
      rintro rfl
      cases h.1
    rw [isGrouped, if_neg hc]
    exact isGrouped_of_digits true h.2 fun _ => rfl

theorem isDigitOf_of_isDigit {c : Char} (hc : c.isDigit = true) : isDigitOf 10 c = true := by
  have hlt : c.toNat - '0'.toNat < 10 := by
    rw [Char.isDigit, Bool.and_eq_true, decide_eq_true_iff, decide_eq_true_iff] at hc
    have hle : c.toNat ≤ 57 := hc.2
    show c.toNat - 48 < 10
    omega
  rw [isDigitOf, hexValue?_of_isDigit hc, Option.any_some, decide_eq_true hlt]

theorem readDigits_toDigits (n : Nat) : readDigits 10 (Nat.toDigits 10 n) = some (Nat.toDigits 10 n, []) := by
  have hdigit : ∀ c ∈ Nat.toDigits 10 n, c.isDigit = true := fun _ => isDigit_of_mem_digits
  have hpart : ∀ c ∈ Nat.toDigits 10 n, (isDigitOf 10 c || decide (c = '_')) = true := by
    intro c hc
    rw [isDigitOf_of_isDigit (hdigit c hc), Bool.true_or]
  have htake : (Nat.toDigits 10 n ++ []).takeWhile _ = Nat.toDigits 10 n ++ [] := List.takeWhile_append_of_pos hpart
  have hdrop : (Nat.toDigits 10 n ++ []).dropWhile _ = [] := List.dropWhile_append_of_pos hpart
  rw [List.append_nil] at htake hdrop
  have hfilter : (Nat.toDigits 10 n).filter (· ≠ '_') = Nat.toDigits 10 n := by
    rw [List.filter_eq_self]
    intro c hc
    rw [decide_eq_true_iff]
    rintro rfl
    cases hdigit _ hc
  have hgrouped := isGrouped_of_digits false hdigit fun h => absurd h Nat.toDigits_ne_nil
  unfold readDigits
  dsimp only
  rw [htake, hdrop, if_pos hgrouped, hfilter]

theorem readInteger_toDigits {n : Nat} (hn : n < 2 ^ 63) : readInteger (Nat.toDigits 10 n) = some (n : Int) := by
  have hsigned : readSigned (Nat.toDigits 10 n) = some (false, Nat.toDigits 10 n, []) := by
    unfold readSigned
    split
    · rename_i hcs
      have hminus : '-'.isDigit = true := isDigit_of_mem_digits (n := n) (hcs ▸ List.mem_cons_self)
      cases hminus
    · rw [readDigits_toDigits]
      rfl
  have hfits : fitsWord (n : Int) = true := by
    simp only [fitsWord, Bool.and_eq_true, decide_eq_true_eq]
    omega
  unfold readInteger
  rw [hsigned]
  simp only [Option.bind_eq_bind, Option.bind_some, ofDigits_toDigits, hasLeadingZero_toDigits, signed]
  simp [hfits]

theorem not_mem_toDigits {c : Char} (hc : c.isDigit = false) (n : Nat) : c ∉ Nat.toDigits 10 n := by
  intro hmem
  rw [isDigit_of_mem_digits hmem] at hc
  cases hc

theorem toDigits_ne {c : Char} {w : List Char} (hc : c.isDigit = false) (hw : c ∈ w) (n : Nat) :
    Nat.toDigits 10 n ≠ w := by
  rintro rfl
  exact not_mem_toDigits hc n hw

theorem isDateWord_toDigits (n : Nat) : isDateWord (Nat.toDigits 10 n) = false := by
  have hminus : '-' ∉ (Nat.toDigits 10 n).drop 1 := fun h => not_mem_toDigits rfl n (List.mem_of_mem_drop h)
  simp only [isDateWord, List.contains_eq_mem, not_mem_toDigits (c := 'T') rfl, not_mem_toDigits (c := 't') rfl,
    hminus, decide_false, Bool.false_and, Bool.or_self]

/-- A number at the end of its line. -/
theorem readNumber_toDigits {n : Nat} (hn : n < 2 ^ 63) (ts : List Token) :
    readNumber (Nat.toDigits 10 n) (.newline :: ts) = some (.integer n, .newline :: ts) := by
  have hexponent : (Nat.toDigits 10 n).any isExponentMark = false := by
    rw [List.any_eq_false]
    intro c hc hmark
    rw [isExponentMark, Bool.or_eq_true, decide_eq_true_iff, decide_eq_true_iff] at hmark
    rcases hmark with rfl | rfl <;> cases isDigit_of_mem_digits hc
  have hinfinite : Nat.toDigits 10 n ≠ ['i', 'n', 'f'] ∧ Nat.toDigits 10 n ≠ ['-', 'i', 'n', 'f'] :=
    ⟨toDigits_ne rfl (.head _) n, toDigits_ne rfl (.head _) n⟩
  have hnumber : Nat.toDigits 10 n ≠ ['n', 'a', 'n'] ∧ Nat.toDigits 10 n ≠ ['-', 'n', 'a', 'n'] :=
    ⟨toDigits_ne rfl (.head _) n, toDigits_ne rfl (.head _) n⟩
  unfold readNumber
  split
  case h_4 =>
    rw [hexponent, readInteger_toDigits hn]
    simp [hinfinite.1, hinfinite.2, hnumber.1, hnumber.2]
  all_goals
    -- the second character of a number in another base is a letter
    rename_i hbase
    exact absurd hbase (toDigits_ne rfl (.tail _ (.head _)) n)

theorem readWord_toDigits {n : Nat} (hn : n < 2 ^ 63) (ts : List Token) :
    readWord (Nat.toDigits 10 n) (.newline :: ts) = some (.plain (.integer n), .newline :: ts) := by
  have hbegins : ((Nat.toDigits 10 n).head?.any fun c => c = '-' || c.isDigit) = true := by
    obtain ⟨c, w, hw⟩ := List.exists_cons_of_ne_nil (Nat.toDigits_ne_nil (b := 10) (n := n))
    have hc : c.isDigit = true := isDigit_of_mem_digits (n := n) (hw ▸ List.mem_cons_self)
    rw [hw, List.head?_cons, Option.any_some, hc, Bool.or_true]
  have htrue : Nat.toDigits 10 n ≠ "true".toList := toDigits_ne (c := 't') rfl (by decide) n
  have hfalse : Nat.toDigits 10 n ≠ "false".toList := toDigits_ne (c := 'f') rfl (by decide) n
  unfold readWord
  dsimp only
  rw [if_neg htrue, if_neg hfalse, hbegins, isDateWord_toDigits, readNumber_toDigits hn]
  simp

/-! ## Values -/

def Field.draft : Field → Draft
  | .number n => .plain (.integer n)
  | .strings items => .list (items.map fun s => .plain (.string s))

theorem readValue_stringToken (fuel : Nat) (s : String) (ts : List Token) :
    readValue (fuel + 1) (stringToken s :: ts) = some (.plain (.string s), ts) := by
  simp only [stringToken, readValue, String.ofList_toList]

/-- The first item is a string, and what follows tells whether there are more. -/
theorem readItems_stringToken (fuel : Nat) (s : String) (ts : List Token) :
    readItems (fuel + 2) (stringToken s :: ts) =
      match skipFiller ts with
      | .rightBracket :: ts => some ([.plain (.string s)], ts)
      | .comma :: ts => (readItems (fuel + 1) (skipFiller ts)).map fun r => (.plain (.string s) :: r.1, r.2)
      | _ => none := by
  rw [readItems, readValue_stringToken]
  · simp only [Option.bind_eq_bind, Option.bind_some, Option.map_eq_bind]
    rfl
  · intro ts h
    cases h

/-- Items have a line each, and a comma after the last one too. -/
theorem readItems_items : ∀ (items : List String) (fuel : Nat), items.length < fuel → ∀ ts,
    readItems fuel (skipFiller (items.flatMap itemTokens ++ .rightBracket :: ts)) =
      some (items.map fun s => .plain (.string s), ts)
  | [], fuel, hfuel, ts => by
    obtain ⟨fuel, rfl⟩ : ∃ n, fuel = n + 1 := ⟨fuel - 1, (Nat.succ_pred_eq_of_pos hfuel).symm⟩
    rw [List.flatMap_nil, List.nil_append, skipFiller, List.dropWhile_cons, if_neg (by decide), readItems]
    rfl
  | s :: items, fuel, hfuel, ts => by
    rw [List.length_cons] at hfuel
    obtain ⟨fuel, rfl⟩ : ∃ n, fuel = n + 2 := ⟨fuel - 2, by omega⟩
    have hskip : skipFiller ((s :: items).flatMap itemTokens ++ .rightBracket :: ts) =
        stringToken s :: .comma :: .newline :: (items.flatMap itemTokens ++ .rightBracket :: ts) := rfl
    have hcomma : ∀ more, skipFiller (.comma :: .newline :: more) = .comma :: .newline :: more := fun _ => rfl
    have hnewline : ∀ more, skipFiller (.newline :: more) = skipFiller more := fun _ => rfl
    rw [hskip, readItems_stringToken, hcomma]
    dsimp only
    rw [hnewline, readItems_items items _ (by omega)]
    rfl

theorem length_le_flatMap {α : Type} (tokens : α → List Token) (h : ∀ x, tokens x ≠ []) :
    ∀ xs : List α, xs.length ≤ (xs.flatMap tokens).length
  | [] => Nat.le_refl 0
  | x :: xs => by
    have := List.length_pos_iff.2 (h x)
    have := length_le_flatMap tokens h xs
    rw [List.flatMap_cons, List.length_append, List.length_cons]
    omega

theorem length_lt_stringsTokens (items : List String) : items.length < (stringsTokens items).length := by
  have := length_le_flatMap itemTokens (fun _ => List.cons_ne_nil _ _) items
  match items with
  | [] | [_] => exact of_decide_eq_true rfl
  | _ :: _ :: _ =>
    simp only [stringsTokens, List.length_cons, List.length_append] at this ⊢
    omega

theorem readValue_strings (items : List String) {fuel : Nat} (hfuel : items.length + 1 < fuel) (ts : List Token) :
    readValue fuel (stringsTokens items ++ ts) = some (.list (items.map fun s => .plain (.string s)), ts) := by
  obtain ⟨fuel, rfl⟩ : ∃ n, fuel = n + 1 := ⟨fuel - 1, by omega⟩
  have hlist : ∀ more, readValue (fuel + 1) (.leftBracket :: more) =
      (readItems fuel (skipFiller more)).map fun r => (.list r.1, r.2) := fun _ => by rw [readValue]
  have hitems := readItems_items items fuel (by omega) ts
  match items with
  | [] => exact (hlist _).trans (congrArg (Option.map _) hitems)
  | [s] =>
    obtain ⟨fuel, rfl⟩ : ∃ n, fuel = n + 2 := ⟨fuel - 2, by simp at hfuel; omega⟩
    exact (hlist _).trans (congrArg (Option.map _) (readItems_stringToken fuel s (.rightBracket :: ts)))
  | s :: s' :: items =>
    have htokens : stringsTokens (s :: s' :: items) ++ ts =
        .leftBracket :: .newline :: ((s :: s' :: items).flatMap itemTokens ++ .rightBracket :: ts) := by
      simp [stringsTokens]
    rw [htokens]
    exact (hlist _).trans (congrArg (Option.map _) hitems)

theorem readValue_field {f : Field} {cs : List Char} (h : f.write? = some cs) (fuel : Nat)
    (hfuel : f.tokens.length < fuel) (ts : List Token) :
    readValue fuel (f.tokens ++ .newline :: ts) = some (f.draft, .newline :: ts) := by
  cases f with
  | number n =>
    obtain ⟨fuel, rfl⟩ : ∃ n, fuel = n + 1 := ⟨fuel - 1, by omega⟩
    exact readWord_toDigits (Field.write?_number.1 h).1 ts
  | strings items =>
    have := length_lt_stringsTokens items
    exact readValue_strings items (Nat.lt_of_le_of_lt this hfuel) (.newline :: ts)

/-! ## Lines -/

theorem readPath_word (w : List Char) (ts : List Token) (hts : (skipBlanks ts).head? ≠ some .period) (fuel : Nat) :
    readPath (fuel + 1) (.word w :: ts) = some ([String.ofList w], skipBlanks ts) := by
  rw [readPath, readPart]
  simp only [Option.bind_eq_bind, Option.bind_some]
  split
  · rename_i h
    rw [h] at hts
    exact absurd rfl hts
  · rfl

theorem readEntry_entryTokens {entry : String × Field} {cs : List Char} (h : entry.2.write? = some cs)
    (ts : List Token) : readEntry (entryTokens entry ++ ts) = some (.entry [entry.1] entry.2.draft, ts) := by
  have htokens : entryTokens entry ++ ts =
      .word entry.1.toList :: .blank [' '] :: .equals :: .blank [' '] :: (entry.2.tokens ++ .newline :: ts) := by
    simp [entryTokens]
  have hskip : skipBlanks (.blank [' '] :: (entry.2.tokens ++ .newline :: ts)) = entry.2.tokens ++ .newline :: ts := by
    cases entry.2 with
    | number n => rfl
    | strings items =>
      match items with
      | [] | [_] | _ :: _ :: _ => rfl
  have hequals : ∀ more, skipBlanks (.blank [' '] :: .equals :: more) = .equals :: more := fun _ => rfl
  have hpath := fun fuel more => readPath_word entry.1.toList (.blank [' '] :: .equals :: more) nofun fuel
  have hfuel : entry.2.tokens.length < 2 * (.blank [' '] :: (entry.2.tokens ++ .newline :: ts)).length := by
    simp only [List.length_cons, List.length_append]
    omega
  rw [htokens, readEntry, List.length_cons, hpath, String.ofList_toList, hequals]
  simp only [Option.bind_eq_bind, Option.bind_some, hskip, readValue_field h _ hfuel]
  rfl

theorem readHeader_word (w : List Char) (ts : List Token) :
    readHeader (.word w :: .rightBracket :: .newline :: ts) = some (.header [String.ofList w] false, ts) := by
  have hpath := readPath_word w (.rightBracket :: .newline :: ts) nofun
  have hskip : ∀ more, skipBlanks (.word w :: more) = .word w :: more := fun _ => rfl
  have hopen : ∀ more, (Token.word w :: more).head? ≠ some .leftBracket := fun _ => nofun
  rw [readHeader, if_neg (hopen _)]
  dsimp only
  rw [hskip, List.length_cons, hpath]
  rfl

def entryLine (entry : String × Field) : Line := .entry [entry.1] entry.2.draft

def sectionLines (sec : NamedFields) : List Line := .header [sec.1] false :: sec.2.map entryLine

theorem readLines_entry {entry : String × Field} {cs : List Char} (h : entry.2.write? = some cs) (fuel : Nat)
    (ts : List Token) :
    readLines (fuel + 1) (entryTokens entry ++ ts) = (readLines fuel ts).map (entryLine entry :: ·) := by
  have hread := readEntry_entryTokens h ts
  obtain ⟨more, hmore⟩ : ∃ more, entryTokens entry ++ ts = .word entry.1.toList :: more := ⟨_, rfl⟩
  have hskip : skipFiller (.word entry.1.toList :: more) = .word entry.1.toList :: more := rfl
  rw [hmore] at hread ⊢
  rw [readLines, hskip]
  dsimp only
  rw [hread, Option.map_eq_bind]
  rfl

theorem readLines_header (w : List Char) (fuel : Nat) (ts : List Token) :
    readLines (fuel + 1) (.leftBracket :: .word w :: .rightBracket :: .newline :: ts) =
      (readLines fuel ts).map (.header [String.ofList w] false :: ·) := by
  have hskip : ∀ more, skipFiller (.leftBracket :: more) = .leftBracket :: more := fun _ => rfl
  rw [readLines, hskip]
  dsimp only
  rw [readHeader_word, Option.map_eq_bind]
  rfl

theorem readLines_newline (fuel : Nat) (ts : List Token) : readLines fuel (.newline :: ts) = readLines fuel ts := by
  cases fuel with
  | zero => rfl
  | succ fuel =>
    have hskip : skipFiller (.newline :: ts) = skipFiller ts := rfl
    rw [readLines, readLines, hskip]

theorem readLines_entries (fuel : Nat) (ts : List Token) : ∀ {entries : List (String × Field)},
    (∀ e ∈ entries, ∃ cs, e.2.write? = some cs) →
    readLines (fuel + entries.length) (entries.flatMap entryTokens ++ ts) =
      (readLines fuel ts).map (entries.map entryLine ++ ·)
  | [], _ => by simp
  | e :: entries, h => by
    rw [List.forall_mem_cons] at h
    obtain ⟨⟨cs, hcs⟩, h⟩ := h
    rw [List.flatMap_cons, List.append_assoc, List.length_cons, ← Nat.add_assoc, readLines_entry hcs,
      readLines_entries fuel ts h, Option.map_map]
    rfl

theorem readLines_section (fuel : Nat) (ts : List Token) {sec : NamedFields}
    (h : ∀ e ∈ sec.2, ∃ cs, e.2.write? = some cs) :
    readLines (fuel + (sectionLines sec).length) (sectionTokens sec ++ ts) =
      (readLines fuel ts).map (sectionLines sec ++ ·) := by
  simp only [sectionTokens, sectionLines, List.cons_append, List.length_cons, List.length_map, ← Nat.add_assoc]
  rw [readLines_header, readLines_entries fuel ts h, Option.map_map, String.ofList_toList]
  rfl

/-- **The lines of a document are those of its sections**, with nothing of the empty lines between them. -/
theorem readLines_document : ∀ {sections : List NamedFields} (fuel : Nat),
    (∀ s ∈ sections, ∀ e ∈ s.2, ∃ cs, e.2.write? = some cs) →
    readLines (fuel + 1 + (sections.flatMap sectionLines).length) (documentTokens sections) =
      some (sections.flatMap sectionLines)
  | [], fuel, _ => rfl
  | [s], fuel, h => by
    have hsection := readLines_section (fuel + 1) [] (h s List.mem_cons_self)
    have hnil : readLines (fuel + 1) [] = some [] := rfl
    rw [List.append_nil, hnil] at hsection
    simpa [documentTokens] using hsection
  | s :: s' :: sections, fuel, h => by
    rw [List.forall_mem_cons] at h
    have hrest := readLines_document fuel h.2
    rw [documentTokens_cons_cons, List.flatMap_cons, List.length_append, Nat.add_comm (sectionLines s).length,
      ← Nat.add_assoc, readLines_section _ _ h.1, readLines_newline, hrest]
    rfl

end LightClient.Toml
