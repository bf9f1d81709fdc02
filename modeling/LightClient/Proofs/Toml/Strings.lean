import LightClient.Toml.Printer
/-!
# Written strings are read back

Whichever of the four forms a string is written in, the code between its quotes spells its content one character after
another (`Spelled`): a character stands for itself, or it is escaped, or it is a quote between threefold ones. Such code
is read as that content and no further than to its closing quotes (`Spelled.read`, by induction on the spelling).

The point is quotes in a row. Up to two of them may end the content, and then they are read together with the three that
close it; so `Spelled` counts the quotes before it, and `Spelled.leading` says that a row is too short to close the
string unless it is all that is left.

Both printers spell what they print (`spelled_escapeAll`, `spelled_raw`), hence `readToken_writeString`.
-/
namespace LightClient.Toml

/-! ## Escapes -/

/-- Characters that can be written with a backslash. -/
def IsEscapable (c : Char) : Prop := c = '"' ∨ c = '\\' ∨ c = '\t' ∨ isPlainChar c = false

theorem IsEscapable.toNat_lt {c : Char} (h : IsEscapable c) : c.toNat < 128 := by
  rcases h with rfl | rfl | rfl | h
  · decide
  · decide
  · decide
  simp only [isPlainChar, Bool.or_eq_false_iff, decide_eq_false_iff_not, Bool.and_eq_false_iff] at h
  rcases h.2 with hlow | hdelete
  · rw [Char.not_le] at hlow
    have hlt : c.toNat < 32 := hlow
    omega
  · simp only [ne_eq, Decidable.not_not] at hdelete
    rw [hdelete]
    decide

theorem hexValue?_upperDigit : ∀ d < 16, hexValue? (upperDigit d) = some d := by decide

theorem readScalar_upperDigits {n : Nat} (hn : n < 128) (more : List Char) :
    readScalar 4 ('0' :: '0' :: upperDigit (n / 16) :: upperDigit (n % 16) :: more) = some (Char.ofNat n, more) := by
  have hhigh : hexValue? (upperDigit (n / 16)) = some (n / 16) := hexValue?_upperDigit _ (by omega)
  have hlow : hexValue? (upperDigit (n % 16)) = some (n % 16) := hexValue?_upperDigit _ (Nat.mod_lt _ (by decide))
  have hzero : hexValue? '0' = some 0 := rfl
  have hvalue : 16 * (n / 16) + n % 16 = n := Nat.div_add_mod n 16
  have hvalid : n.isValidChar := .inl (by omega)
  simp [readScalar, hhigh, hlow, hzero, hvalue, hvalid]

/-- The escape of a character is read as this character. -/
theorem readEscape_escape {c : Char} (hc : IsEscapable c) (more : List Char) :
    escape c = '\\' :: (escape c).tail ∧ readEscape ((escape c).tail ++ more) = some (c, more) := by
  unfold escape
  split
  case h_8 =>
    have hread := readScalar_upperDigits hc.toNat_lt more
    rw [Char.ofNat_toNat] at hread
    exact ⟨rfl, hread⟩
  all_goals exact ⟨rfl, rfl⟩

theorem upperDigit_ne_return : ∀ d < 16, upperDigit d ≠ '\r' := by decide

theorem return_not_mem_escape {c : Char} (hc : IsEscapable c) : '\r' ∉ escape c := by
  have hlt := hc.toNat_lt
  unfold escape
  split
  case h_8 =>
    have hhigh := upperDigit_ne_return (c.toNat / 16) (by omega)
    have hlow := upperDigit_ne_return (c.toNat % 16) (Nat.mod_lt _ (by decide))
    simp [hhigh.symm, hlow.symm]
  all_goals decide

/-! ## Ends -/

namespace StringKind

variable {k : StringKind}

/-- The quotes at either end of a string. -/
def marks (k : StringKind) : List Char := List.replicate (if k.multiline then 3 else 1) k.quote

theorem close?_of_ne {c : Char} (hc : c ≠ k.quote) (cs : List Char) : k.close? (c :: cs) = none := by
  unfold close?
  split
  · simp [hc]
  · simp [hc]

theorem close?_of_run {cs : List Char} (hmulti : k.multiline = true)
    (hrun : (cs.takeWhile (· = k.quote)).length ≤ 2) : k.close? cs = none := by
  unfold close?
  rw [if_pos hmulti]
  exact if_neg (by omega)

theorem takeWhile_replicate_append {q : Char} {rest : List Char} (hrest : rest.head? ≠ some q) (n : Nat) :
    (List.replicate n q ++ rest).takeWhile (· = q) = List.replicate n q := by
  induction n with
  | zero =>
    cases rest with
    | nil => rfl
    | cons c rest => simp_all
  | succ n ih => simp [List.replicate_succ, ih]

/-- Quotes before the closing ones belong to the content. -/
theorem close?_marks {r : Nat} {rest : List Char} (hr : r ≤ 2) (hmulti : r = 0 ∨ k.multiline = true)
    (hrest : rest.head? ≠ some k.quote) :
    k.close? (List.replicate r k.quote ++ (k.marks ++ rest)) = some (List.replicate r k.quote, rest) := by
  by_cases hm : k.multiline = true
  · have hrow : List.replicate r k.quote ++ (k.marks ++ rest) = List.replicate (r + 3) k.quote ++ rest := by
      rw [marks, if_pos hm, ← List.append_assoc, List.replicate_append_replicate]
    have hcount : min (List.replicate (r + 3) k.quote).length 5 = r + 3 := by
      rw [List.length_replicate]
      omega
    unfold close?
    rw [if_pos hm, hrow, takeWhile_replicate_append hrest, hcount]
    simp
  · obtain rfl : r = 0 := hmulti.resolve_right hm
    simp [close?, marks, hm]

theorem read_of_plain {c : Char} {cs : List Char} (hclose : k.close? (c :: cs) = none)
    (hc : ¬ (c = '\\' ∧ k.quote = '"')) (hplain : c = '\n' ∧ k.multiline ∨ isPlainChar c) (fuel : Nat) :
    k.read (fuel + 1) (c :: cs) = (k.read fuel cs).map fun r => (c :: r.1, r.2) := by
  rw [read, hclose]
  exact (if_neg hc).trans (if_pos hplain)

theorem read_of_escape {d : Char} {cs rest : List Char} (hquote : k.quote = '"')
    (hescape : readEscape cs = some (d, rest)) (fuel : Nat) :
    k.read (fuel + 1) ('\\' :: cs) = (k.read fuel rest).map fun r => (d :: r.1, r.2) := by
  have hclose : k.close? ('\\' :: cs) = none := close?_of_ne (by rw [hquote]; decide) cs
  simp only [read, hclose, hescape, hquote, and_self, if_true]

theorem read_of_close {cs : List Char} {r : List Char × List Char} (hclose : k.close? cs = some r) (fuel : Nat) :
    k.read (fuel + 1) cs = some r := by
  simp only [read, hclose]

end StringKind

/-! ## Written content -/

/-- Code between quotes that stands for a content, where so many bare quotes come directly before it. -/
inductive Spelled (k : StringKind) : (quotes : Nat) → (code content : List Char) → Prop where
  | nil {quotes : Nat} : Spelled k quotes [] []
  | bare {quotes : Nat} {c : Char} {code content : List Char} : c ≠ k.quote → ¬ (c = '\\' ∧ k.quote = '"') →
      (c = '\n' ∧ k.multiline ∨ isPlainChar c) → Spelled k 0 code content → Spelled k quotes (c :: code) (c :: content)
  /-- In threefold quotes, fewer than three quotes in a row may stand for themselves. -/
  | quote {quotes : Nat} {code content : List Char} : k.multiline → quotes < 2 → Spelled k (quotes + 1) code content →
      Spelled k quotes (k.quote :: code) (k.quote :: content)
  | escape {quotes : Nat} {c : Char} {code content : List Char} : k.quote = '"' → IsEscapable c →
      Spelled k 0 code content → Spelled k quotes (escape c ++ code) (c :: content)

namespace Spelled

variable {k : StringKind} {quotes : Nat} {code content : List Char}

/-- Either all of the code is quotes, or the quotes at its beginning end before it does. -/
theorem leading (h : Spelled k quotes code content) (hquotes : quotes ≤ 2) :
    (∃ r, r + quotes ≤ 2 ∧ (r = 0 ∨ k.multiline = true) ∧ code = List.replicate r k.quote ∧
      content = List.replicate r k.quote) ∨
      ∀ more, ((code ++ more).takeWhile (· = k.quote)).length + quotes ≤ 2 := by
  induction h with
  | nil => exact .inl ⟨0, by omega, .inl rfl, rfl, rfl⟩
  | bare hc _ _ _ _ => exact .inr fun more => by simpa [hc] using hquotes
  | quote hmulti hlt _ ih =>
    rcases ih (by omega) with ⟨r, hr, -, hcode, hcontent⟩ | hrun
    · refine .inl ⟨r + 1, by omega, .inr hmulti, ?_, ?_⟩
      · rw [hcode, List.replicate_succ]
      · rw [hcontent, List.replicate_succ]
    · refine .inr fun more => ?_
      have := hrun more
      simp only [List.cons_append, List.takeWhile_cons, decide_true, if_true, List.length_cons]
      omega
  | escape hquote hc _ _ =>
    refine .inr fun more => ?_
    rw [(readEscape_escape hc more).1, hquote]
    simpa using hquotes

/-- **What is spelled is read**, up to the closing quotes and no further. -/
theorem read (h : Spelled k quotes code content) (hquotes : quotes ≤ 2) (hk : k.quote = '"' ∨ k.quote = '\'')
    {rest : List Char} (hrest : rest.head? ≠ some k.quote) (fuel : Nat) (hfuel : code.length < fuel) :
    k.read fuel (code ++ (k.marks ++ rest)) = some (content, rest) := by
  obtain ⟨fuel, rfl⟩ : ∃ n, fuel = n + 1 := ⟨fuel - 1, by omega⟩
  induction h generalizing fuel with
  | nil =>
    have hclose := StringKind.close?_marks (r := 0) (by omega) (.inl rfl) hrest
    exact StringKind.read_of_close hclose fuel
  | @bare quotes c code content hc hbackslash hplain _ ih =>
    rw [List.length_cons] at hfuel
    obtain ⟨fuel, rfl⟩ : ∃ n, fuel = n + 1 := ⟨fuel - 1, by omega⟩
    rw [List.cons_append, StringKind.read_of_plain (StringKind.close?_of_ne hc _) hbackslash hplain,
      ih (by omega) fuel (by omega)]
    rfl
  | @quote quotes code content hmulti hlt hcode ih =>
    rcases (Spelled.quote hmulti hlt hcode).leading hquotes with ⟨r, hr, hr', hall, hsame⟩ | hrun
    · -- the rest of the content is quotes, which are read together with the closing ones
      rw [hall, hsame]
      exact StringKind.read_of_close (StringKind.close?_marks (by omega) hr' hrest) fuel
    · have hbackslash : ¬ (k.quote = '\\' ∧ k.quote = '"') := by
        rintro ⟨h, h'⟩
        rw [h] at h'
        cases h'
      have hplain : k.quote = '\n' ∧ k.multiline ∨ isPlainChar k.quote := by
        rcases hk with h | h <;> rw [h] <;> exact .inr rfl
      have hrun := hrun (k.marks ++ rest)
      rw [List.cons_append] at hrun
      have hclose := StringKind.close?_of_run hmulti (Nat.le_of_add_right_le hrun)
      rw [List.length_cons] at hfuel
      obtain ⟨fuel, rfl⟩ : ∃ n, fuel = n + 1 := ⟨fuel - 1, by omega⟩
      rw [List.cons_append, StringKind.read_of_plain hclose hbackslash hplain, ih (by omega) fuel (by omega)]
      rfl
  | @escape quotes c code content hquote hc _ ih =>
    obtain ⟨hcode, hread⟩ := readEscape_escape hc (code ++ (k.marks ++ rest))
    rw [List.length_append, hcode, List.length_cons] at hfuel
    obtain ⟨fuel, rfl⟩ : ∃ n, fuel = n + 1 := ⟨fuel - 1, by omega⟩
    rw [List.append_assoc, hcode, List.cons_append, StringKind.read_of_escape hquote hread,
      ih (by omega) fuel (by omega)]
    rfl

end Spelled

/-! ## The four forms -/

theorem spelled_escapeAll (multiline : Bool) : ∀ (cs : List Char) (quotes : Nat),
    Spelled ⟨'"', multiline⟩ quotes (escapeAll multiline quotes cs) cs
  | [], _ => .nil
  | c :: cs, quotes => by
    rw [escapeAll]
    split
    · rename_i h
      obtain ⟨rfl, hmulti, hlt⟩ := h
      exact .quote hmulti hlt (spelled_escapeAll multiline cs (quotes + 1))
    rename_i hquote
    split
    · rename_i h
      obtain ⟨rfl, hmulti⟩ := h
      exact .bare (show '\n' ≠ '"' by decide) (fun h => absurd h.1 (by decide)) (.inl ⟨rfl, hmulti⟩)
        (spelled_escapeAll multiline cs 0)
    split
    · rename_i h
      exact .escape rfl (by simpa [IsEscapable] using h) (spelled_escapeAll multiline cs 0)
    · rename_i h
      simp only [not_or, Bool.not_eq_true, Bool.not_eq_false'] at h
      obtain ⟨hmark, hbackslash, -, hplain⟩ := h
      exact .bare hmark (fun h => hbackslash h.1) (.inr hplain) (spelled_escapeAll multiline cs 0)

theorem threeInRow_of_cons {q c : Char} {cs : List Char} (h : threeInRow q (c :: cs) = false) :
    threeInRow q cs = false := by
  match cs, h with
  | [], _ | [_], _ => rfl
  | a :: b :: cs, h =>
    rw [threeInRow, Bool.or_eq_false_iff] at h
    exact h.2

theorem threeInRow_of_append {q : Char} {cs : List Char} : ∀ {before : List Char},
    threeInRow q (before ++ cs) = false → threeInRow q cs = false
  | [], h => h
  | _ :: _, h => threeInRow_of_append (threeInRow_of_cons h)

/-- Single quotes hold every character that needs no escape, but not the quotes that would end them. -/
theorem spelled_raw (multiline : Bool) : ∀ (cs : List Char) (quotes : Nat),
    (∀ c ∈ cs, c = '\n' ∧ multiline ∨ isPlainChar c) → (multiline = false → '\'' ∉ cs) →
    (multiline = true → threeInRow '\'' (List.replicate quotes '\'' ++ cs) = false) → quotes ≤ 2 →
    Spelled ⟨'\'', multiline⟩ quotes cs cs
  | [], _, _, _, _, _ => .nil
  | c :: cs, quotes, hplain, hsingle, hrow, hquotes => by
    have hplain' := fun d hd => hplain d (List.mem_cons_of_mem c hd)
    have hsingle' := fun h => fun hd => hsingle h (List.mem_cons_of_mem c hd)
    by_cases hc : c = '\''
    · obtain rfl := hc
      cases multiline with
      | false => exact absurd List.mem_cons_self (hsingle rfl)
      | true =>
        have hrow := hrow rfl
        have hlt : quotes < 2 := Nat.lt_of_le_of_ne hquotes (by rintro rfl; cases hrow)
        have hmoved : List.replicate quotes '\'' ++ '\'' :: cs = List.replicate (quotes + 1) '\'' ++ cs := by
          rw [List.replicate_succ', List.append_assoc]
          rfl
        rw [hmoved] at hrow
        exact .quote rfl hlt (spelled_raw true cs (quotes + 1) hplain' hsingle' (fun _ => hrow) hlt)
    · exact .bare hc (by rintro ⟨-, h⟩; cases h) (hplain c List.mem_cons_self)
        (spelled_raw multiline cs 0 hplain' hsingle'
          (fun h => threeInRow_of_cons (threeInRow_of_append (hrow h))) (by omega))

/-- The content of a written string, as it stands between the quotes. -/
def codeOf (cs : List Char) : List Char :=
  if (StringKind.of cs).quote = '"' then escapeAll (StringKind.of cs).multiline 0 cs else cs

/-- Single quotes are only chosen for what can stand between them. -/
theorem kind_cases (cs : List Char) :
    (StringKind.of cs).quote = '"' ∨
      ∃ multiline, StringKind.of cs = ⟨'\'', multiline⟩ ∧ (∀ c ∈ cs, needsEscape c = false) ∧
        (multiline = false → '\n' ∉ cs ∧ '\'' ∉ cs) ∧ (multiline = true → threeInRow '\'' cs = false) := by
  unfold StringKind.of
  dsimp only
  split
  · exact .inl rfl
  split
  · rename_i h
    simp only [Bool.and_eq_true, Bool.not_eq_true', List.any_eq_false, List.contains_eq_mem,
      decide_eq_false_iff_not, Bool.not_eq_true] at h
    exact .inr ⟨false, rfl, h.1.1, fun _ => ⟨h.1.2, h.2⟩, fun h => nomatch h⟩
  split
  · exact .inl rfl
  split
  · rename_i h
    simp only [Bool.and_eq_true, Bool.not_eq_true', List.any_eq_false, Bool.not_eq_true] at h
    exact .inr ⟨true, rfl, h.1, fun h => (nomatch h), fun _ => h.2⟩
  · exact .inl rfl

theorem quote_of (cs : List Char) : (StringKind.of cs).quote = '"' ∨ (StringKind.of cs).quote = '\'' := by
  rcases kind_cases cs with h | ⟨multiline, h, -⟩
  · exact .inl h
  · exact .inr (congrArg StringKind.quote h)

theorem spelled_codeOf (cs : List Char) : Spelled (StringKind.of cs) 0 (codeOf cs) cs := by
  unfold codeOf
  rcases kind_cases cs with hquote | ⟨multiline, hkind, hplain, hsingle, hrow⟩
  · rw [if_pos hquote]
    have hkind : StringKind.of cs = ⟨'"', (StringKind.of cs).multiline⟩ := congrArg (StringKind.mk · _) hquote
    have h := spelled_escapeAll (StringKind.of cs).multiline cs 0
    rwa [← hkind] at h
  · rw [hkind, if_neg (show ¬ '\'' = '"' by decide)]
    refine spelled_raw multiline cs 0 (fun c hc => ?_) (fun h => (hsingle h).2) hrow (by omega)
    have hc' := hplain c hc
    simp only [needsEscape, Bool.and_eq_false_iff, Bool.not_eq_false', decide_eq_false_iff_not, ne_eq,
      Decidable.not_not] at hc'
    rcases hc' with hc' | rfl
    · exact .inr hc'
    · cases multiline with
      | false => exact absurd hc (hsingle rfl).1
      | true => exact .inl ⟨rfl, rfl⟩

/-! ## The whole string -/

/-- No carriage return is written; it would be taken for part of a line end. -/
theorem Spelled.not_mem_return {k : StringKind} (hk : k.quote = '"' ∨ k.quote = '\'') {quotes : Nat}
    {code content : List Char} (h : Spelled k quotes code content) : '\r' ∉ code := by
  induction h with
  | nil => exact List.not_mem_nil
  | bare _ _ hplain _ ih =>
    rw [List.mem_cons, not_or]
    refine ⟨?_, ih⟩
    rintro rfl
    rcases hplain with ⟨h, -⟩ | h <;> cases h
  | quote _ _ _ ih =>
    rw [List.mem_cons, not_or]
    refine ⟨?_, ih⟩
    intro h
    rcases hk with h' | h' <;> rw [h'] at h <;> cases h
  | escape _ hc _ ih =>
    rw [List.mem_append, not_or]
    exact ⟨return_not_mem_escape hc, ih⟩

/-- The code begins with a line end only if the content does. -/
theorem Spelled.head?_of_newline {k : StringKind} {quotes : Nat} {code content : List Char}
    (h : Spelled k quotes code content) (hnewline : code.head? = some '\n') : '\n' ∈ content := by
  cases h with
  | nil => cases hnewline
  | bare | quote => exact Option.some.inj hnewline ▸ List.mem_cons_self
  | escape _ hc _ =>
    rw [(readEscape_escape hc []).1] at hnewline
    cases hnewline

theorem Spelled.head?_ne_quote {k : StringKind} {quotes : Nat} {code content : List Char}
    (h : Spelled k quotes code content) (hsingle : k.multiline = false) : code.head? ≠ some k.quote := by
  cases h with
  | nil => exact nofun
  | bare hc _ _ _ => exact fun h => hc (Option.some.inj h)
  | quote hmulti _ _ => rw [hsingle] at hmulti; cases hmulti
  | escape hquote hc _ =>
    rw [(readEscape_escape hc []).1, hquote]
    exact fun h => nomatch Option.some.inj h

/-- The line end that a string begins with if there is another one in it. -/
def leadingNewline (cs : List Char) : List Char :=
  if cs.contains '\n' && (StringKind.of cs).multiline then ['\n'] else []

theorem writeString_eq (cs : List Char) :
    writeString cs = (StringKind.of cs).marks ++ (leadingNewline cs ++ (codeOf cs ++ (StringKind.of cs).marks)) := by
  simp only [writeString, StringKind.marks, leadingNewline, codeOf, List.append_assoc]

theorem skip_leadingNewline {cs more : List Char} (hmulti : (StringKind.of cs).multiline = true)
    (hmore : more.head? ≠ some '\n') :
    let text := leadingNewline cs ++ (codeOf cs ++ more)
    (if text.head? = some '\n' then text.drop 1 else text) = codeOf cs ++ more := by
  unfold leadingNewline
  by_cases hnewline : '\n' ∈ cs
  · rw [if_pos (by simpa [hmulti] using hnewline)]
    rfl
  · rw [if_neg (by simp [hnewline])]
    refine if_neg fun h => ?_
    rw [List.nil_append, List.head?_append] at h
    cases hcode : (codeOf cs).head? with
    | none => exact hmore (by simpa [hcode] using h)
    | some c =>
      rw [hcode] at h
      exact hnewline ((spelled_codeOf cs).head?_of_newline (hcode.trans h))

theorem readString_single {cs rest : List Char} (hsingle : (StringKind.of cs).multiline = false)
    (hrest : rest.head? ≠ some (StringKind.of cs).quote) :
    readString (StringKind.of cs).quote (codeOf cs ++ ((StringKind.of cs).marks ++ rest)) =
      some (.string cs false, rest) := by
  have hread := (spelled_codeOf cs).read (by omega) (quote_of cs) hrest
  have hhead := (spelled_codeOf cs).head?_ne_quote hsingle
  have hkind : StringKind.of cs = ⟨(StringKind.of cs).quote, false⟩ := congrArg (StringKind.mk _) hsingle
  generalize codeOf cs = code at hread hhead ⊢
  have hopen : (code ++ ((StringKind.of cs).marks ++ rest)).take 2 ≠
      [(StringKind.of cs).quote, (StringKind.of cs).quote] := by
    intro h
    cases code with
    | nil =>
      rw [StringKind.marks, hsingle] at h
      cases rest with
      | nil => cases h
      | cons c rest => exact hrest (congrArg List.head? (List.cons.inj h).2)
    | cons c code => exact hhead (congrArg List.head? h)
  unfold readString
  rw [if_neg hopen, ← hkind, hread _ (by rw [List.length_append]; omega)]
  rfl

theorem readString_multi {cs rest : List Char} (hmulti : (StringKind.of cs).multiline = true)
    (hrest : rest.head? ≠ some (StringKind.of cs).quote) :
    readString (StringKind.of cs).quote ((StringKind.of cs).quote :: (StringKind.of cs).quote ::
      (leadingNewline cs ++ (codeOf cs ++ ((StringKind.of cs).marks ++ rest)))) = some (.string cs true, rest) := by
  have hread := (spelled_codeOf cs).read (by omega) (quote_of cs) hrest
  have hkind : StringKind.of cs = ⟨(StringKind.of cs).quote, true⟩ := congrArg (StringKind.mk _) hmulti
  have hmore : ((StringKind.of cs).marks ++ rest).head? ≠ some '\n' := by
    rw [StringKind.marks, if_pos hmulti]
    intro h
    rcases quote_of cs with hquote | hquote <;> rw [hquote] at h <;> cases h
  have hskip := skip_leadingNewline hmulti hmore
  generalize leadingNewline cs ++ (codeOf cs ++ ((StringKind.of cs).marks ++ rest)) = text at hskip ⊢
  have hopen : ((StringKind.of cs).quote :: (StringKind.of cs).quote :: text).take 2 =
      [(StringKind.of cs).quote, (StringKind.of cs).quote] := rfl
  have hdrop : ((StringKind.of cs).quote :: (StringKind.of cs).quote :: text).drop 2 = text := rfl
  unfold readString
  rw [if_pos hopen]
  dsimp only
  rw [hdrop, hskip, ← hkind, hread _ (by rw [List.length_append]; omega)]
  rfl

/-- **A written string is read back**, with whatever comes after it, if that is no quote of the same kind. -/
theorem readToken_writeString (cs : List Char) :
    ∃ inner, writeString cs = (StringKind.of cs).quote :: inner ∧
      ∀ rest : List Char, rest.head? ≠ some (StringKind.of cs).quote →
        readToken (StringKind.of cs).quote (inner ++ rest) = some (.string cs (StringKind.of cs).multiline, rest) := by
  have htoken : ∀ text, readToken (StringKind.of cs).quote text = readString (StringKind.of cs).quote text := by
    intro text
    rcases quote_of cs with h | h <;> rw [h] <;> rfl
  rw [writeString_eq]
  cases hmulti : (StringKind.of cs).multiline with
  | false =>
    refine ⟨codeOf cs ++ (StringKind.of cs).marks, ?_, fun rest hrest => ?_⟩
    · rw [StringKind.marks, leadingNewline, hmulti, Bool.and_false]
      rfl
    · rw [htoken, List.append_assoc]
      exact readString_single hmulti hrest
  | true =>
    refine ⟨(StringKind.of cs).quote :: (StringKind.of cs).quote ::
      (leadingNewline cs ++ (codeOf cs ++ (StringKind.of cs).marks)), ?_, fun rest hrest => ?_⟩
    · rw [StringKind.marks, hmulti]
      rfl
    · rw [htoken, List.cons_append, List.cons_append, List.append_assoc, List.append_assoc]
      exact readString_multi hmulti hrest

theorem return_not_mem_writeString (cs : List Char) : '\r' ∉ writeString cs := by
  have hmarks : '\r' ∉ (StringKind.of cs).marks := by
    intro h
    rcases quote_of cs with hquote | hquote <;> cases hquote ▸ (List.mem_replicate.1 h).2
  have hnewline : '\r' ∉ leadingNewline cs := by
    unfold leadingNewline
    split <;> simp
  have hcode := (spelled_codeOf cs).not_mem_return (quote_of cs)
  simp only [writeString_eq, List.mem_append, not_or]
  exact ⟨hmarks, hnewline, hcode, hmarks⟩

end LightClient.Toml
