import LightClient.Proofs.Toml.Lines
/-!
# Written files are read back

Sections with plain names that are all different, and whose keys are too (`ArePlain`), can be written unless a number is
too great, and then reading gives a table for each section with its entries in their order (`parse_write`). Nothing is
lost on the way: strings may hold any characters at all, also quotes, backslashes and line ends.
-/
namespace LightClient.Toml

/-! ## Sections -/

def entryDraft (entry : String × Field) : String × Draft := (entry.1, entry.2.draft)

def sectionOf (sec : NamedFields) : Section := ⟨[sec.1], false, sec.2.map entryDraft⟩

/-- Keys of one part are added one after another. -/
theorem nest_entries (entries : List (String × Field)) :
    nest (entries.map fun e => ([e.1], e.2.draft)) = some (entries.map entryDraft) := by
  have hfold : ∀ (entries : List (String × Field)) (made : List (String × Draft)),
      (entries.map fun e => ([e.1], e.2.draft)).foldlM (fun made e => addEntry e.1 e.2 made) made =
        some (made ++ entries.map entryDraft) := by
    intro entries
    induction entries with
    | nil => simp
    | cons e entries ih =>
      intro made
      rw [List.map_cons, List.foldlM_cons, addEntry]
      simp [ih, entryDraft]
  exact hfold entries []

theorem sections_entries {lines : List Line} {r : List (Path × Draft) × List Section} (h : sections lines = some r) :
    ∀ entries : List (String × Field),
      sections (entries.map entryLine ++ lines) = some ((entries.map fun e => ([e.1], e.2.draft)) ++ r.1, r.2)
  | [] => h
  | e :: entries => by
    rw [List.map_cons, List.cons_append, entryLine, sections, sections_entries h entries]
    rfl

theorem sections_document : ∀ secs : List NamedFields,
    sections (secs.flatMap sectionLines) = some ([], secs.map sectionOf)
  | [] => rfl
  | s :: secs => by
    have hentries := sections_entries (sections_document secs) s.2
    rw [List.append_nil] at hentries
    rw [List.flatMap_cons, sectionLines, List.cons_append, sections, hentries]
    simp only [Option.bind_eq_bind, Option.bind_some, nest_entries]
    rfl

/-! ## Values -/

theorem valuesOf_strings : ∀ items : List String,
    valuesOf (items.map fun s => .plain (.string s)) = some (items.map Value.string)
  | [] => by simp [valuesOf]
  | s :: items => by simp [valuesOf, Draft.value?, valuesOf_strings items]

theorem value?_draft (f : Field) : f.draft.value? = some f.value := by
  cases f with
  | number n => simp [Field.draft, Draft.value?, Field.value]
  | strings items => simp [Field.draft, Draft.value?, Field.value, valuesOf_strings]

def entryValue (entry : String × Field) : String × Value := (entry.1, entry.2.value)

theorem entriesOf_drafts : ∀ entries : List (String × Field),
    entriesOf (entries.map entryDraft) = some (entries.map entryValue)
  | [] => by simp [entriesOf]
  | e :: entries => by simp [entriesOf, entryDraft, entryValue, value?_draft, entriesOf_drafts entries]

theorem isBare_ne_momentKey {name : String} (h : IsBare name) : name ≠ momentKey := by
  rintro rfl
  have := h.2 '$' (by decide)
  cases this

/-! ## Tables -/

theorem mapM_eq_some_map {α β : Type} {f : α → Option β} {g : α → β} : ∀ {xs : List α},
    (∀ x ∈ xs, f x = some (g x)) → xs.mapM f = some (xs.map g)
  | [], _ => rfl
  | x :: xs, h => by
    rw [List.forall_mem_cons] at h
    rw [List.mapM_cons, h.1, mapM_eq_some_map h.2]
    rfl

def sectionValue (sec : NamedFields) : String × Value := (sec.1, .table (sec.2.map entryValue))

/-- Sections whose names need no quotes, with no name and no key twice. -/
structure ArePlain (secs : List NamedFields) : Prop where
  bare : ∀ s ∈ secs, IsBareSection s
  names : (secs.map Prod.fst).Nodup
  keys : ∀ s ∈ secs, (s.2.map Prod.fst).Nodup

theorem tableOf_map {α : Type} {f : α → String × Value} {xs : List α} (h : (xs.map fun x => (f x).1).Nodup) :
    tableOf (xs.map f) = some (.table (xs.map f)) := by
  rw [tableOf, List.map_map]
  exact if_pos h

/-- A section alone is the table of its entries. -/
theorem assemble_entries {entries : List (String × Field)} (hbare : ∀ e ∈ entries, IsBare e.1)
    (hkeys : (entries.map Prod.fst).Nodup) (depth : Nat) :
    assemble (depth + 1) [⟨[], false, entries.map entryDraft⟩] = some (.table (entries.map entryValue), []) := by
  have hfirst : firstKey? [⟨[], false, entries.map entryDraft⟩] ≠ some momentKey := by
    cases entries with
    | nil => exact nofun
    | cons e entries => exact fun h => isBare_ne_momentKey (hbare e List.mem_cons_self) (Option.some.inj h)
  have hheads : heads [⟨[], false, entries.map entryDraft⟩] = [] := rfl
  have hown : [(⟨[], false, entries.map entryDraft⟩ : Section)].filter (·.path.isEmpty) =
      [⟨[], false, entries.map entryDraft⟩] := rfl
  rw [assemble, if_neg hfirst, hheads, hown]
  simp only [entriesOf_drafts, Bool.false_eq_true, if_false, Option.bind_eq_bind, Option.bind_some, List.mapM_nil,
    Option.pure_def, List.append_nil, tableOf_map (f := entryValue) hkeys]

theorem eraseDups_of_nodup : ∀ {names : List String}, names.Nodup → names.eraseDups = names
  | [], _ => rfl
  | name :: names, h => by
    rw [List.nodup_cons] at h
    have hother : (names.filter fun n => !n == name) = names := by
      rw [List.filter_eq_self]
      intro n hn
      have hne : n ≠ name := by
        rintro rfl
        exact h.1 hn
      simp [hne]
    rw [List.eraseDups_cons, hother, eraseDups_of_nodup h.2]

theorem heads_sections {secs : List NamedFields} (h : (secs.map Prod.fst).Nodup) :
    heads (secs.map sectionOf) = secs.map Prod.fst := by
  have hnames : ((secs.map sectionOf).filterMap fun s => s.path.head?) = secs.map Prod.fst := by
    rw [List.filterMap_map]
    exact congrFun List.filterMap_eq_map secs
  rw [heads, hnames, eraseDups_of_nodup h]

theorem below?_sectionOf (key : String) (sec : NamedFields) :
    (sectionOf sec).below? key = if sec.1 = key then some ⟨[], false, sec.2.map entryDraft⟩ else none := rfl

/-- Only the section with its name lies below a key. -/
theorem filterMap_below? : ∀ {secs : List NamedFields}, (secs.map Prod.fst).Nodup →
    ∀ s ∈ secs, (secs.map sectionOf).filterMap (·.below? s.1) = [⟨[], false, s.2.map entryDraft⟩]
  | s' :: secs, h, s, hs => by
    rw [List.map_cons, List.nodup_cons] at h
    rw [List.map_cons, List.filterMap_cons, below?_sectionOf]
    rcases List.mem_cons.1 hs with rfl | hs
    · have hnone : (secs.map sectionOf).filterMap (·.below? s.1) = [] := by
        rw [List.filterMap_eq_nil_iff]
        intro sec hsec
        obtain ⟨s', hs', rfl⟩ := List.mem_map.1 hsec
        refine if_neg fun hname => h.1 ?_
        rw [← hname]
        exact List.mem_map_of_mem hs'
      rw [if_pos rfl, hnone]
    · have hname : s'.1 ≠ s.1 := by
        intro hname
        rw [hname] at h
        exact h.1 (List.mem_map_of_mem hs)
      rw [if_neg hname]
      exact filterMap_below? h.2 s hs

theorem assemble_document {secs : List NamedFields} (h : ArePlain secs) (depth : Nat) :
    assemble (depth + 2) (⟨[], false, []⟩ :: secs.map sectionOf) = some (.table (secs.map sectionValue), []) := by
  have hfirst : firstKey? (⟨[], false, []⟩ :: secs.map sectionOf) ≠ some momentKey := by
    cases secs with
    | nil => exact nofun
    | cons s secs => exact fun hkey => isBare_ne_momentKey (h.bare s List.mem_cons_self).1 (Option.some.inj hkey)
  have hown : (⟨[], false, []⟩ :: secs.map sectionOf).filter (·.path.isEmpty) = [⟨[], false, []⟩] := by
    have hnone : (secs.map sectionOf).filter (·.path.isEmpty) = [] := by
      rw [List.filter_eq_nil_iff]
      intro sec hsec
      obtain ⟨s, -, rfl⟩ := List.mem_map.1 hsec
      exact Bool.false_ne_true
    rw [List.filter_cons, hnone]
    rfl
  have hheads : heads (⟨[], false, []⟩ :: secs.map sectionOf) = secs.map Prod.fst := heads_sections h.names
  have hmembers : ∀ s ∈ secs, (⟨[], false, []⟩ :: secs.map sectionOf).filterMap (·.below? s.1) =
      [⟨[], false, s.2.map entryDraft⟩] := filterMap_below? h.names
  rw [assemble, if_neg hfirst, hown, hheads, List.mapM_map, mapM_eq_some_map (g := sectionValue)]
  · simp only [entriesOf, Bool.false_eq_true, if_false, Option.bind_eq_bind, Option.bind_some, List.nil_append,
      Option.pure_def, tableOf_map (f := sectionValue) h.names]
  · intro s hs
    have hentries := assemble_entries (h.bare s hs).2 (h.keys s hs) depth
    rw [Function.comp_apply, hmembers s hs]
    dsimp only
    rw [hentries]
    rfl

/-! ## The whole file -/

theorem depthOf_sections (s : NamedFields) (secs : List NamedFields) : depthOf ((s :: secs).map sectionOf) = 1 := by
  have hfold : ∀ secs : List NamedFields, ((secs.map sectionOf).map (·.path.length)).foldl max 1 = 1 := by
    intro secs
    induction secs with
    | nil => rfl
    | cons s secs ih => exact ih
  exact hfold secs

theorem length_sectionLines_le (sec : NamedFields) : (sectionLines sec).length ≤ (sectionTokens sec).length := by
  have := length_le_flatMap entryTokens (fun _ => List.cons_ne_nil _ _) sec.2
  simp only [sectionLines, sectionTokens, List.length_cons, List.length_map]
  omega

theorem length_lines_le : ∀ secs : List NamedFields,
    (secs.flatMap sectionLines).length ≤ (documentTokens secs).length
  | [] => Nat.le_refl 0
  | [s] => by simpa [documentTokens] using length_sectionLines_le s
  | s :: s' :: secs => by
    have := length_sectionLines_le s
    have := length_lines_le (s' :: secs)
    rw [documentTokens_cons_cons, List.flatMap_cons, List.length_append, List.length_append, List.length_cons]
    omega

theorem exists_of_mapM {α β : Type} {f : α → Option β} : ∀ {xs : List α} {ys : List β}, xs.mapM f = some ys →
    ∀ x ∈ xs, ∃ y, f x = some y
  | x :: xs, ys, h, a, ha => by
    obtain ⟨y, ys, hy, hys, -⟩ := mapM_cons_eq_some h
    rcases List.mem_cons.1 ha with rfl | ha
    · exact ⟨y, hy⟩
    · exact exists_of_mapM hys a ha

/-- **What is written is read back**: each section as a table, with its entries in their order. -/
theorem parse_write {secs : List NamedFields} (h : ArePlain secs) {text : String} (hwrite : write secs = some text) :
    parse text = some (secs.map sectionValue) := by
  have hfields : ∀ s ∈ secs, ∀ e ∈ s.2, ∃ cs, e.2.write? = some cs := by
    obtain ⟨texts, htexts, -⟩ := Option.map_eq_some_iff.1 hwrite
    intro s hs e he
    obtain ⟨cs, hcs⟩ := exists_of_mapM htexts s hs
    obtain ⟨lines, hlines, -⟩ := Option.map_eq_some_iff.1 hcs
    obtain ⟨line, hline⟩ := exists_of_mapM hlines e he
    obtain ⟨v, hv, -⟩ := Option.map_eq_some_iff.1 hline
    exact ⟨v, hv⟩
  have hlength := length_lines_le secs
  have hlines := readLines_document ((documentTokens secs).length - (secs.flatMap sectionLines).length) hfields
  have hfuel : (documentTokens secs).length - (secs.flatMap sectionLines).length + 1 +
      (secs.flatMap sectionLines).length = (documentTokens secs).length + 1 := by omega
  rw [hfuel] at hlines
  rw [parse, tokenize_write h.bare hwrite]
  simp only [Option.bind_eq_bind, Option.bind_some, hlines, sections_document]
  cases secs with
  | nil => rfl
  | cons s secs =>
    have hnest : nest [] = some [] := rfl
    rw [hnest, depthOf_sections]
    simp only [Option.bind_some, assemble_document h]
    rfl

end LightClient.Toml
