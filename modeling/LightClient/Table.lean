/-!
# Finite maps

A map is the list of its entries in the order in which the keys were last written. No key occurs
twice. The lemmas say what each operation does to a look-up.
-/
namespace LightClient

structure Table (κ α : Type) where
  entries : List (κ × α)
  nodup_keys : (entries.map Prod.fst).Nodup

namespace Table

variable {κ α : Type}

def empty : Table κ α := ⟨[], List.nodup_nil⟩

instance : EmptyCollection (Table κ α) := ⟨empty⟩

def keys (t : Table κ α) : List κ := t.entries.map Prod.fst

def size (t : Table κ α) : Nat := t.entries.length

def isEmpty (t : Table κ α) : Bool := t.entries.isEmpty

def filter (t : Table κ α) (keep : κ → α → Bool) : Table κ α where
  entries := t.entries.filter fun e => keep e.1 e.2
  nodup_keys := t.nodup_keys.sublist (List.filter_sublist.map _)

/-- A test that every entry passes changes nothing. -/
theorem filter_eq_self {t : Table κ α} {keep : κ → α → Bool} (hkeep : ∀ e ∈ t.entries, keep e.1 e.2 = true) :
    t.filter keep = t := by
  have hentries : t.entries.filter (fun e => keep e.1 e.2) = t.entries := List.filter_eq_self.2 hkeep
  simp only [filter, hentries]

theorem length_keys (t : Table κ α) : t.keys.length = t.size := by simp [keys, size]

variable [DecidableEq κ]

def get? (t : Table κ α) (k : κ) : Option α := (t.entries.find? fun e => e.1 = k).map Prod.snd

def contains (t : Table κ α) (k : κ) : Bool := (t.get? k).isSome

def erase (t : Table κ α) (k : κ) : Table κ α := t.filter fun k' _ => k' ≠ k

/-- Writes an entry, in place of any earlier one with its key. -/
def insert (t : Table κ α) (k : κ) (a : α) : Table κ α where
  entries := (t.erase k).entries ++ [(k, a)]
  nodup_keys := by
    rw [List.map_append, List.nodup_append]
    refine ⟨(t.erase k).nodup_keys, by simp, ?_⟩
    intro x hx y hy
    simp only [List.map_cons, List.map_nil, List.mem_singleton] at hy
    simp only [erase, filter, List.mem_map, List.mem_filter] at hx
    obtain ⟨e, ⟨-, he⟩, rfl⟩ := hx
    simpa [hy] using he

@[simp] theorem get?_empty (k : κ) : (∅ : Table κ α).get? k = none := rfl

theorem keys_erase (t : Table κ α) (k : κ) : (t.erase k).keys = t.keys.filter (· ≠ k) := by
  simp [keys, erase, filter, List.filter_map, Function.comp_def]

theorem keys_insert (t : Table κ α) (k : κ) (a : α) :
    (t.insert k a).keys = t.keys.filter (· ≠ k) ++ [k] := by
  rw [← keys_erase]
  simp [keys, insert]

theorem mem_keys_iff {t : Table κ α} {k : κ} : k ∈ t.keys ↔ (t.get? k).isSome := by
  simp only [keys, get?, List.mem_map, Option.isSome_map, List.find?_isSome, decide_eq_true_eq]

theorem contains_iff {t : Table κ α} {k : κ} : t.contains k = true ↔ k ∈ t.keys := by
  rw [mem_keys_iff, contains]

theorem get?_erase (t : Table κ α) (k k' : κ) :
    (t.erase k).get? k' = if k' = k then none else t.get? k' := by
  simp only [get?, erase, filter, List.find?_filter]
  split
  · next h =>
    subst h
    rw [List.find?_eq_none.2, Option.map_none]
    simp
  · next h =>
    congr 1
    congr 1
    funext e
    by_cases he : e.1 = k'
    · simp [he, h]
    · simp [he]

theorem get?_insert (t : Table κ α) (k k' : κ) (a : α) :
    (t.insert k a).get? k' = if k' = k then some a else t.get? k' := by
  have h := get?_erase t k k'
  simp only [get?] at h ⊢
  simp only [insert, List.find?_append, Option.map_or, h]
  split
  · next hk => simp [hk]
  · next hk =>
    have : decide (k = k') = false := by simp [Ne.symm hk]
    simp [this]

theorem get?_foldl_insert_const (a : α) : ∀ (keys : List κ) (t : Table κ α) (k : κ),
    (keys.foldl (fun t key => t.insert key a) t).get? k = if k ∈ keys then some a else t.get? k
  | [], _, _ => by simp
  | key :: keys, t, k => by
    rw [List.foldl_cons, get?_foldl_insert_const a keys, get?_insert]
    by_cases hk : k = key
    · simp [hk]
    · simp [hk]

theorem get?_erase_eq_some {t : Table κ α} {k k' : κ} {b : α} :
    (t.erase k).get? k' = some b ↔ k' ≠ k ∧ t.get? k' = some b := by
  rw [get?_erase]
  split
  · next h => simp [h]
  · next h => simp [h]

theorem get?_insert_eq_some {t : Table κ α} {k k' : κ} {a b : α} :
    (t.insert k a).get? k' = some b ↔ k' = k ∧ a = b ∨ k' ≠ k ∧ t.get? k' = some b := by
  rw [get?_insert]
  split
  · next h => simp [h]
  · next h => simp [h]

theorem get?_eq_some_iff {t : Table κ α} {k : κ} {a : α} :
    t.get? k = some a ↔ (k, a) ∈ t.entries := by
  obtain ⟨entries, nodup⟩ := t
  simp only [get?]
  induction entries with
  | nil => simp
  | cons e es ih =>
    simp only [List.map_cons, List.nodup_cons] at nodup
    simp only [List.find?_cons]
    by_cases he : e.1 = k
    · subst he
      simp only [decide_true, Option.map_some, Option.some.injEq, List.mem_cons]
      constructor
      · rintro rfl
        exact Or.inl rfl
      · rintro (h | h)
        · exact (congrArg Prod.snd h).symm
        · exact absurd (List.mem_map_of_mem (f := Prod.fst) h) nodup.1
    · simp only [he, decide_false, ih nodup.2, List.mem_cons]
      constructor
      · exact Or.inr
      · rintro (h | h)
        · exact absurd (congrArg Prod.fst h).symm he
        · exact h

theorem get?_filter (t : Table κ α) (keep : κ → α → Bool) (k : κ) :
    (t.filter keep).get? k = (t.get? k).filter (keep k) := by
  apply Option.ext
  intro a
  rw [get?_eq_some_iff, Option.filter_eq_some_iff, get?_eq_some_iff]
  simp [filter]

theorem contains_eq_true {t : Table κ α} {k : κ} : t.contains k = true ↔ ∃ a, t.get? k = some a := by
  rw [contains, Option.isSome_iff_exists]

theorem contains_of_get? {t : Table κ α} {k : κ} {a : α} (h : t.get? k = some a) : t.contains k = true :=
  contains_eq_true.2 ⟨a, h⟩

@[simp] theorem contains_empty (k : κ) : (∅ : Table κ α).contains k = false := rfl

theorem contains_insert (t : Table κ α) (k k' : κ) (a : α) :
    (t.insert k a).contains k' = (decide (k' = k) || t.contains k') := by
  simp only [contains, get?_insert]
  split
  · next h => simp [h]
  · next h => simp [h]

theorem contains_erase (t : Table κ α) (k k' : κ) :
    (t.erase k).contains k' = (decide (k' ≠ k) && t.contains k') := by
  simp only [contains, get?_erase]
  split
  · next h => simp [h]
  · next h => simp [h]

/-- Something holds of an entry after a new one was written if it holds of an old entry or of the new one. -/
theorem exists_get?_insert {t : Table κ α} {k : κ} (h : t.contains k = false) (a : α) {p : α → Prop} :
    (∃ k' b, (t.insert k a).get? k' = some b ∧ p b) ↔ (∃ k' b, t.get? k' = some b ∧ p b) ∨ p a := by
  constructor
  · rintro ⟨k', b, hb, hp⟩
    obtain ⟨-, rfl⟩ | ⟨-, hb⟩ := get?_insert_eq_some.1 hb
    · exact Or.inr hp
    · exact Or.inl ⟨k', b, hb, hp⟩
  · rintro (⟨k', b, hb, hp⟩ | hp)
    · have hne : k' ≠ k := by
        rintro rfl
        rw [contains_of_get? hb] at h
        cases h
      exact ⟨k', b, get?_insert_eq_some.2 (Or.inr ⟨hne, hb⟩), hp⟩
    · exact ⟨k, a, get?_insert_eq_some.2 (Or.inl ⟨rfl, rfl⟩), hp⟩

theorem get?_of_size_eq_zero {t : Table κ α} (h : t.size = 0) (k : κ) : t.get? k = none := by
  rw [get?, List.eq_nil_of_length_eq_zero h]
  rfl

theorem size_erase_le (t : Table κ α) (k : κ) : (t.erase k).size ≤ t.size := List.length_filter_le _ _

theorem size_insert_le (t : Table κ α) (k : κ) (a : α) : (t.insert k a).size ≤ t.size + 1 := by
  rw [size, insert, List.length_append, List.length_singleton]
  exact Nat.succ_le_succ (size_erase_le t k)

theorem size_erase {t : Table κ α} {k : κ} (h : t.contains k = true) : (t.erase k).size + 1 = t.size := by
  have hk : k ∈ t.keys := contains_iff.1 h
  have he : t.keys.filter (· ≠ k) = t.keys.erase k := by
    rw [List.Nodup.erase_eq_filter (show t.keys.Nodup from t.nodup_keys)]
    congr 1
    funext x
    by_cases hx : x = k
    · simp [hx]
    · simp [hx]
  rw [← length_keys, ← length_keys, keys_erase, he, List.length_erase_of_mem hk]
  have := List.length_pos_of_mem hk
  omega

end Table
end LightClient
