import LightClient.Proofs.Toml.RoundTrip
import LightClient.Toml.Layers
/-!
# What can be found in layers

A table laid over a value is found in it again, key by key (`get?_overlayAll`), whatever was there before. A written
section whose keys are all different is therefore read as it was written (`setting?_overlayAll_fields`), by names and
not by positions.
-/
namespace LightClient.Toml

/-! ## Keys -/

theorem get?_cons (k : String) (e : String × Value) (entries : List (String × Value)) :
    (Value.table (e :: entries)).get? k = if e.1 = k then some e.2 else (Value.table entries).get? k := by
  simp only [Value.get?, Value.entries, List.find?_cons]
  by_cases hk : e.1 = k <;> simp [hk]

theorem get?_of_not_mem {k : String} {entries : List (String × Value)} (h : k ∉ entries.map Prod.fst) :
    (Value.table entries).get? k = none := by
  rw [Value.get?, Option.map_eq_none_iff, List.find?_eq_none]
  intro e he hkey
  exact h (of_decide_eq_true hkey ▸ List.mem_map_of_mem (f := Prod.fst) he)

theorem get?_of_mem {k : String} {v : Value} : ∀ {entries : List (String × Value)}, (entries.map Prod.fst).Nodup →
    (k, v) ∈ entries → (Value.table entries).get? k = some v
  | e :: entries, h, hmem => by
    rw [List.map_cons, List.nodup_cons] at h
    rw [get?_cons]
    rcases List.mem_cons.1 hmem with rfl | hmem
    · exact if_pos rfl
    · have hkey : k ∈ entries.map Prod.fst := List.mem_map_of_mem (f := Prod.fst) hmem
      have hne : e.1 ≠ k := fun h' => h.1 (h' ▸ hkey)
      rw [if_neg hne, get?_of_mem h.2 hmem]

theorem get?_writeEntry (key k : String) (v : Value) : ∀ entries : List (String × Value),
    (Value.table (writeEntry key v entries)).get? k = if key = k then some v else (Value.table entries).get? k
  | [] => get?_cons k (key, v) []
  | e :: entries => by
    rw [writeEntry, get?_cons k e]
    split
    · rename_i he
      rw [get?_cons, he]
      split <;> rfl
    · rename_i he
      rw [get?_cons, get?_writeEntry key k v entries]
      by_cases hk : e.1 = k
      · have hkey : key ≠ k := fun h => he (hk.trans h.symm)
        rw [if_pos hk, if_neg hkey, if_pos hk]
      · rw [if_neg hk, if_neg hk]

/-! ## Layers -/

/-- Each value is laid over what was under its key, and nothing else changes. -/
theorem get?_overlayAll (k : String) : ∀ {entries : List (String × Value)}, (entries.map Prod.fst).Nodup →
    ∀ old, (overlayAll old entries).get? k =
      match (Value.table entries).get? k with
      | some v => some (overlay (old.get? k) v)
      | none => old.get? k
  | [], _, old => by
    rw [overlayAll]
    rfl
  | (key, v) :: entries, h, old => by
    rw [List.map_cons, List.nodup_cons] at h
    have hold : (Value.table old.entries).get? k = old.get? k := rfl
    rw [overlayAll, get?_overlayAll k h.2, get?_writeEntry, hold, get?_cons]
    by_cases hk : key = k
    · subst hk
      rw [get?_of_not_mem h.1, if_pos rfl, if_pos rfl]
    · rw [if_neg hk, if_neg hk]

theorem isTable_overlayAll : ∀ {entries : List (String × Value)}, entries ≠ [] →
    ∀ old, ∃ es, overlayAll old entries = .table es
  | [(key, v)], _, old => by
    rw [overlayAll, overlayAll]
    exact ⟨_, rfl⟩
  | (key, v) :: e :: entries, _, old => by
    rw [overlayAll]
    exact isTable_overlayAll (List.cons_ne_nil e entries) _

theorem addLayer_eq_overlayAll : ∀ {layer : List (String × Value)}, (∀ e ∈ layer, placeOf e.1 = [.key e.1]) →
    ∀ under, addLayer under layer = overlayAll under layer
  | [], _, under => by
    rw [overlayAll]
    rfl
  | (key, v) :: layer, h, under => by
    rw [List.forall_mem_cons] at h
    rw [overlayAll, ← addLayer_eq_overlayAll h.2, addLayer, List.foldl_cons, h.1, writeAt]
    rfl

/-! ## Fields -/

theorem overlay_field (old : Option Value) (f : Field) : overlay old f.value = f.value := by
  cases f <;> simp [Field.value, overlay]

/-- Fields that are laid over a value can all be found in it. -/
theorem get?_overlayAll_fields {fields : List (String × Field)} (h : (fields.map Prod.fst).Nodup) (old : Value)
    (key : String) (f : Field) (hf : (key, f) ∈ fields) :
    (overlayAll old (fields.map entryValue)).get? key = some f.value := by
  have hkeys : ((fields.map entryValue).map Prod.fst).Nodup := by
    rw [List.map_map]
    exact h
  have hget : (Value.table (fields.map entryValue)).get? key = some f.value :=
    get?_of_mem hkeys (List.mem_map_of_mem (f := entryValue) hf)
  rw [get?_overlayAll key hkeys, hget]
  exact congrArg some (overlay_field _ f)

theorem setting?_overlayAll_fields {fields : List (String × Field)} (h : (fields.map Prod.fst).Nodup) (old : Value)
    (key : String) (f : Field) (hf : (key, f) ∈ fields) (position : Nat) :
    (overlayAll old (fields.map entryValue)).setting? position key = some f.value := by
  have hne : fields.map entryValue ≠ [] := List.ne_nil_of_mem (List.mem_map_of_mem hf)
  obtain ⟨es, hes⟩ := isTable_overlayAll hne old
  have hget := get?_overlayAll_fields h old key f hf
  rw [hes] at hget ⊢
  exact hget

theorem countAt?_overlayAll_fields {fields : List (String × Field)} (h : (fields.map Prod.fst).Nodup) (old : Value)
    (key : String) (n : Nat) (hf : (key, .number n) ∈ fields) (position : Nat) :
    (overlayAll old (fields.map entryValue)).countAt? position key = some n := by
  rw [Value.countAt?, setting?_overlayAll_fields h old key (.number n) hf]
  simp [Field.value, Value.count?]

theorem texts?_strings (items : List String) : (Field.strings items).value.texts? = some items := by
  have htext : ∀ s ∈ items, (Value.text? ∘ Value.string) s = some (id s) := fun _ _ => rfl
  have htexts : (items.map Value.string).mapM Value.text? = some items := by
    rw [List.mapM_map, mapM_eq_some_map htext, List.map_id]
  exact htexts

end LightClient.Toml
