/-!
# A bounded record of recent keys

Holds at most `capacity` keys, the most recently written first; the one written longest ago makes
room. Looking a key up does not refresh it.
-/
namespace LightClient

structure Recent (κ : Type) where
  capacity : Nat
  keys : List κ

namespace Recent

variable {κ : Type} [DecidableEq κ]

/-- An empty record, with room for one key at least. -/
def ofCapacity (n : Nat) : Recent κ := ⟨max n 1, []⟩

def contains (r : Recent κ) (k : κ) : Bool := k ∈ r.keys

def insert (r : Recent κ) (k : κ) : Recent κ :=
  { r with keys := (k :: r.keys.erase k).take r.capacity }

theorem contains_insert {r : Recent κ} {k k' : κ} (h : (r.insert k).contains k' = true) :
    k' = k ∨ r.contains k' = true := by
  rw [contains, decide_eq_true_eq] at h ⊢
  exact (List.mem_cons.1 (List.mem_of_mem_take h)).imp_right List.mem_of_mem_erase

theorem contains_foldl_insert : ∀ (keys : List κ) {r : Recent κ} {k : κ},
    (keys.foldl insert r).contains k = true → k ∈ keys ∨ r.contains k = true
  | [], _, _, h => Or.inr h
  | key :: keys, r, k, h => by
    rw [List.mem_cons, or_assoc]
    rcases contains_foldl_insert keys h with hkeys | h
    · exact Or.inr (Or.inl hkeys)
    · exact (contains_insert h).imp_right Or.inr

end Recent
end LightClient
