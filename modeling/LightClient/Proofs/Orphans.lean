import Mathlib.Data.List.Nodup
import LightClient.Orphans
/-!
# The pool of orphans

The queue lists exactly the hashes in the pool, each once (`Consistent`), and every operation keeps it so. The pool of
an engine moreover has room for what is in it, and every item is under its own hash (`Sound`). The lemmas besides say
what an operation leaves in the pool; one that finds room drops nothing (`get?_insert_of_room`).
-/
namespace LightClient

def OrphanItem.hash : OrphanItem → Digest
  | .block b => b.hash
  | .tx t => t.txid

namespace Orphans

/-- The queue lists the pool. -/
structure Consistent (o : Orphans) : Prop where
  nodup_queue : o.queue.Nodup
  mem_queue (hash : Digest) : hash ∈ o.queue ↔ o.contains hash = true

/-! ## What is in the pool -/

theorem get?_erase (o : Orphans) (hash x : Digest) :
    (o.erase hash).get? x = if x = hash then none else o.get? x := by
  unfold erase
  split
  · exact Table.get?_erase _ _ _
  · rename_i hnot
    split
    · rename_i hx
      rw [contains, Table.contains, Bool.not_eq_true, Option.isSome_eq_false_iff, Option.isNone_iff_eq_none] at hnot
      rw [hx, get?, hnot]
    · rfl

theorem get?_of_get?_erase {o : Orphans} {hash x : Digest} {a : Orphan} (h : (o.erase hash).get? x = some a) :
    o.get? x = some a := by
  rw [get?_erase] at h
  split at h
  · cases h
  · exact h

theorem contains_erase_of_ne (o : Orphans) {hash x : Digest} (h : x ≠ hash) :
    (o.erase hash).contains x = o.contains x := by
  have hget := get?_erase o hash x
  rw [if_neg h, get?, get?] at hget
  rw [contains, Table.contains, hget, contains, Table.contains]

theorem get?_retain (o : Orphans) (keep : Digest → Orphan → Bool) (x : Digest) :
    (o.retain keep).get? x = (o.get? x).filter (keep x) := Table.get?_filter _ _ _

theorem get?_of_get?_retain {o : Orphans} {keep : Digest → Orphan → Bool} {x : Digest} {a : Orphan}
    (h : (o.retain keep).get? x = some a) : o.get? x = some a := by
  rw [get?_retain, Option.filter_eq_some_iff] at h
  exact h.1

/-- Making room only drops entries. -/
theorem get?_of_get?_makeRoom : ∀ (queue : List Digest) (o : Orphans) {x : Digest} {a : Orphan},
    (o.makeRoom queue).get? x = some a → o.get? x = some a
  | [], _, _, _, h => h
  | oldest :: queue, o, x, a, h => by
    unfold makeRoom at h
    split at h
    · exact (Table.get?_erase_eq_some.1 (get?_of_get?_makeRoom queue _ h)).2
    · exact h

/-- An entry that was removed is not there when room has been made. -/
theorem not_contains_makeRoom_erase (o : Orphans) (hash : Digest) :
    ((o.erase hash).makeRoom (o.erase hash).queue).contains hash = false := by
  rw [Bool.eq_false_iff, ne_eq, contains, Table.contains_eq_true]
  rintro ⟨a, ha⟩
  have hget := get?_of_get?_makeRoom _ _ ha
  rw [get?_erase, if_pos rfl] at hget
  cases hget

theorem makeRoom_of_room {o : Orphans} (h : o.size < o.capacity) : o.makeRoom o.queue = o := by
  obtain ⟨entries, queue, capacity, lifetime⟩ := o
  cases queue with
  | nil => rfl
  | cons oldest queue =>
    exact if_neg (Nat.not_le.2 h)

/-- What is in the pool after an insertion was there before, or is the new entry. -/
theorem get?_of_get?_insert {o : Orphans} {hash x : Digest} {item : OrphanItem} {peer : PeerId} {now : Nat} {a : Orphan}
    (h : (o.insert hash item peer now).get? x = some a) : o.get? x = some a ∨ x = hash ∧ a = ⟨item, peer, now⟩ := by
  simp only [insert, get?, Table.get?_insert] at h
  split at h
  · rename_i hx
    exact Or.inr ⟨hx, (Option.some.inj h).symm⟩
  · exact Or.inl (get?_of_get?_erase (get?_of_get?_makeRoom _ _ h))

theorem capacity_erase (o : Orphans) (hash : Digest) : (o.erase hash).capacity = o.capacity := by
  unfold erase
  split <;> rfl

theorem lifetime_erase (o : Orphans) (hash : Digest) : (o.erase hash).lifetime = o.lifetime := by
  unfold erase
  split <;> rfl

theorem limits_makeRoom : ∀ (queue : List Digest) (o : Orphans),
    (o.makeRoom queue).capacity = o.capacity ∧ (o.makeRoom queue).lifetime = o.lifetime
  | [], _ => ⟨rfl, rfl⟩
  | oldest :: queue, o => by
    unfold makeRoom
    split
    · exact limits_makeRoom queue _
    · exact ⟨rfl, rfl⟩

theorem capacity_insert (o : Orphans) (hash : Digest) (item : OrphanItem) (peer : PeerId) (now : Nat) :
    (o.insert hash item peer now).capacity = o.capacity := by
  simp only [insert, (limits_makeRoom _ _).1, capacity_erase]

theorem lifetime_insert (o : Orphans) (hash : Digest) (item : OrphanItem) (peer : PeerId) (now : Nat) :
    (o.insert hash item peer now).lifetime = o.lifetime := by
  simp only [insert, (limits_makeRoom _ _).2, lifetime_erase]

theorem size_erase_le (o : Orphans) (hash : Digest) : (o.erase hash).size ≤ o.size := by
  unfold erase
  split
  · exact Table.size_erase_le _ _
  · exact Nat.le_refl _

theorem insert_of_room {o : Orphans} (h : o.size < o.capacity) (hash : Digest) (item : OrphanItem) (peer : PeerId)
    (now : Nat) :
    o.insert hash item peer now =
      { o.erase hash with
        entries := (o.erase hash).entries.insert hash ⟨item, peer, now⟩, queue := (o.erase hash).queue ++ [hash] } := by
  have hroom : (o.erase hash).size < (o.erase hash).capacity := by
    rw [capacity_erase]
    exact Nat.lt_of_le_of_lt (size_erase_le o hash) h
  simp only [insert, makeRoom_of_room hroom]

/-- **An insertion that finds room drops nothing.** -/
theorem get?_insert_of_room {o : Orphans} (h : o.size < o.capacity) (hash : Digest) (item : OrphanItem) (peer : PeerId)
    (now : Nat) (x : Digest) :
    (o.insert hash item peer now).get? x = if x = hash then some ⟨item, peer, now⟩ else o.get? x := by
  rw [insert_of_room h]
  simp only [get?, Table.get?_insert]
  split
  · rfl
  · rename_i hx
    have := get?_erase o hash x
    rw [if_neg hx] at this
    exact this

theorem size_erase {o : Orphans} {hash : Digest} (h : o.contains hash = true) : (o.erase hash).size + 1 = o.size := by
  unfold erase
  rw [if_pos h]
  exact Table.size_erase h

/-! ## The queue -/

namespace Consistent

theorem ofCapacity (n lifetime : Nat) : (Orphans.ofCapacity n lifetime).Consistent :=
  ⟨List.nodup_nil, fun hash => by simp [Orphans.ofCapacity, contains]⟩

theorem erase {o : Orphans} (h : o.Consistent) (hash : Digest) : (o.erase hash).Consistent := by
  unfold Orphans.erase
  split
  · refine ⟨h.nodup_queue.filter _, fun x => ?_⟩
    have hx := h.mem_queue x
    rw [contains] at hx
    rw [contains, Table.contains_erase, List.mem_filter, hx, Bool.and_comm, Bool.and_eq_true]
  · exact h

theorem retain {o : Orphans} (h : o.Consistent) (keep : Digest → Orphan → Bool) : (o.retain keep).Consistent := by
  refine ⟨h.nodup_queue.filter _, fun x => ?_⟩
  simp only [Orphans.retain, contains, List.mem_filter, h.mem_queue x]
  constructor
  · exact And.right
  · intro hx
    refine ⟨?_, hx⟩
    rw [Table.contains, Table.get?_filter] at hx
    rw [Table.contains]
    cases hget : o.entries.get? x with
    | none =>
      rw [hget] at hx
      cases hx
    | some a => rfl

theorem dropOldest {o : Orphans} {oldest : Digest} {queue : List Digest}
    (h : ({ o with queue := oldest :: queue } : Orphans).Consistent) :
    ({ o with entries := o.entries.erase oldest, queue } : Orphans).Consistent := by
  obtain ⟨hnotin, hnodup⟩ := List.nodup_cons.1 h.nodup_queue
  refine ⟨hnodup, fun x => ?_⟩
  have hx := h.mem_queue x
  simp only [contains, List.mem_cons, Table.contains_erase, Bool.and_eq_true, decide_eq_true_eq] at hx ⊢
  rw [← hx]
  constructor
  · intro hq
    exact ⟨fun heq => hnotin (heq ▸ hq), Or.inr hq⟩
  · rintro ⟨hne, hq⟩
    exact hq.resolve_left hne

theorem makeRoom : ∀ (queue : List Digest) (o : Orphans), ({ o with queue } : Orphans).Consistent →
    (o.makeRoom queue).Consistent
  | [], _, h => h
  | oldest :: queue, o, h => by
    unfold Orphans.makeRoom
    split
    · exact makeRoom queue _ h.dropOldest
    · exact h

theorem of_empty {o : Orphans} (hsize : o.size = 0) (hqueue : o.queue = []) : o.Consistent := by
  refine ⟨by rw [hqueue]; exact List.nodup_nil, fun hash => ?_⟩
  rw [hqueue, contains, Table.contains, Table.get?_of_size_eq_zero hsize]
  simp

theorem append {o : Orphans} {hash : Digest} (h : o.Consistent) (hout : o.contains hash = false)
    (a : Orphan) :
    ({ o with entries := o.entries.insert hash a, queue := o.queue ++ [hash] } : Orphans).Consistent := by
  constructor
  · rw [List.nodup_append]
    refine ⟨h.nodup_queue, List.pairwise_singleton _ _, ?_⟩
    rintro x hx y hy rfl
    rw [List.mem_singleton.1 hy, h.mem_queue, hout] at hx
    cases hx
  · intro x
    have hx := h.mem_queue x
    simp only [contains, List.mem_append, List.mem_singleton, Table.contains_insert, Bool.or_eq_true,
      decide_eq_true_eq] at hx ⊢
    rw [hx, or_comm]

theorem insert {o : Orphans} (h : o.Consistent) (hash : Digest) (item : OrphanItem) (peer : PeerId) (now : Nat) :
    (o.insert hash item peer now).Consistent :=
  append (makeRoom _ _ (h.erase hash)) (not_contains_makeRoom_erase o hash) _

/-- A test that every entry passes changes nothing. -/
theorem retain_eq_self {o : Orphans} (h : o.Consistent) {keep : Digest → Orphan → Bool}
    (hkeep : ∀ hash a, o.get? hash = some a → keep hash a = true) : o.retain keep = o := by
  have hentries : o.entries.filter keep = o.entries :=
    Table.filter_eq_self fun e he => hkeep e.1 e.2 (Table.get?_eq_some_iff.2 he)
  have hqueue : o.queue.filter o.entries.contains = o.queue :=
    List.filter_eq_self.2 fun hash hmem => (h.mem_queue hash).1 hmem
  simp only [Orphans.retain, hentries, hqueue]

theorem mem_toList {o : Orphans} (h : o.Consistent) {hash : Digest} {a : Orphan} :
    (hash, a) ∈ o.toList ↔ o.get? hash = some a := by
  unfold toList
  rw [List.mem_filterMap]
  constructor
  · rintro ⟨x, -, hx⟩
    obtain ⟨b, hb, heq⟩ := Option.map_eq_some_iff.1 hx
    cases heq
    exact hb
  · intro hget
    rw [get?] at hget
    refine ⟨hash, (h.mem_queue hash).2 (Table.contains_of_get? hget), ?_⟩
    rw [hget]
    rfl

theorem nodup_toList {o : Orphans} (h : o.Consistent) : (o.toList.map Prod.fst).Nodup := by
  have hsub : ∀ queue : List Digest,
      ((queue.filterMap fun hash => (o.entries.get? hash).map (hash, ·)).map Prod.fst).Sublist queue := by
    intro queue
    induction queue with
    | nil => exact .slnil
    | cons hash queue ih =>
      rw [List.filterMap_cons]
      cases o.entries.get? hash with
      | none => exact ih.cons hash
      | some a => exact ih.cons_cons hash
  exact h.nodup_queue.sublist (hsub o.queue)

theorem size_eq {o : Orphans} (h : o.Consistent) : o.size = o.queue.length := by
  rw [size, ← Table.length_keys]
  refine List.Perm.length_eq ((List.perm_ext_iff_of_nodup o.entries.nodup_keys h.nodup_queue).2 fun x => ?_)
  rw [h.mem_queue, contains, Table.contains_iff, Table.keys]

end Consistent

/-! ## Room -/

theorem size_insert_le (o : Orphans) (hash : Digest) (item : OrphanItem) (peer : PeerId) (now : Nat) :
    (o.insert hash item peer now).size ≤ o.size + 1 := by
  have hmake : ∀ (queue : List Digest) (o : Orphans), (o.makeRoom queue).size ≤ o.size := by
    intro queue
    induction queue with
    | nil => exact fun _ => Nat.le_refl _
    | cons oldest queue ih =>
      intro o
      unfold makeRoom
      split
      · exact Nat.le_trans (ih _) (Table.size_erase_le _ _)
      · exact Nat.le_refl _
  exact Nat.le_trans (Table.size_insert_le _ _ _)
    (Nat.succ_le_succ (Nat.le_trans (hmake _ _) (size_erase_le o hash)))

/-- Once the oldest entries are dropped, there is room for one more. -/
theorem size_makeRoom_lt : ∀ (queue : List Digest) (o : Orphans), ({ o with queue } : Orphans).Consistent →
    0 < o.capacity → (o.makeRoom queue).size < o.capacity
  | [], o, h, hcapacity => by
    rw [makeRoom, h.size_eq]
    exact hcapacity
  | oldest :: queue, o, h, hcapacity => by
    unfold makeRoom
    split
    · exact size_makeRoom_lt queue _ h.dropOldest hcapacity
    · rename_i hroom
      exact Nat.lt_of_not_le hroom

/-- The queue lists the pool, there is room for what is in it, and every item is under its own hash. -/
structure Sound (o : Orphans) : Prop where
  consistent : o.Consistent
  capacity_pos : 0 < o.capacity
  size_le : o.size ≤ o.capacity
  hash_item {hash : Digest} {a : Orphan} : o.get? hash = some a → a.item.hash = hash

namespace Sound

theorem ofCapacity (n lifetime : Nat) : (Orphans.ofCapacity n lifetime).Sound where
  consistent := .ofCapacity n lifetime
  capacity_pos := Nat.lt_of_lt_of_le Nat.one_pos (Nat.le_max_right n 1)
  size_le := Nat.zero_le _
  hash_item hget := by cases hget

variable {o : Orphans} (h : o.Sound)
include h

theorem erase (hash : Digest) : (o.erase hash).Sound where
  consistent := h.consistent.erase hash
  capacity_pos := by
    rw [capacity_erase]
    exact h.capacity_pos
  size_le := by
    rw [capacity_erase]
    exact Nat.le_trans (size_erase_le o hash) h.size_le
  hash_item hget := h.hash_item (get?_of_get?_erase hget)

theorem retain (keep : Digest → Orphan → Bool) : (o.retain keep).Sound where
  consistent := h.consistent.retain keep
  capacity_pos := h.capacity_pos
  size_le := Nat.le_trans (List.length_filter_le _ _) h.size_le
  hash_item hget := h.hash_item (get?_of_get?_retain hget)

theorem insert (item : OrphanItem) (peer : PeerId) (now : Nat) : (o.insert item.hash item peer now).Sound where
  consistent := h.consistent.insert _ _ _ _
  capacity_pos := by
    rw [capacity_insert]
    exact h.capacity_pos
  size_le := by
    have herased := h.erase item.hash
    have hroom := size_makeRoom_lt (o.erase item.hash).queue (o.erase item.hash) herased.consistent herased.capacity_pos
    rw [capacity_erase] at hroom
    rw [capacity_insert]
    exact Nat.le_trans (Table.size_insert_le _ _ _) hroom
  hash_item hget := by
    rcases get?_of_get?_insert hget with hold | ⟨rfl, rfl⟩
    · exact h.hash_item hold
    · rfl

end Sound

end Orphans
end LightClient
