import LightClient.Proofs.Orphans
/-!
# The pool of orphans as a list

A `Backlog` is what the pool is meant to be: the entries, oldest first, in one list. A new entry takes the place of one
with its hash and goes to the end. If there are too many, the oldest ones go.

`Represents` says that a pool holds a backlog. Every call keeps it so (`Represents.serve`), and therefore every history
of calls does. What the pool does with its table and its queue can then be read off the list. If the calls came one
after another in time, the entries stand in the order in which they were received (`sorted_foldl_serve`), and those that
expire are the first ones.
-/
namespace LightClient

/-- The entries of a pool, oldest first. -/
abbrev Backlog := List (Digest × Orphan)

namespace Orphans

/-- What can be asked of a pool. -/
inductive Call where
  | insert (hash : Digest) (item : OrphanItem) (peer : PeerId) (now : Nat)
  | remove (hash : Digest)
  | retain (keep : Digest → Orphan → Bool)
  | expire (now : Nat)

/-- When the call came, if it says so. -/
def Call.time? : Call → Option Nat
  | .insert _ _ _ now => some now
  | .remove _ => none
  | .retain _ => none
  | .expire now => some now

def serve (o : Orphans) : Call → Orphans
  | .insert hash item peer now => o.insert hash item peer now
  | .remove hash => o.erase hash
  | .retain keep => o.retain keep
  | .expire now => o.expire now

end Orphans

namespace Backlog

open Orphans (Call)

/-- Drops the oldest entries while there are as many as there is room for, or more. -/
def makeRoom (capacity : Nat) : Backlog → Backlog
  | [] => []
  | e :: l => if capacity ≤ (e :: l).length then makeRoom capacity l else e :: l

def serve (capacity lifetime : Nat) (l : Backlog) : Call → Backlog
  | .insert hash item peer now => makeRoom capacity (l.filter (·.1 ≠ hash)) ++ [(hash, ⟨item, peer, now⟩)]
  | .remove hash => l.filter (·.1 ≠ hash)
  | .retain keep => l.filter fun e => keep e.1 e.2
  | .expire now => l.filter fun e => now - e.2.received < lifetime

theorem makeRoom_of_lt {capacity : Nat} {l : Backlog} (h : l.length < capacity) : makeRoom capacity l = l := by
  cases l with
  | nil => rfl
  | cons e l => exact if_neg (Nat.not_le.2 h)

theorem length_makeRoom_lt {capacity : Nat} (hcapacity : 0 < capacity) : ∀ l : Backlog,
    (makeRoom capacity l).length < capacity
  | [] => hcapacity
  | e :: l => by
    rw [makeRoom]
    split
    · exact length_makeRoom_lt hcapacity l
    · rename_i hroom
      exact Nat.lt_of_not_le hroom

theorem makeRoom_sublist (capacity : Nat) : ∀ l : Backlog, (makeRoom capacity l).Sublist l
  | [] => .slnil
  | e :: l => by
    rw [makeRoom]
    split
    · exact (makeRoom_sublist capacity l).cons e
    · exact .refl _

theorem length_serve_le {capacity lifetime : Nat} (hcapacity : 0 < capacity) {l : Backlog} (h : l.length ≤ capacity)
    (call : Call) : (l.serve capacity lifetime call).length ≤ capacity := by
  cases call with
  | insert hash item peer now =>
    rw [serve, List.length_append, List.length_singleton]
    exact length_makeRoom_lt hcapacity _
  | remove hash => exact Nat.le_trans (List.length_filter_le _ _) h
  | retain keep => exact Nat.le_trans (List.length_filter_le _ _) h
  | expire now => exact Nat.le_trans (List.length_filter_le _ _) h

theorem length_foldl_serve_le {capacity lifetime : Nat} (hcapacity : 0 < capacity) : ∀ (calls : List Call) {l : Backlog},
    l.length ≤ capacity → (calls.foldl (serve capacity lifetime) l).length ≤ capacity
  | [], _, h => h
  | call :: calls, _, h => length_foldl_serve_le hcapacity calls (length_serve_le hcapacity h call)

/-! ## The order in time -/

/-- The times at which the entries were received. -/
def times (l : Backlog) : List Nat := l.map (·.2.received)

/-- A call adds its own time at most, and at the end. -/
theorem times_serve_sublist (capacity lifetime : Nat) (l : Backlog) (call : Call) :
    (l.serve capacity lifetime call).times.Sublist (l.times ++ call.time?.toList) := by
  cases call with
  | insert hash item peer now =>
    rw [times, serve, List.map_append]
    exact (((makeRoom_sublist capacity _).trans List.filter_sublist).map _).append (.refl _)
  | remove hash => exact (List.filter_sublist.map _).trans (List.sublist_append_left _ _)
  | retain keep => exact (List.filter_sublist.map _).trans (List.sublist_append_left _ _)
  | expire now => exact (List.filter_sublist.map _).trans (List.sublist_append_left _ _)

/-- **Calls that come one after another leave the entries in the order of their times.** -/
theorem sorted_foldl_serve (capacity lifetime : Nat) : ∀ (calls : List Call) (l : Backlog),
    (l.times ++ calls.filterMap Call.time?).Pairwise (· ≤ ·) →
    (calls.foldl (serve capacity lifetime) l).times.Pairwise (· ≤ ·)
  | [], l, h => by
    rw [List.filterMap_nil, List.append_nil] at h
    exact h
  | call :: calls, l, h => by
    have hsplit : l.times ++ (call :: calls).filterMap Call.time? =
        (l.times ++ call.time?.toList) ++ calls.filterMap Call.time? := by
      rw [List.filterMap_cons, List.append_assoc]
      cases call.time? <;> rfl
    rw [hsplit] at h
    exact sorted_foldl_serve capacity lifetime calls _
      (h.sublist ((times_serve_sublist capacity lifetime l call).append (.refl _)))

/-- What has expired stands first. -/
theorem filter_fresh_eq_dropWhile (now lifetime : Nat) : ∀ {l : Backlog}, l.times.Pairwise (· ≤ ·) →
    l.filter (fun e => now - e.2.received < lifetime) = l.dropWhile fun e => lifetime ≤ now - e.2.received
  | [], _ => rfl
  | e :: l, h => by
    obtain ⟨hfirst, hrest⟩ := List.pairwise_cons.1 h
    by_cases hold : lifetime ≤ now - e.2.received
    · rw [List.filter_cons_of_neg (by simpa using hold), List.dropWhile_cons_of_pos (by simpa using hold),
        filter_fresh_eq_dropWhile now lifetime hrest]
    · rw [List.dropWhile_cons_of_neg (by simpa using hold), List.filter_eq_self]
      have hfresh {time : Nat} (hlater : e.2.received ≤ time) : now - time < lifetime := by omega
      rintro d (_ | ⟨_, hd⟩)
      · exact decide_eq_true (hfresh (Nat.le_refl _))
      · exact decide_eq_true (hfresh (hfirst _ (List.mem_map_of_mem hd)))

end Backlog

/-! ## What each call does to the list of entries -/

namespace Orphans

theorem toList_retain (o : Orphans) (keep : Digest → Orphan → Bool) :
    (o.retain keep).toList = o.toList.filter fun e => keep e.1 e.2 := by
  simp only [toList, retain, List.filterMap_filter, List.filter_filterMap]
  refine List.filterMap_congr fun hash _ => ?_
  rw [Table.contains, Table.get?_filter]
  cases o.entries.get? hash with
  | none => rfl
  | some a => cases hkeep : keep hash a <;> simp [Option.filter, hkeep]

namespace Consistent

variable {o : Orphans} (h : o.Consistent)
include h

theorem map_fst_toList : o.toList.map Prod.fst = o.queue := by
  have hself : o.queue.filterMap some = o.queue := List.filterMap_some
  rw [toList, List.map_filterMap]
  conv_rhs => rw [← hself]
  refine List.filterMap_congr fun hash hmem => ?_
  obtain ⟨a, ha⟩ := Table.contains_eq_true.1 ((h.mem_queue hash).1 hmem)
  rw [ha]
  rfl

theorem length_toList : o.toList.length = o.size := by
  rw [h.size_eq, ← h.map_fst_toList, List.length_map]

/-- To remove an entry is to keep the others. -/
theorem erase_eq_retain (hash : Digest) : o.erase hash = o.retain fun x _ => x ≠ hash := by
  unfold Orphans.erase
  split
  · have hqueue : o.queue.filter (· ≠ hash) = o.queue.filter (o.entries.erase hash).contains := by
      refine List.filter_congr fun x hx => ?_
      have hin : o.entries.contains x = true := (h.mem_queue x).1 hx
      rw [Table.contains_erase, hin, Bool.and_true]
    simp only [Orphans.retain, hqueue]
    rfl
  · rename_i hnot
    refine (h.retain_eq_self fun x a ha => decide_eq_true ?_).symm
    rintro rfl
    exact hnot (Table.contains_of_get? ha)

theorem toList_erase (hash : Digest) : (o.erase hash).toList = o.toList.filter (·.1 ≠ hash) := by
  rw [h.erase_eq_retain, toList_retain]

theorem toList_append {hash : Digest} (hout : o.contains hash = false) (a : Orphan) :
    ({ o with entries := o.entries.insert hash a, queue := o.queue ++ [hash] } : Orphans).toList =
      o.toList ++ [(hash, a)] := by
  have hold : o.queue.filterMap (fun x => ((o.entries.insert hash a).get? x).map (x, ·)) = o.toList := by
    refine List.filterMap_congr fun x hx => ?_
    have hne : x ≠ hash := by
      rintro rfl
      rw [h.mem_queue, hout] at hx
      cases hx
    rw [Table.get?_insert, if_neg hne]
  simp only [toList] at hold ⊢
  rw [List.filterMap_append, hold, List.filterMap_cons, Table.get?_insert, if_pos rfl]
  rfl

end Consistent

/-- **Dropping what the queue names first is dropping the first entries of the list.** -/
theorem toList_makeRoom : ∀ (queue : List Digest) (o : Orphans), ({ o with queue } : Orphans).Consistent →
    (o.makeRoom queue).toList = Backlog.makeRoom o.capacity ({ o with queue } : Orphans).toList
  | [], _, _ => rfl
  | oldest :: queue, o, h => by
    obtain ⟨a, ha⟩ := Table.contains_eq_true.1 ((h.mem_queue oldest).1 List.mem_cons_self)
    have hrest : queue.filterMap (fun x => ((o.entries.erase oldest).get? x).map (x, ·)) =
        queue.filterMap fun x => (o.entries.get? x).map (x, ·) := by
      refine List.filterMap_congr fun x hx => ?_
      have hne : x ≠ oldest := fun heq => (List.nodup_cons.1 h.nodup_queue).1 (heq ▸ hx)
      rw [Table.get?_erase, if_neg hne]
    have hlist : ({ o with queue := oldest :: queue } : Orphans).toList =
        (oldest, a) :: ({ o with entries := o.entries.erase oldest, queue } : Orphans).toList := by
      simp only [toList] at ha ⊢
      rw [List.filterMap_cons, ha, hrest]
      rfl
    have hsize : ((oldest, a) :: ({ o with entries := o.entries.erase oldest, queue } : Orphans).toList).length =
        o.size := by
      rw [← hlist, h.length_toList]
      rfl
    rw [makeRoom, hlist, Backlog.makeRoom, hsize]
    split
    · exact toList_makeRoom queue _ h.dropOldest
    · exact hlist

theorem Consistent.toList_insert {o : Orphans} (h : o.Consistent) (hash : Digest) (item : OrphanItem) (peer : PeerId)
    (now : Nat) :
    (o.insert hash item peer now).toList =
      Backlog.makeRoom o.capacity (o.toList.filter (·.1 ≠ hash)) ++ [(hash, ⟨item, peer, now⟩)] := by
  have herased := h.erase hash
  have hroom : ((o.erase hash).makeRoom (o.erase hash).queue).Consistent := .makeRoom _ _ herased
  have hmade : ((o.erase hash).makeRoom (o.erase hash).queue).toList =
      Backlog.makeRoom (o.erase hash).capacity (o.erase hash).toList := toList_makeRoom _ _ herased
  rw [Orphans.insert, hroom.toList_append (not_contains_makeRoom_erase o hash), hmade, capacity_erase, h.toList_erase]

/-! ## Histories -/

/-- The pool holds the entries of the list, within these limits. -/
structure Represents (capacity lifetime : Nat) (o : Orphans) (l : Backlog) : Prop where
  consistent : o.Consistent
  capacity_eq : o.capacity = capacity
  lifetime_eq : o.lifetime = lifetime
  toList_eq : o.toList = l

variable {capacity lifetime : Nat} {o : Orphans} {l : Backlog}

/-- **A pool that holds a backlog goes on doing so.** -/
theorem Represents.serve (h : Represents capacity lifetime o l) (call : Call) :
    Represents capacity lifetime (o.serve call) (l.serve capacity lifetime call) := by
  obtain ⟨hconsistent, rfl, rfl, rfl⟩ := h
  cases call with
  | insert hash item peer now =>
    exact ⟨hconsistent.insert _ _ _ _, capacity_insert _ _ _ _ _, lifetime_insert _ _ _ _ _,
      hconsistent.toList_insert hash item peer now⟩
  | remove hash =>
    exact ⟨hconsistent.erase hash, capacity_erase o hash, lifetime_erase o hash, hconsistent.toList_erase hash⟩
  | retain keep => exact ⟨hconsistent.retain keep, rfl, rfl, toList_retain o keep⟩
  | expire now => exact ⟨hconsistent.retain _, rfl, rfl, toList_retain o _⟩

theorem Represents.foldl_serve : ∀ (calls : List Call) {o : Orphans} {l : Backlog},
    Represents capacity lifetime o l →
    Represents capacity lifetime (calls.foldl Orphans.serve o) (calls.foldl (Backlog.serve capacity lifetime) l)
  | [], _, _, h => h
  | call :: calls, _, _, h => Represents.foldl_serve calls (h.serve call)

theorem represents_ofCapacity (n lifetime : Nat) : Represents (max n 1) lifetime (ofCapacity n lifetime) [] :=
  ⟨.ofCapacity n lifetime, rfl, rfl, rfl⟩

/-- An entry that is inserted anew takes no room from the others. -/
theorem Consistent.toList_insert_of_contains (h : o.Consistent) (hsize : o.size ≤ o.capacity) {hash : Digest}
    (hin : o.contains hash = true) (item : OrphanItem) (peer : PeerId) (now : Nat) :
    (o.insert hash item peer now).toList = o.toList.filter (·.1 ≠ hash) ++ [(hash, ⟨item, peer, now⟩)] := by
  have hroom : (o.toList.filter (·.1 ≠ hash)).length < o.capacity := by
    rw [← h.toList_erase, (h.erase hash).length_toList]
    exact Nat.lt_of_lt_of_le (Nat.lt_of_succ_le (Nat.le_of_eq (size_erase hin))) hsize
  rw [h.toList_insert, Backlog.makeRoom_of_lt hroom]

/-- **The pool is a bounded queue in the order of age.** After any calls, one after another in time, it holds the
entries of the backlog that took the same calls. The queue names each key of the table once. There are never more
entries than there is room for. An entry that is inserted anew goes to the end and makes no other one go. The entries
stand in the order in which they were received, and those that expire, at whatever time, are the ones at the front that
have had their time. -/
theorem backlog_of_history (n lifetime : Nat) (calls : List Call)
    (h : (calls.filterMap Call.time?).Pairwise (· ≤ ·)) :
    let o := calls.foldl serve (ofCapacity n lifetime)
    let l := calls.foldl (Backlog.serve (max n 1) lifetime) []
    o.toList = l ∧ (∀ hash a, o.get? hash = some a ↔ (hash, a) ∈ l) ∧
    o.queue = l.map Prod.fst ∧ o.queue.Nodup ∧ o.queue.Perm o.entries.keys ∧
    o.size = l.length ∧ o.size ≤ max n 1 ∧
    (∀ hash item peer now, o.contains hash = true →
      (o.insert hash item peer now).toList = l.filter (·.1 ≠ hash) ++ [(hash, ⟨item, peer, now⟩)]) ∧
    (l.map (·.2.received)).Pairwise (· ≤ ·) ∧
    ∀ now, (o.expire now).toList = l.filter (fun e => ¬ lifetime ≤ now - e.2.received) ∧
      (o.expire now).toList = l.dropWhile fun e => lifetime ≤ now - e.2.received := by
  intro o l
  obtain ⟨hconsistent, hcapacity, hlifetime, hlist⟩ :
      Represents (max n 1) lifetime o l := (represents_ofCapacity n lifetime).foldl_serve calls
  have hsorted : l.times.Pairwise (· ≤ ·) := Backlog.sorted_foldl_serve _ _ calls [] h
  have hlength : o.size = l.length := by rw [← hconsistent.length_toList, hlist]
  have hsize : o.size ≤ max n 1 := by
    rw [hlength]
    exact Backlog.length_foldl_serve_le (Nat.le_max_right n 1) calls (Nat.zero_le _)
  have hperm : o.queue.Perm o.entries.keys := by
    refine (List.perm_ext_iff_of_nodup hconsistent.nodup_queue o.entries.nodup_keys).2 fun x => ?_
    exact (hconsistent.mem_queue x).trans Table.contains_iff
  have hexpire (now : Nat) : (o.expire now).toList = l.filter fun e => now - e.2.received < lifetime := by
    rw [expire, toList_retain, hlist, hlifetime]
  refine ⟨hlist, fun hash a => ?_, ?_, hconsistent.nodup_queue, hperm, hlength, hsize, ?_, hsorted, fun now => ⟨?_, ?_⟩⟩
  · rw [← hconsistent.mem_toList, hlist]
  · rw [← hlist, hconsistent.map_fst_toList]
  · intro hash item peer now hin
    rw [← hlist]
    exact hconsistent.toList_insert_of_contains (hcapacity ▸ hsize) hin item peer now
  · simp only [hexpire, Nat.not_le]
  · rw [hexpire, Backlog.filter_fresh_eq_dropWhile now lifetime hsorted]

end Orphans

namespace Sample

def mark (b : UInt8) : Digest := ⟨List.replicate 32 b, List.length_replicate⟩

def early : OrphanItem := .tx ⟨0, [], [], 0⟩

/-- Three hashes for a pool of two, and the second one again. -/
def flood : List Orphans.Call :=
  [.insert (mark 1) early ⟨1⟩ 0, .insert (mark 2) early ⟨1⟩ 3, .insert (mark 3) early ⟨1⟩ 5,
    .insert (mark 2) early ⟨1⟩ 7]

end Sample

open Sample in
/-- The first entry goes when the third one comes. When the second one comes again, it goes to the end and the third one
stays, until it has waited for ten. -/
theorem Orphans.backlog_of_history_flood :
    (flood.filterMap Call.time?).Pairwise (· ≤ ·) ∧
      (flood.foldl serve (ofCapacity 2 10)).queue = [mark 3, mark 2] ∧
      (flood.foldl serve (ofCapacity 2 10)).toList.map (·.2.received) = [5, 7] ∧
      ((flood.foldl serve (ofCapacity 2 10)).expire 14).toList.map Prod.fst = [mark 3, mark 2] ∧
      ((flood.foldl serve (ofCapacity 2 10)).expire 15).toList.map Prod.fst = [mark 2] := by
  have hordered : (flood.filterMap Call.time?).Pairwise (· ≤ ·) := by decide
  have hbacklog : flood.foldl (Backlog.serve (max 2 1) 10) [] =
      [(mark 3, ⟨early, ⟨1⟩, 5⟩), (mark 2, ⟨early, ⟨1⟩, 7⟩)] := by decide +kernel
  obtain ⟨hlist, -, hqueue, -, -, -, -, -, -, hexpire⟩ := backlog_of_history 2 10 flood hordered
  rw [hbacklog] at hlist hqueue hexpire
  refine ⟨hordered, hqueue, ?_, ?_, ?_⟩
  · rw [hlist]
    rfl
  · rw [(hexpire 14).2]
    rfl
  · rw [(hexpire 15).2]
    rfl

end LightClient
