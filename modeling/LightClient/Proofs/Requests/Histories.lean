import Mathlib.Data.List.Nodup
import LightClient.Proofs.Requests.Bookkeeping
/-!
# Histories of a round's books

Whatever is entered into the books of a round, in any order, they stay in order: `Consistent` is kept by every entry,
and so by every history (`consistent_of_history`). What this comes to is said by `books_of_history`.

When one of the blocks held back can be used, `releaseReady?` decides which one it is. Here the choice is left open: an
entry may let go of any of them.
-/
namespace LightClient
namespace Requests

/-- What can be entered into the books of a round. -/
inductive Entry where
  /-- The books begin anew. -/
  | reset (hashes : List Digest)
  | track (hashes : List Digest)
  | holdBack (block : FilteredBlock)
  | release (knows : Digest → Bool) (hash : Digest)
  | receiveBlock (block : FilteredBlock) (txids : List Digest)
  | receiveTx (tx : Transaction)

/-- The block that is held back under a hash is let go if its parent is here or known. -/
def release (r : Requests) (knows : Digest → Bool) (hash : Digest) : Requests :=
  if (r.heldBack.get? hash).any (r.isReady knows) then { r with heldBack := r.heldBack.erase hash } else r

def enter (r : Requests) : Entry → Requests
  | .reset hashes => ofHashes hashes
  | .track hashes => (r.track hashes).1
  | .holdBack block => r.holdBack block
  | .release knows hash => r.release knows hash
  | .receiveBlock block txids => (r.receiveBlock block txids).1
  | .receiveTx tx => (r.receiveTx tx).1

/-- The books of a new round after some entries. -/
def ofHistory (entries : List Entry) : Requests := entries.foldl enter empty

/-- The block that `releaseReady?` lets go of is one that may be let go. -/
theorem exists_release_of_releaseReady? {r r' : Requests} {knows : Digest → Bool} {block : FilteredBlock}
    (h : r.releaseReady? knows = some (block, r')) :
    ∃ hash, r.heldBack.get? hash = some block ∧ r' = r.release knows hash := by
  obtain ⟨hash, hget, hready, rfl⟩ := releaseReady?_eq_some h
  refine ⟨hash, hget, ?_⟩
  rw [release, hget, Option.any_some, if_pos hready]

/-- If it lets go of none, none may be let go. -/
theorem release_of_releaseReady?_eq_none {r : Requests} {knows : Digest → Bool} (h : r.releaseReady? knows = none)
    (hash : Digest) : r.release knows hash = r := by
  rw [release]
  cases hget : r.heldBack.get? hash with
  | none => rfl
  | some block => rw [Option.any_some, releaseReady?_eq_none h hget, if_neg Bool.false_ne_true]

theorem Consistent.enter {r : Requests} (h : r.Consistent) (entry : Entry) : (r.enter entry).Consistent := by
  cases entry with
  | reset hashes => exact Consistent.empty.track hashes
  | track hashes => exact h.track hashes
  | holdBack block => exact h.holdBack block
  | release knows hash =>
    rw [Requests.enter, Requests.release]
    split
    · exact h.eraseHeldBack hash
    · exact h
  | receiveBlock block txids => exact h.receiveBlock block txids
  | receiveTx tx => exact h.receiveTx tx

theorem Consistent.foldl_enter : ∀ (entries : List Entry) {r : Requests}, r.Consistent →
    (entries.foldl Requests.enter r).Consistent
  | [], _, h => h
  | entry :: entries, _, h => Consistent.foldl_enter entries (h.enter entry)

theorem consistent_of_history (entries : List Entry) : (ofHistory entries).Consistent :=
  Consistent.empty.foldl_enter entries

/-- **The books are in order**, whatever was entered. Each block that was asked for was asked for once and is either
awaited or here. A block that is held back is awaited, and stands under its own hash. The transactions that are awaited
and those that are here are different ones, and together they are those that the blocks here name. So the round is
finished exactly if it asked for something and every block and every transaction has arrived. -/
theorem books_of_history (entries : List Entry) :
    let r := ofHistory entries
    r.requested.Nodup ∧ r.requested.Perm (r.awaitedBlocks ++ r.blocks.keys) ∧
    r.awaitedBlocks.Disjoint r.blocks.keys ∧
    (∀ hash block, r.heldBack.get? hash = some block → block.hash = hash ∧ hash ∈ r.awaitedBlocks) ∧
    r.awaitedTxids.Disjoint r.transactions.keys ∧
    (∀ txid, txid ∈ r.awaitedTxids ++ r.transactions.keys ↔
      ∃ hash a, r.blocks.get? hash = some a ∧ txid ∈ a.txids) ∧
    (r.isFinished = true ↔ r.requested ≠ [] ∧ (∀ hash ∈ r.requested, hash ∈ r.blocks.keys) ∧
      ∀ hash a, r.blocks.get? hash = some a → ∀ txid ∈ a.txids, txid ∈ r.transactions.keys) := by
  intro r
  have h : r.Consistent := consistent_of_history entries
  refine ⟨h.nodup_requested, h.requested_perm, List.disjoint_of_nodup_append h.nodup_blocks, fun hash block hget => ?_,
    List.disjoint_of_nodup_append h.nodup_txids, h.mem_txids_iff, ?_⟩
  · obtain ⟨hhash, hawaited⟩ := h.heldBack hget
    exact ⟨hhash, isAwaitedBlock_iff.1 hawaited⟩
  · simp only [h.isFinished_iff_arrived, hasBlock, Table.contains_iff]

end Requests
end LightClient
