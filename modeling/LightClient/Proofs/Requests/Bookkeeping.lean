import Mathlib.Tactic.Tauto
import LightClient.Requests
/-!
# The bookkeeping of a round's requests

`Consistent` says how the lists and tables of a round hang together: what was asked for is awaited or here and never
both, every entry is stored under its own hash, and the transactions that are awaited or here are those that the proofs
of the blocks name. Every operation keeps it.
-/
namespace LightClient
namespace Requests

structure Consistent (r : Requests) : Prop where
  nodup_requested : r.requested.Nodup
  nodup_awaitedBlocks : r.awaitedBlocks.Nodup
  nodup_awaitedTxids : r.awaitedTxids.Nodup
  mem_requested (hash : Digest) : hash ∈ r.requested ↔ r.isTracked hash = true
  /-- An awaited block is not here. -/
  not_hasBlock {hash : Digest} : r.isAwaitedBlock hash = true → r.hasBlock hash = false
  block_hash {hash : Digest} {a : Arrival} : r.blocks.get? hash = some a → a.block.hash = hash
  heldBack {hash : Digest} {block : FilteredBlock} :
    r.heldBack.get? hash = some block → block.hash = hash ∧ r.isAwaitedBlock hash = true
  tx_txid {txid : Digest} {tx : Transaction} : r.transactions.get? txid = some tx → tx.txid = txid
  not_contains_tx {txid : Digest} : r.isAwaitedTx txid = true → r.transactions.contains txid = false
  /-- The transactions of the round are those that the proofs name. -/
  named (txid : Digest) : (r.isAwaitedTx txid = true ∨ r.transactions.contains txid = true) ↔
    ∃ hash a, r.blocks.get? hash = some a ∧ txid ∈ a.txids

/-! ## Asking for more -/

theorem isAwaitedBlock_iff {r : Requests} {hash : Digest} : r.isAwaitedBlock hash = true ↔ hash ∈ r.awaitedBlocks := by
  simp [isAwaitedBlock]

theorem isAwaitedTx_iff {r : Requests} {txid : Digest} : r.isAwaitedTx txid = true ↔ txid ∈ r.awaitedTxids := by
  simp [isAwaitedTx]

theorem isTracked_iff {r : Requests} {hash : Digest} :
    r.isTracked hash = true ↔ r.isAwaitedBlock hash = true ∨ r.hasBlock hash = true := by
  simp [isTracked]

theorem isFinished_iff {r : Requests} :
    r.isFinished = true ↔ r.requested ≠ [] ∧ r.awaitedBlocks = [] ∧ r.awaitedTxids = [] := by
  simp [isFinished, isEmpty, and_assoc]

/-- Of the given blocks, those that are new to the round. -/
def newBlocks (r : Requests) (hashes : List Digest) : List Digest := (r.track hashes).2

theorem isTracked_trackOne (r : Requests) (hash x : Digest) :
    (r.trackOne hash).isTracked x = (r.isTracked x || decide (x = hash)) := by
  simp only [isTracked, isAwaitedBlock, trackOne, hasBlock, List.mem_append, List.mem_singleton]
  by_cases h : x = hash <;> simp [h]

/-- **Asking for more blocks** adds the new ones to what was asked for and to what is awaited. -/
theorem track_fst : ∀ (hashes : List Digest) (r : Requests),
    (r.track hashes).1 = { r with requested := r.requested ++ r.newBlocks hashes,
                                  awaitedBlocks := r.awaitedBlocks ++ r.newBlocks hashes }
  | [], r => by simp [track, newBlocks]
  | hash :: hashes, r => by
    unfold newBlocks track
    split
    · exact track_fst hashes r
    · simp only [track_fst hashes (r.trackOne hash)]
      simp [trackOne, newBlocks]

theorem mem_newBlocks : ∀ (hashes : List Digest) (r : Requests) (x : Digest),
    x ∈ r.newBlocks hashes ↔ x ∈ hashes ∧ r.isTracked x = false
  | [], r, x => by simp [newBlocks, track]
  | hash :: hashes, r, x => by
    unfold newBlocks track
    split
    · rename_i ht
      change x ∈ r.newBlocks hashes ↔ _
      rw [mem_newBlocks hashes r x, List.mem_cons]
      by_cases hx : x = hash
      · subst hx; simp [ht]
      · simp [hx]
    · rename_i ht
      change x ∈ hash :: (r.trackOne hash).newBlocks hashes ↔ _
      rw [List.mem_cons, mem_newBlocks hashes (r.trackOne hash) x, isTracked_trackOne, List.mem_cons]
      by_cases hx : x = hash
      · subst hx; simp [ht]
      · simp [hx]

theorem nodup_newBlocks : ∀ (hashes : List Digest) (r : Requests), (r.newBlocks hashes).Nodup
  | [], r => List.nodup_nil
  | hash :: hashes, r => by
    unfold newBlocks track
    split
    · exact nodup_newBlocks hashes r
    · change (hash :: (r.trackOne hash).newBlocks hashes).Nodup
      rw [List.nodup_cons]
      refine ⟨fun hmem => ?_, nodup_newBlocks hashes _⟩
      have := ((mem_newBlocks _ _ _).1 hmem).2
      simp [isTracked_trackOne] at this

/-- Of the given transactions, those that are new to the round. -/
def newTxids (r : Requests) (txids : List Digest) : List Digest := (r.awaitTxs txids).2

theorem awaitTxs_fst : ∀ (txids : List Digest) (r : Requests),
    (r.awaitTxs txids).1 = { r with awaitedTxids := r.awaitedTxids ++ r.newTxids txids }
  | [], r => by simp [awaitTxs, newTxids]
  | txid :: txids, r => by
    unfold newTxids awaitTxs
    split
    · exact awaitTxs_fst txids r
    · simp only [awaitTxs_fst txids]
      simp [newTxids]

theorem mem_newTxids : ∀ (txids : List Digest) (r : Requests) (x : Digest),
    x ∈ r.newTxids txids ↔ x ∈ txids ∧ r.transactions.contains x = false ∧ r.isAwaitedTx x = false
  | [], r, x => by simp [newTxids, awaitTxs]
  | txid :: txids, r, x => by
    unfold newTxids awaitTxs
    split
    · rename_i ht
      change x ∈ r.newTxids txids ↔ _
      rw [mem_newTxids txids r x, List.mem_cons]
      by_cases hx : x = txid
      · subst hx
        simp only [Bool.or_eq_true] at ht
        rcases ht with ht | ht <;> simp [ht]
      · simp [hx]
    · rename_i ht
      change x ∈ txid :: ({ r with awaitedTxids := r.awaitedTxids ++ [txid] } : Requests).newTxids txids ↔ _
      rw [List.mem_cons, mem_newTxids txids _ x, List.mem_cons]
      simp only [Bool.or_eq_true, not_or, Bool.not_eq_true] at ht
      by_cases hx : x = txid
      · subst hx; simp [ht]
      · simp [isAwaitedTx, hx]

theorem nodup_newTxids : ∀ (txids : List Digest) (r : Requests), (r.newTxids txids).Nodup
  | [], r => List.nodup_nil
  | txid :: txids, r => by
    unfold newTxids awaitTxs
    split
    · exact nodup_newTxids txids r
    · change (txid :: ({ r with awaitedTxids := r.awaitedTxids ++ [txid] } : Requests).newTxids txids).Nodup
      rw [List.nodup_cons]
      refine ⟨fun hmem => ?_, nodup_newTxids txids _⟩
      have := ((mem_newTxids _ _ _).1 hmem).2.2
      simp [isAwaitedTx] at this

theorem mem_awaitTxs_iff (r : Requests) (txids : List Digest) (x : Digest) :
    (x ∈ r.awaitedTxids ++ r.newTxids txids ∨ r.transactions.contains x = true) ↔
      (r.isAwaitedTx x = true ∨ r.transactions.contains x = true) ∨ x ∈ txids := by
  rw [List.mem_append, mem_newTxids, ← isAwaitedTx_iff]
  by_cases ha : r.isAwaitedTx x = true
  · simp [ha]
  · by_cases ht : r.transactions.contains x = true
    · simp [ht]
    · simp [ha, ht]

/-! ## What arrives -/

theorem holdBack_of_awaited {r : Requests} {block : FilteredBlock} (h : r.isAwaitedBlock block.hash = true) :
    r.holdBack block = { r with heldBack := r.heldBack.insert block.hash block } := by
  simp [holdBack, h]

theorem holdBack_of_not_awaited {r : Requests} {block : FilteredBlock} (h : r.isAwaitedBlock block.hash = false) :
    r.holdBack block = r := by
  simp [holdBack, h]

/-- **An awaited block arrives**: it is awaited no longer, and those transactions of its proof that are new are. -/
theorem receiveBlock_of_awaited {r : Requests} {block : FilteredBlock} (h : r.isAwaitedBlock block.hash = true)
    (txids : List Digest) :
    r.receiveBlock block txids =
      ({ r with awaitedBlocks := r.awaitedBlocks.erase block.hash
                awaitedTxids := r.awaitedTxids ++ r.newTxids txids
                blocks := r.blocks.insert block.hash ⟨block, txids⟩
                heldBack := r.heldBack.erase block.hash }, r.newTxids txids) := by
  unfold receiveBlock
  simp only [h, if_true, awaitTxs_fst]
  rfl

theorem receiveBlock_of_not_awaited {r : Requests} {block : FilteredBlock}
    (h : r.isAwaitedBlock block.hash = false) (txids : List Digest) : r.receiveBlock block txids = (r, []) := by
  unfold receiveBlock
  simp [h]

theorem receiveTx_of_awaited {r : Requests} {tx : Transaction} (h : r.isAwaitedTx tx.txid = true) :
    r.receiveTx tx =
      ({ r with awaitedTxids := r.awaitedTxids.erase tx.txid, transactions := r.transactions.insert tx.txid tx },
        true) := by
  unfold receiveTx
  simp [h]

theorem receiveTx_of_not_awaited {r : Requests} {tx : Transaction} (h : r.isAwaitedTx tx.txid = false) :
    r.receiveTx tx = (r, false) := by
  unfold receiveTx
  simp [h]

theorem blocks_holdBack (r : Requests) (block : FilteredBlock) : (r.holdBack block).blocks = r.blocks := by
  simp only [holdBack]
  split <;> rfl

theorem isFinished_holdBack (r : Requests) (block : FilteredBlock) : (r.holdBack block).isFinished = r.isFinished := by
  simp only [holdBack]
  split <;> rfl

theorem isFinished_of_awaited {r : Requests} {hash : Digest} (h : r.isAwaitedBlock hash = true) :
    r.isFinished = false := by
  rw [Bool.eq_false_iff]
  intro hfinished
  rw [isAwaitedBlock_iff, (isFinished_iff.1 hfinished).2.1] at h
  cases h

theorem isFinished_track {r : Requests} {hashes : List Digest} (hnew : (r.track hashes).2 ≠ []) :
    (r.track hashes).1.isFinished = false := by
  obtain ⟨hash, rest, hcons⟩ := List.exists_cons_of_ne_nil hnew
  have hawaited : hash ∈ (r.track hashes).1.awaitedBlocks := by
    rw [track_fst, newBlocks, hcons]
    exact List.mem_append_right _ List.mem_cons_self
  exact isFinished_of_awaited (isAwaitedBlock_iff.2 hawaited)

theorem not_awaited_of_finished {r : Requests} (h : r.isFinished = true) (hash : Digest) :
    r.isAwaitedBlock hash = false ∧ r.isAwaitedTx hash = false := by
  obtain ⟨-, hblocks, htxids⟩ := isFinished_iff.1 h
  simp [isAwaitedBlock, isAwaitedTx, hblocks, htxids]

theorem requested_receiveBlock (r : Requests) (block : FilteredBlock) (txids : List Digest) :
    (r.receiveBlock block txids).1.requested = r.requested := by
  cases hb : r.isAwaitedBlock block.hash with
  | false => rw [receiveBlock_of_not_awaited hb]
  | true => rw [receiveBlock_of_awaited hb]

theorem requested_receiveTx (r : Requests) (tx : Transaction) : (r.receiveTx tx).1.requested = r.requested := by
  simp only [receiveTx]
  split <;> rfl

theorem blocks_receiveTx (r : Requests) (tx : Transaction) : (r.receiveTx tx).1.blocks = r.blocks := by
  simp only [receiveTx]
  split <;> rfl

theorem size_heldBack_receiveBlock_le (r : Requests) (block : FilteredBlock) (txids : List Digest) :
    (r.receiveBlock block txids).1.heldBack.size ≤ r.heldBack.size := by
  cases hb : r.isAwaitedBlock block.hash with
  | false => exact Nat.le_of_eq (by rw [receiveBlock_of_not_awaited hb])
  | true =>
    rw [receiveBlock_of_awaited hb]
    exact Table.size_erase_le _ _

/-- What is released was held back and can be used; it is held back no longer. -/
theorem releaseReady?_eq_some {r r' : Requests} {knows : Digest → Bool} {block : FilteredBlock}
    (h : r.releaseReady? knows = some (block, r')) :
    ∃ hash, r.heldBack.get? hash = some block ∧ r.isReady knows block = true ∧
      r' = { r with heldBack := r.heldBack.erase hash } := by
  unfold releaseReady? at h
  obtain ⟨e, hfind, he⟩ := Option.map_eq_some_iff.1 h
  simp only [Prod.mk.injEq] at he
  obtain ⟨rfl, rfl⟩ := he
  have hready := List.find?_some hfind
  exact ⟨e.1, Table.get?_eq_some_iff.2 (List.mem_of_find?_eq_some hfind), hready, rfl⟩

theorem releaseReady?_eq_none {r : Requests} {knows : Digest → Bool} (h : r.releaseReady? knows = none)
    {hash : Digest} {block : FilteredBlock} (hb : r.heldBack.get? hash = some block) :
    r.isReady knows block = false := by
  unfold releaseReady? at h
  rw [Option.map_eq_none_iff, List.find?_eq_none] at h
  simpa using h (hash, block) (Table.get?_eq_some_iff.1 hb)

/-! ## Every operation keeps the books -/

namespace Consistent

theorem empty : Requests.empty.Consistent where
  nodup_requested := List.nodup_nil
  nodup_awaitedBlocks := List.nodup_nil
  nodup_awaitedTxids := List.nodup_nil
  mem_requested hash := by simp [Requests.empty, isTracked, isAwaitedBlock, hasBlock]
  not_hasBlock h := by simp [Requests.empty, isAwaitedBlock] at h
  block_hash h := by simp [Requests.empty] at h
  heldBack h := by simp [Requests.empty] at h
  tx_txid h := by simp [Requests.empty] at h
  not_contains_tx h := by simp [Requests.empty, isAwaitedTx] at h
  named txid := by simp [Requests.empty, isAwaitedTx]

variable {r : Requests}

theorem track (h : r.Consistent) (hashes : List Digest) : (r.track hashes).1.Consistent := by
  rw [track_fst]
  have hnew (x : Digest) : x ∈ r.newBlocks hashes → r.isTracked x = false := fun hx =>
    ((mem_newBlocks _ _ _).1 hx).2
  have hawaited (x : Digest) : x ∈ r.awaitedBlocks ++ r.newBlocks hashes ↔
      r.isAwaitedBlock x = true ∨ x ∈ r.newBlocks hashes := by
    rw [List.mem_append, isAwaitedBlock_iff]
  constructor
  case nodup_requested =>
    rw [List.nodup_append]
    refine ⟨h.nodup_requested, nodup_newBlocks _ _, ?_⟩
    rintro x hx _ hy rfl
    rw [h.mem_requested, hnew x hy] at hx
    cases hx
  case nodup_awaitedBlocks =>
    rw [List.nodup_append]
    refine ⟨h.nodup_awaitedBlocks, nodup_newBlocks _ _, ?_⟩
    rintro x hx _ hy rfl
    have := hnew x hy
    simp [isTracked, isAwaitedBlock, hx] at this
  case nodup_awaitedTxids => exact h.nodup_awaitedTxids
  case mem_requested =>
    intro x
    rw [List.mem_append, h.mem_requested, isTracked_iff, isTracked_iff]
    have hx := hawaited x
    simp only [isAwaitedBlock_iff, hasBlock] at hx ⊢
    tauto
  case not_hasBlock =>
    intro x hx
    rw [isAwaitedBlock_iff, hawaited] at hx
    rcases hx with hx | hx
    · exact h.not_hasBlock hx
    · have := hnew x hx
      simp only [isTracked, Bool.or_eq_false_iff] at this
      exact this.2
  case block_hash => exact h.block_hash
  case heldBack =>
    intro x block hx
    obtain ⟨hhash, hx⟩ := h.heldBack hx
    exact ⟨hhash, isAwaitedBlock_iff.2 ((hawaited x).2 (Or.inl hx))⟩
  case tx_txid => exact h.tx_txid
  case not_contains_tx => exact h.not_contains_tx
  case named => exact h.named

theorem holdBack (h : r.Consistent) (block : FilteredBlock) : (r.holdBack block).Consistent := by
  cases hb : r.isAwaitedBlock block.hash with
  | false =>
    rw [holdBack_of_not_awaited hb]
    exact h
  | true =>
    rw [holdBack_of_awaited hb]
    refine { h with heldBack := ?_ }
    intro x b hx
    obtain ⟨rfl, rfl⟩ | ⟨-, hx⟩ := Table.get?_insert_eq_some.1 hx
    · exact ⟨rfl, hb⟩
    · exact h.heldBack hx

theorem eraseHeldBack (h : r.Consistent) (hash : Digest) :
    ({ r with heldBack := r.heldBack.erase hash } : Requests).Consistent := by
  refine { h with heldBack := ?_ }
  intro x b hx
  exact h.heldBack (Table.get?_erase_eq_some.1 hx).2

theorem receiveBlock (h : r.Consistent) (block : FilteredBlock) (txids : List Digest) :
    (r.receiveBlock block txids).1.Consistent := by
  cases hb : r.isAwaitedBlock block.hash with
  | false =>
    rw [receiveBlock_of_not_awaited hb]
    exact h
  | true =>
    rw [receiveBlock_of_awaited hb]
    have hnot := h.not_hasBlock hb
    have herase (x : Digest) : x ∈ r.awaitedBlocks.erase block.hash ↔
        x ≠ block.hash ∧ r.isAwaitedBlock x = true := by
      rw [h.nodup_awaitedBlocks.mem_erase_iff, isAwaitedBlock_iff]
    constructor
    case nodup_requested => exact h.nodup_requested
    case nodup_awaitedBlocks => exact h.nodup_awaitedBlocks.erase _
    case nodup_awaitedTxids =>
      rw [List.nodup_append]
      refine ⟨h.nodup_awaitedTxids, nodup_newTxids _ _, ?_⟩
      rintro x hx _ hy rfl
      have := ((mem_newTxids _ _ _).1 hy).2.2
      simp [isAwaitedTx, hx] at this
    case mem_requested =>
      intro x
      have hx := herase x
      rw [h.mem_requested, isTracked_iff, isTracked_iff]
      simp only [isAwaitedBlock_iff, hasBlock, Table.contains_insert, Bool.or_eq_true, decide_eq_true_eq] at hx hb ⊢
      rw [hx]
      by_cases hx : x = block.hash
      · subst hx; simp [hb]
      · simp [hx]
    case not_hasBlock =>
      intro x hx
      rw [isAwaitedBlock_iff, herase] at hx
      have := h.not_hasBlock hx.2
      simp only [hasBlock] at this
      simp [hasBlock, Table.contains_insert, hx.1, this]
    case block_hash =>
      intro x a hx
      obtain ⟨rfl, rfl⟩ | ⟨-, hx⟩ := Table.get?_insert_eq_some.1 hx
      · rfl
      · exact h.block_hash hx
    case heldBack =>
      intro x b hx
      obtain ⟨hne, hx⟩ := Table.get?_erase_eq_some.1 hx
      obtain ⟨hhash, hx⟩ := h.heldBack hx
      exact ⟨hhash, isAwaitedBlock_iff.2 ((herase x).2 ⟨hne, hx⟩)⟩
    case tx_txid => exact h.tx_txid
    case not_contains_tx =>
      intro x hx
      rw [isAwaitedTx_iff, List.mem_append] at hx
      rcases hx with hx | hx
      · exact h.not_contains_tx (isAwaitedTx_iff.2 hx)
      · exact ((mem_newTxids _ _ _).1 hx).2.1
    case named =>
      intro x
      rw [isAwaitedTx_iff, mem_awaitTxs_iff, h.named]
      exact (Table.exists_get?_insert hnot ⟨block, txids⟩ (p := fun a => x ∈ a.txids)).symm

theorem receiveTx (h : r.Consistent) (tx : Transaction) : (r.receiveTx tx).1.Consistent := by
  cases ht : r.isAwaitedTx tx.txid with
  | false =>
    rw [receiveTx_of_not_awaited ht]
    exact h
  | true =>
    rw [receiveTx_of_awaited ht]
    have herase (x : Digest) : x ∈ r.awaitedTxids.erase tx.txid ↔ x ≠ tx.txid ∧ r.isAwaitedTx x = true := by
      rw [h.nodup_awaitedTxids.mem_erase_iff, isAwaitedTx_iff]
    refine { h with
      nodup_awaitedTxids := h.nodup_awaitedTxids.erase _
      tx_txid := ?_
      not_contains_tx := ?_
      named := ?_ }
    · intro x t hx
      obtain ⟨rfl, rfl⟩ | ⟨-, hx⟩ := Table.get?_insert_eq_some.1 hx
      · rfl
      · exact h.tx_txid hx
    · intro x hx
      rw [isAwaitedTx_iff, herase] at hx
      simp [Table.contains_insert, hx.1, h.not_contains_tx hx.2]
    · intro x
      rw [← h.named x, isAwaitedTx_iff, herase, Table.contains_insert]
      by_cases hx : x = tx.txid
      · subst hx; simp [ht]
      · simp [hx]

/-! ### A finished round has everything -/

/-- An awaited transaction that arrives is neither lost nor counted twice. -/
theorem txids_receiveTx_perm (h : r.Consistent) {tx : Transaction} (hawaited : r.isAwaitedTx tx.txid = true) :
    ((r.receiveTx tx).1.awaitedTxids ++ (r.receiveTx tx).1.transactions.keys).Perm
      (r.awaitedTxids ++ r.transactions.keys) := by
  have hkeys : r.transactions.keys.filter (· ≠ tx.txid) = r.transactions.keys := by
    refine List.filter_eq_self.2 fun txid hmem => decide_eq_true fun heq => ?_
    rw [heq, ← Table.contains_iff, h.not_contains_tx hawaited] at hmem
    cases hmem
  rw [receiveTx_of_awaited hawaited]
  simp only [Table.keys_insert, hkeys]
  rw [← List.append_assoc]
  refine (List.perm_append_singleton _ _).trans ?_
  exact (List.perm_cons_erase (isAwaitedTx_iff.1 hawaited)).symm.append_right r.transactions.keys

/-- No transaction is awaited twice, or while it is here. -/
theorem nodup_txids (h : r.Consistent) : (r.awaitedTxids ++ r.transactions.keys).Nodup := by
  refine List.nodup_append.2 ⟨h.nodup_awaitedTxids, r.transactions.nodup_keys, fun txid hawaited txid' hhere heq => ?_⟩
  subst heq
  have hnot := h.not_contains_tx (isAwaitedTx_iff.2 hawaited)
  rw [Table.contains_iff.2 hhere] at hnot
  cases hnot

/-- No block is awaited twice, or while it is here. -/
theorem nodup_blocks (h : r.Consistent) : (r.awaitedBlocks ++ r.blocks.keys).Nodup := by
  refine List.nodup_append.2 ⟨h.nodup_awaitedBlocks, r.blocks.nodup_keys, fun hash hawaited hash' hhere heq => ?_⟩
  subst heq
  have hnot := h.not_hasBlock (isAwaitedBlock_iff.2 hawaited)
  rw [hasBlock, Table.contains_iff.2 hhere] at hnot
  cases hnot

theorem requested_perm (h : r.Consistent) : r.requested.Perm (r.awaitedBlocks ++ r.blocks.keys) := by
  refine (List.perm_ext_iff_of_nodup h.nodup_requested h.nodup_blocks).2 fun hash => ?_
  rw [h.mem_requested, isTracked_iff, isAwaitedBlock_iff, hasBlock, Table.contains_iff, List.mem_append]

theorem mem_txids_iff (h : r.Consistent) (txid : Digest) : txid ∈ r.awaitedTxids ++ r.transactions.keys ↔
    ∃ hash a, r.blocks.get? hash = some a ∧ txid ∈ a.txids := by
  rw [← h.named, isAwaitedTx_iff, Table.contains_iff, List.mem_append]

theorem hasBlock_of_finished (h : r.Consistent) (hfinished : r.isFinished = true) {hash : Digest}
    (hmem : hash ∈ r.requested) : r.hasBlock hash = true := by
  obtain ⟨-, hawaited, -⟩ := isFinished_iff.1 hfinished
  have htracked := isTracked_iff.1 ((h.mem_requested hash).1 hmem)
  rw [isAwaitedBlock_iff, hawaited] at htracked
  exact htracked.resolve_left List.not_mem_nil

theorem get?_tx_of_finished (h : r.Consistent) (hfinished : r.isFinished = true) {hash : Digest} {a : Arrival}
    (hget : r.blocks.get? hash = some a) {txid : Digest} (hmem : txid ∈ a.txids) :
    ∃ tx, r.transactions.get? txid = some tx ∧ tx.txid = txid := by
  obtain ⟨-, -, hawaited⟩ := isFinished_iff.1 hfinished
  have hnamed := (h.named txid).2 ⟨hash, a, hget, hmem⟩
  rw [isAwaitedTx_iff, hawaited, Table.contains_eq_true] at hnamed
  obtain ⟨tx, htx⟩ := hnamed.resolve_left List.not_mem_nil
  exact ⟨tx, htx, h.tx_txid htx⟩

/-- **When a round is finished**: it asked for something, and all that it asked for has arrived. -/
theorem isFinished_iff_arrived (h : r.Consistent) : r.isFinished = true ↔
    r.requested ≠ [] ∧ (∀ hash ∈ r.requested, r.hasBlock hash = true) ∧
      ∀ hash a, r.blocks.get? hash = some a → ∀ txid ∈ a.txids, r.transactions.contains txid = true := by
  constructor
  · intro hfinished
    refine ⟨(isFinished_iff.1 hfinished).1, fun hash => h.hasBlock_of_finished hfinished, ?_⟩
    intro hash a hget txid hmem
    obtain ⟨tx, htx, -⟩ := h.get?_tx_of_finished hfinished hget hmem
    exact Table.contains_of_get? htx
  · rintro ⟨hne, hblocks, htxids⟩
    refine isFinished_iff.2 ⟨hne, ?_, ?_⟩
    · refine List.eq_nil_iff_forall_not_mem.2 fun hash hmem => ?_
      have hawaited := isAwaitedBlock_iff.2 hmem
      have hhas := hblocks hash ((h.mem_requested hash).2 (isTracked_iff.2 (Or.inl hawaited)))
      rw [h.not_hasBlock hawaited] at hhas
      cases hhas
    · refine List.eq_nil_iff_forall_not_mem.2 fun txid hmem => ?_
      have hawaited := isAwaitedTx_iff.2 hmem
      obtain ⟨hash, a, hget, hnamed⟩ := (h.named txid).1 (Or.inl hawaited)
      have hhere := htxids hash a hget txid hnamed
      rw [h.not_contains_tx hawaited] at hhere
      cases hhere

end Consistent
end Requests
end LightClient
