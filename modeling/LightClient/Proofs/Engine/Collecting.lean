import Mathlib.Order.BooleanAlgebra.Set
import LightClient.Proofs.Engine.Orderly
/-!
# Collecting what a peer offers

A peer offers a line of valid blocks with the transactions that they name (`Offering`). `Collecting` says where the
items placed so far are: a block is in the round or held back, a transaction is in the round or in the pool. An item may
be placed in any of the ways that the engine has, and taken back from where it waits, whatever came before it.

The round is finished only when all is placed. It then holds the whole offering, in one line (`batch_of_finished`). And
once all is placed, the round is finished unless something that waits could be used (`finished_of_all`).
-/
namespace LightClient

/-- A line of valid blocks on top of the main chain, and the transactions that they name. -/
structure Offering (c : Chain) (blocks : List Arrival) (txs : List Transaction) : Prop where
  ne_nil : blocks ≠ []
  line : blocks.IsChain fun a b => b.block.previous = a.block.hash
  parent : ∀ a ∈ blocks.head?, a.block.previous ∈ c.main
  checked {a : Arrival} : a ∈ blocks → Engine.Checked c a.block a.txids
  nodup_blocks : (blocks.map fun a => a.block.hash).Nodup
  nodup_txs : (txs.map Transaction.txid).Nodup
  named (txid : Digest) : txid ∈ txs.map Transaction.txid ↔ ∃ a ∈ blocks, txid ∈ a.txids

namespace Offering

variable {c : Chain} {blocks : List Arrival} {txs : List Transaction}

def items (blocks : List Arrival) (txs : List Transaction) : List OrphanItem :=
  blocks.map (fun a => .block a.block) ++ txs.map .tx

def batch (blocks : List Arrival) (txs : List Transaction) : List ConfirmedBlock :=
  blocks.map fun a => ⟨a.block, a.txids.filterMap fun txid => txs.find? fun tx => tx.txid = txid⟩

theorem block_mem_items {a : Arrival} (ha : a ∈ blocks) : .block a.block ∈ items blocks txs :=
  List.mem_append_left _ (List.mem_map_of_mem (f := fun a => OrphanItem.block a.block) ha)

theorem tx_mem_items {tx : Transaction} (htx : tx ∈ txs) : .tx tx ∈ items blocks txs :=
  List.mem_append_right _ (List.mem_map_of_mem htx)

theorem mem_items {item : OrphanItem} (h : item ∈ items blocks txs) :
    (∃ a ∈ blocks, item = .block a.block) ∨ ∃ tx ∈ txs, item = .tx tx := by
  rcases List.mem_append.1 h with h | h
  · obtain ⟨a, ha, rfl⟩ := List.mem_map.1 h
    exact Or.inl ⟨a, ha, rfl⟩
  · obtain ⟨tx, htx, rfl⟩ := List.mem_map.1 h
    exact Or.inr ⟨tx, htx, rfl⟩

variable (ho : Offering c blocks txs)
include ho

theorem block_eq {a b : Arrival} (ha : a ∈ blocks) (hb : b ∈ blocks) (h : a.block.hash = b.block.hash) : a = b :=
  List.inj_on_of_nodup_map ho.nodup_blocks ha hb h

theorem tx_eq {s t : Transaction} (hs : s ∈ txs) (ht : t ∈ txs) (h : s.txid = t.txid) : s = t :=
  List.inj_on_of_nodup_map ho.nodup_txs hs ht h

theorem find?_eq {tx : Transaction} (htx : tx ∈ txs) : (txs.find? fun t => t.txid = tx.txid) = some tx := by
  cases hfind : txs.find? fun t => t.txid = tx.txid with
  | none => exact absurd (decide_eq_true rfl) (List.find?_eq_none.1 hfind tx htx)
  | some t =>
    have htxid : t.txid = tx.txid := by simpa using List.find?_some hfind
    rw [ho.tx_eq (List.mem_of_find?_eq_some hfind) htx htxid]

theorem nodup_items : (items blocks txs).Nodup := by
  refine List.nodup_append.2 ⟨?_, ?_, ?_⟩
  · refine List.Nodup.map_on (fun a ha b hb hab => ?_) ho.nodup_blocks.of_map
    exact ho.block_eq ha hb (by rw [OrphanItem.block.inj hab])
  · exact ho.nodup_txs.of_map.map fun _ _ hst => OrphanItem.tx.inj hst
  · rintro x hx y hy rfl
    obtain ⟨a, -, rfl⟩ := List.mem_map.1 hx
    obtain ⟨tx, -, htx⟩ := List.mem_map.1 hy
    cases htx

theorem exists_tx {a : Arrival} (ha : a ∈ blocks) {txid : Digest} (h : txid ∈ a.txids) : ∃ tx ∈ txs, tx.txid = txid :=
  List.mem_map.1 ((ho.named txid).2 ⟨a, ha, h⟩)

/-- A block gets exactly the transactions that it names. -/
theorem txids_eq {a : Arrival} (ha : a ∈ blocks) :
    (a.txids.filterMap fun txid => txs.find? fun tx => tx.txid = txid).map Transaction.txid = a.txids := by
  rw [List.map_filterMap]
  have hsome : a.txids.filterMap (fun txid => (txs.find? fun tx => tx.txid = txid).map Transaction.txid) =
      a.txids.filterMap some := by
    refine List.filterMap_congr fun txid hmem => ?_
    obtain ⟨tx, htx, rfl⟩ := ho.exists_tx ha hmem
    rw [ho.find?_eq htx]
    rfl
  rw [hsome, List.filterMap_some]

theorem mem_transactions {tx : Transaction} :
    tx ∈ (batch blocks txs).flatMap ConfirmedBlock.transactions ↔ tx ∈ txs := by
  rw [batch, List.flatMap_map, List.mem_flatMap]
  constructor
  · rintro ⟨a, -, hmem⟩
    obtain ⟨txid, -, hfind⟩ := List.mem_filterMap.1 hmem
    exact List.mem_of_find?_eq_some hfind
  · intro htx
    obtain ⟨a, ha, hmem⟩ := (ho.named tx.txid).1 (List.mem_map_of_mem htx)
    exact ⟨a, ha, List.mem_filterMap.2 ⟨tx.txid, hmem, ho.find?_eq htx⟩⟩

omit ho in
theorem hashes_batch : ((batch blocks txs).map fun b => b.block.hash) = blocks.map fun a => a.block.hash := by
  rw [batch, List.map_map]
  rfl

/-- **What a commit of the offering makes of the chain.** -/
theorem commit {c' : Chain} {events : List ChainEvent} (hcommit : c.commit (batch blocks txs) = .ok (c', events)) :
    (∃ first ∈ blocks.head?, ∃ below above, c.main = below ++ first.block.previous :: above ∧
      c'.main = below ++ first.block.previous :: blocks.map fun a => a.block.hash) ∧
    (∀ a ∈ blocks, c'.blockTxids.get? a.block.hash = some a.txids) ∧
    ∀ tx ∈ txs, c'.confirmed.get? tx.txid = some tx := by
  obtain ⟨-, first, rest, hbatch, -, -, below, above, hmain, -, hresult⟩ := Chain.commit_eq_ok_iff.1 hcommit
  have hc' : c' = (c.reorganise (below.length + 1) (batch blocks txs)).1 := by rw [hresult]
  refine ⟨?_, fun a ha => ?_, fun tx htx => ?_⟩
  · obtain ⟨a, line, hblocks⟩ := List.exists_cons_of_ne_nil ho.ne_nil
    have hfirst : first.block = a.block := by
      rw [batch, hblocks, List.map_cons] at hbatch
      rw [← (List.cons.inj hbatch).1]
    rw [hfirst] at hmain
    refine ⟨a, by rw [hblocks]; rfl, below, above, hmain, ?_⟩
    rw [hc', Chain.main_reorganise, hashes_batch, hmain, List.take_append, List.take_of_length_le (by omega)]
    simp
  · have hmem : (⟨a.block, a.txids.filterMap fun txid => txs.find? fun tx => tx.txid = txid⟩ : ConfirmedBlock) ∈
        batch blocks txs := List.mem_map.2 ⟨a, ha, rfl⟩
    have hget := Chain.blockTxids_connectAll (batch blocks txs) (c.rollBack (below.length + 1)).1
      (by rw [hashes_batch]; exact ho.nodup_blocks) _ hmem
    rw [ho.txids_eq ha] at hget
    rw [hc', Chain.reorganise_fst]
    exact hget
  · rw [hc', Chain.reorganise_fst, Chain.confirmed_connectAll]
    cases hfind : ((batch blocks txs).flatMap ConfirmedBlock.transactions).reverse.find? fun t => t.txid = tx.txid with
    | none =>
      have hnot := List.find?_eq_none.1 hfind tx (List.mem_reverse.2 (ho.mem_transactions.2 htx))
      exact absurd (decide_eq_true rfl) hnot
    | some t =>
      have hmem := ho.mem_transactions.1 (List.mem_reverse.1 (List.mem_of_find?_eq_some hfind))
      have htxid : t.txid = tx.txid := by simpa using List.find?_some hfind
      rw [ho.tx_eq hmem htx htxid]
      rfl

end Offering

/-- Where the placed items are. -/
structure Collecting (peer : PeerId) (blocks : List Arrival) (txs : List Transaction) (placed : Set OrphanItem)
    (r : Requests) (pool : Orphans) : Prop where
  tracked (hash : Digest) : r.isTracked hash = true ↔ ∃ a ∈ blocks, a.block.hash = hash
  received {hash : Digest} {a : Arrival} : r.blocks.get? hash = some a → a ∈ blocks ∧ .block a.block ∈ placed
  held {hash : Digest} {block : FilteredBlock} : r.heldBack.get? hash = some block →
    .block block ∈ placed ∧ ∃ a ∈ blocks, a.block = block
  block {a : Arrival} : a ∈ blocks → .block a.block ∈ placed →
    r.hasBlock a.block.hash = true ∨ r.isHeldBack a.block.hash = true
  fetched {txid : Digest} {tx : Transaction} : r.transactions.get? txid = some tx → tx ∈ txs ∧ .tx tx ∈ placed
  pooled {hash : Digest} {o : Orphan} : pool.get? hash = some o →
    o.peer = peer ∧ ∃ tx ∈ txs, o.item = .tx tx ∧ tx.txid = hash ∧ .tx tx ∈ placed ∧
      r.transactions.contains hash = false
  tx {tx : Transaction} : tx ∈ txs → .tx tx ∈ placed →
    r.transactions.contains tx.txid = true ∨ pool.contains tx.txid = true

namespace Collecting

variable {c : Chain} {peer : PeerId} {blocks : List Arrival} {txs : List Transaction} {placed : Set OrphanItem}
  {r : Requests} {pool : Orphans}

/-- An offer from nothing: all blocks are asked for, and no item is placed. -/
theorem of_offer {hashes : List Digest} (hmem : ∀ hash, hash ∈ hashes ↔ ∃ a ∈ blocks, a.block.hash = hash)
    (hpool : ∀ hash, pool.get? hash = none) :
    Collecting peer blocks txs ∅ (Requests.empty.track hashes).1 pool := by
  constructor
  case tracked =>
    intro hash
    rw [← (Requests.Consistent.empty.track hashes).mem_requested, Requests.track_fst, ← hmem]
    exact (Requests.mem_newBlocks _ _ _).trans (and_iff_left rfl)
  case pooled =>
    intro hash o hget
    rw [hpool] at hget
    cases hget
  all_goals rw [Requests.track_fst]
  case received => exact fun hget => by cases hget
  case held => exact fun hget => by cases hget
  case block => exact fun _ hplaced => absurd hplaced (Set.notMem_empty _)
  case fetched => exact fun hget => by cases hget
  case tx => exact fun _ hplaced => absurd hplaced (Set.notMem_empty _)

/-! ## Placing an item -/

section Place

variable (ho : Offering c blocks txs) (h : Collecting peer blocks txs placed r pool) (hr : r.Consistent)
include ho h hr

theorem not_hasBlock {a : Arrival} (ha : a ∈ blocks) (hnot : .block a.block ∉ placed) :
    r.hasBlock a.block.hash = false := by
  rw [Bool.eq_false_iff, ne_eq, Requests.hasBlock, Table.contains_eq_true]
  rintro ⟨b, hb⟩
  obtain ⟨hmem, hplaced⟩ := h.received hb
  rw [ho.block_eq hmem ha (hr.block_hash hb)] at hplaced
  exact hnot hplaced

theorem isAwaitedBlock {a : Arrival} (ha : a ∈ blocks) (hnot : .block a.block ∉ placed) :
    r.isAwaitedBlock a.block.hash = true := by
  refine (Requests.isTracked_iff.1 ((h.tracked _).2 ⟨a, ha, rfl⟩)).resolve_right ?_
  rw [h.not_hasBlock ho hr ha hnot]
  exact Bool.false_ne_true

theorem not_fetched {tx : Transaction} (htx : tx ∈ txs) (hnot : .tx tx ∉ placed) :
    r.transactions.contains tx.txid = false := by
  rw [Bool.eq_false_iff, ne_eq, Table.contains_eq_true]
  rintro ⟨t, ht⟩
  obtain ⟨hmem, hplaced⟩ := h.fetched ht
  rw [ho.tx_eq hmem htx (hr.tx_txid ht)] at hplaced
  exact hnot hplaced

theorem placeHeldBack {a : Arrival} (ha : a ∈ blocks) (hnot : .block a.block ∉ placed) :
    Collecting peer blocks txs (insert (.block a.block) placed) (r.holdBack a.block) pool := by
  rw [Requests.holdBack_of_awaited (h.isAwaitedBlock ho hr ha hnot)]
  constructor
  case tracked => exact h.tracked
  case received => exact fun hget => (h.received hget).imp_right (Set.mem_insert_of_mem _)
  case held =>
    intro hash block hget
    obtain ⟨-, rfl⟩ | ⟨-, hget⟩ := Table.get?_insert_eq_some.1 hget
    · exact ⟨Set.mem_insert _ _, a, ha, rfl⟩
    · exact (h.held hget).imp_left (Set.mem_insert_of_mem _)
  case block =>
    intro b hb hplaced
    simp only [Requests.isHeldBack, Table.contains_insert, Bool.or_eq_true, decide_eq_true_eq]
    rcases Set.mem_insert_iff.1 hplaced with heq | hplaced
    · rw [OrphanItem.block.injEq] at heq
      rw [heq]
      exact Or.inr (Or.inl rfl)
    · exact (h.block hb hplaced).imp_right Or.inr
  case fetched => exact fun hget => (h.fetched hget).imp_right (Set.mem_insert_of_mem _)
  case pooled =>
    intro hash o hget
    obtain ⟨hpeer, tx, htx, hitem, htxid, hplaced, hout⟩ := h.pooled hget
    exact ⟨hpeer, tx, htx, hitem, htxid, Set.mem_insert_of_mem _ hplaced, hout⟩
  case tx => exact fun htx hplaced => h.tx htx ((Set.mem_insert_iff.1 hplaced).resolve_left (by simp))

theorem placeBlock {a : Arrival} (ha : a ∈ blocks) (hnot : .block a.block ∉ placed) :
    Collecting peer blocks txs (insert (.block a.block) placed) (r.receiveBlock a.block a.txids).1 pool := by
  have hawaited := h.isAwaitedBlock ho hr ha hnot
  have hbooks := hr.receiveBlock a.block a.txids
  constructor
  case tracked =>
    intro hash
    rw [← hbooks.mem_requested, Requests.requested_receiveBlock, hr.mem_requested]
    exact h.tracked hash
  all_goals rw [Requests.receiveBlock_of_awaited hawaited]
  case received =>
    intro hash b hget
    obtain ⟨-, rfl⟩ | ⟨-, hget⟩ := Table.get?_insert_eq_some.1 hget
    · exact ⟨ha, Set.mem_insert _ _⟩
    · exact (h.received hget).imp_right (Set.mem_insert_of_mem _)
  case held =>
    intro hash block hget
    exact (h.held (Table.get?_erase_eq_some.1 hget).2).imp_left (Set.mem_insert_of_mem _)
  case block =>
    intro b hb hplaced
    simp only [Requests.hasBlock, Requests.isHeldBack, Table.contains_insert, Table.contains_erase, Bool.or_eq_true,
      Bool.and_eq_true, decide_eq_true_eq]
    by_cases hhash : b.block.hash = a.block.hash
    · exact Or.inl (Or.inl hhash)
    · have hne : OrphanItem.block b.block ≠ .block a.block := fun heq => hhash (by rw [OrphanItem.block.inj heq])
      rcases h.block hb ((Set.mem_insert_iff.1 hplaced).resolve_left hne) with hhere | hheld
      · exact Or.inl (Or.inr hhere)
      · exact Or.inr ⟨hhash, hheld⟩
  case fetched => exact fun hget => (h.fetched hget).imp_right (Set.mem_insert_of_mem _)
  case pooled =>
    intro hash o hget
    obtain ⟨hpeer, tx, htx, hitem, htxid, hplaced, hout⟩ := h.pooled hget
    exact ⟨hpeer, tx, htx, hitem, htxid, Set.mem_insert_of_mem _ hplaced, hout⟩
  case tx => exact fun htx hplaced => h.tx htx ((Set.mem_insert_iff.1 hplaced).resolve_left (by simp))

omit hr in
theorem placeTx {tx : Transaction} (htx : tx ∈ txs) (hnot : .tx tx ∉ placed) (hawaited : r.isAwaitedTx tx.txid = true) :
    Collecting peer blocks txs (insert (.tx tx) placed) (r.receiveTx tx).1 pool := by
  rw [Requests.receiveTx_of_awaited hawaited]
  constructor
  case tracked => exact h.tracked
  case received => exact fun hget => (h.received hget).imp_right (Set.mem_insert_of_mem _)
  case held => exact fun hget => (h.held hget).imp_left (Set.mem_insert_of_mem _)
  case block => exact fun hb hplaced => h.block hb ((Set.mem_insert_iff.1 hplaced).resolve_left (by simp))
  case fetched =>
    intro txid t hget
    obtain ⟨-, rfl⟩ | ⟨-, hget⟩ := Table.get?_insert_eq_some.1 hget
    · exact ⟨htx, Set.mem_insert _ _⟩
    · exact (h.fetched hget).imp_right (Set.mem_insert_of_mem _)
  case pooled =>
    intro hash o hget
    obtain ⟨hpeer, t, ht, hitem, htxid, hplaced, hout⟩ := h.pooled hget
    refine ⟨hpeer, t, ht, hitem, htxid, Set.mem_insert_of_mem _ hplaced, ?_⟩
    have hne : hash ≠ tx.txid := by
      rintro rfl
      rw [ho.tx_eq ht htx htxid] at hplaced
      exact hnot hplaced
    simp [Table.contains_insert, hne, hout]
  case tx =>
    intro t ht hplaced
    simp only [Table.contains_insert, Bool.or_eq_true, decide_eq_true_eq]
    rcases Set.mem_insert_iff.1 hplaced with heq | hplaced
    · rw [OrphanItem.tx.inj heq]
      exact Or.inl (Or.inl rfl)
    · exact (h.tx ht hplaced).imp_left Or.inr

omit ho hr in
theorem queue_subset (hpool : pool.Consistent) : pool.queue ⊆ txs.map Transaction.txid := by
  intro hash hmem
  obtain ⟨o, hget⟩ := Table.contains_eq_true.1 ((hpool.mem_queue hash).1 hmem)
  obtain ⟨-, t, ht, -, rfl, -⟩ := h.pooled hget
  exact List.mem_map_of_mem ht

omit ho hr in
theorem size_le (hpool : pool.Consistent) : pool.size ≤ txs.length := by
  have hle := (List.subperm_of_subset hpool.nodup_queue (h.queue_subset hpool)).length_le
  rw [List.length_map, ← hpool.size_eq] at hle
  exact hle

omit hr in
theorem size_lt (hpool : pool.Consistent) {tx : Transaction} (htx : tx ∈ txs) (hnot : .tx tx ∉ placed) :
    pool.size < txs.length := by
  have hsub : tx.txid :: pool.queue ⊆ txs.map Transaction.txid := by
    intro hash hmem
    rcases List.mem_cons.1 hmem with rfl | hmem
    · exact List.mem_map_of_mem htx
    · exact h.queue_subset hpool hmem
  have hnodup : (tx.txid :: pool.queue).Nodup := by
    refine List.nodup_cons.2 ⟨fun hmem => ?_, hpool.nodup_queue⟩
    obtain ⟨o, hget⟩ := Table.contains_eq_true.1 ((hpool.mem_queue _).1 hmem)
    obtain ⟨-, t, ht, -, htxid, hplaced, -⟩ := h.pooled hget
    rw [ho.tx_eq ht htx htxid] at hplaced
    exact hnot hplaced
  have hle := (List.subperm_of_subset hnodup hsub).length_le
  rw [List.length_cons, List.length_map, ← hpool.size_eq] at hle
  omega

theorem placeInPool (hpool : pool.Consistent) (hroom : txs.length ≤ pool.capacity) {tx : Transaction} (htx : tx ∈ txs)
    (hnot : .tx tx ∉ placed) (now : Nat) :
    Collecting peer blocks txs (insert (.tx tx) placed) r (pool.insert tx.txid (.tx tx) peer now) := by
  have hsize := h.size_lt ho hpool htx hnot
  have hget (hash : Digest) := Orphans.get?_insert_of_room (by omega : pool.size < pool.capacity) tx.txid (.tx tx) peer
    now hash
  constructor
  case tracked => exact h.tracked
  case received => exact fun hget => (h.received hget).imp_right (Set.mem_insert_of_mem _)
  case held => exact fun hget => (h.held hget).imp_left (Set.mem_insert_of_mem _)
  case block => exact fun hb hplaced => h.block hb ((Set.mem_insert_iff.1 hplaced).resolve_left (by simp))
  case fetched => exact fun hget => (h.fetched hget).imp_right (Set.mem_insert_of_mem _)
  case pooled =>
    intro hash o ho'
    rw [hget] at ho'
    split at ho'
    · rename_i hhash
      cases ho'
      refine ⟨rfl, tx, htx, rfl, hhash.symm, Set.mem_insert _ _, ?_⟩
      rw [hhash]
      exact h.not_fetched ho hr htx hnot
    · obtain ⟨hpeer, t, ht, hitem, htxid, hplaced, hout⟩ := h.pooled ho'
      exact ⟨hpeer, t, ht, hitem, htxid, Set.mem_insert_of_mem _ hplaced, hout⟩
  case tx =>
    intro t ht hplaced
    have hcontains : (pool.insert tx.txid (.tx tx) peer now).contains t.txid = true ↔
        t.txid = tx.txid ∨ pool.contains t.txid = true := by
      have := hget t.txid
      rw [Orphans.get?] at this
      rw [Orphans.contains, Table.contains, this]
      split
      · rename_i heq
        simp [heq]
      · rename_i hne
        simp [hne, Orphans.get?, Orphans.contains, Table.contains]
    rw [hcontains]
    rcases Set.mem_insert_iff.1 hplaced with heq | hplaced
    · rw [OrphanItem.tx.inj heq]
      exact Or.inr (Or.inl rfl)
    · exact (h.tx ht hplaced).imp_right Or.inr

end Place

/-! ## Taking an item back -/

section TakeBack

variable (ho : Offering c blocks txs) (h : Collecting peer blocks txs placed r pool) (hr : r.Consistent)
include ho h hr

theorem release {hash : Digest} {block : FilteredBlock}
    (hheld : r.heldBack.get? hash = some block) :
    Collecting peer blocks txs (placed \ {.block block}) { r with heldBack := r.heldBack.erase hash } pool := by
  obtain ⟨-, a, ha, rfl⟩ := h.held hheld
  obtain ⟨rfl, hawaited⟩ := hr.heldBack hheld
  have hne {b : Arrival} (hhash : b.block.hash ≠ a.block.hash) :
      .block b.block ≠ OrphanItem.block a.block := fun heq => hhash (by rw [OrphanItem.block.inj heq])
  constructor
  case tracked => exact h.tracked
  case received =>
    intro hash b hget
    obtain ⟨hb, hplaced⟩ := h.received hget
    refine ⟨hb, hplaced, hne fun heq => ?_⟩
    have hnot := hr.not_hasBlock hawaited
    rw [← heq, hr.block_hash hget, Requests.hasBlock, Table.contains_of_get? hget] at hnot
    cases hnot
  case held =>
    intro hash block hget
    obtain ⟨hhash, hget⟩ := Table.get?_erase_eq_some.1 hget
    obtain ⟨hplaced, b, hb, rfl⟩ := h.held hget
    exact ⟨⟨hplaced, hne fun heq => hhash (by rw [← heq, (hr.heldBack hget).1])⟩, b, hb, rfl⟩
  case block =>
    rintro b hb ⟨hplaced, hnot⟩
    have hhash : b.block.hash ≠ a.block.hash := fun heq => hnot (by rw [ho.block_eq hb ha heq]; rfl)
    simp only [Requests.isHeldBack, Table.contains_erase, Bool.and_eq_true, decide_eq_true_eq]
    exact (h.block hb hplaced).imp_right fun hheld => ⟨hhash, hheld⟩
  case fetched => exact fun hget => (h.fetched hget).imp_right fun hplaced => ⟨hplaced, by simp⟩
  case pooled =>
    intro hash o hget
    obtain ⟨hpeer, tx, htx, hitem, htxid, hplaced, hout⟩ := h.pooled hget
    exact ⟨hpeer, tx, htx, hitem, htxid, ⟨hplaced, by simp⟩, hout⟩
  case tx => exact fun htx hplaced => h.tx htx hplaced.1

theorem unpool {hash : Digest} {o : Orphan} (hpooled : pool.get? hash = some o) :
    Collecting peer blocks txs (placed \ {o.item}) r (pool.erase hash) := by
  obtain ⟨-, tx, htx, hitem, rfl, -, hout⟩ := h.pooled hpooled
  rw [hitem]
  have hne {t : Transaction} (hhash : t.txid ≠ tx.txid) : OrphanItem.tx t ≠ .tx tx := fun heq =>
    hhash (by rw [OrphanItem.tx.inj heq])
  constructor
  case tracked => exact h.tracked
  case received => exact fun hget => (h.received hget).imp_right fun hplaced => ⟨hplaced, by simp⟩
  case held => exact fun hget => (h.held hget).imp_left fun hplaced => ⟨hplaced, by simp⟩
  case block => exact fun hb hplaced => h.block hb hplaced.1
  case fetched =>
    intro txid t hget
    obtain ⟨ht, hplaced⟩ := h.fetched hget
    refine ⟨ht, hplaced, hne fun heq => ?_⟩
    rw [← heq, hr.tx_txid hget, Table.contains_of_get? hget] at hout
    cases hout
  case pooled =>
    intro hash o hget
    rw [Orphans.get?_erase] at hget
    split at hget
    · cases hget
    · rename_i hhash
      obtain ⟨hpeer, t, ht, hitem, htxid, hplaced, hout⟩ := h.pooled hget
      exact ⟨hpeer, t, ht, hitem, htxid, ⟨hplaced, hne (by rw [htxid]; exact hhash)⟩, hout⟩
  case tx =>
    rintro t ht ⟨hplaced, hnot⟩
    have hhash : t.txid ≠ tx.txid := fun heq => hnot (by rw [ho.tx_eq ht htx heq]; rfl)
    exact (h.tx ht hplaced).imp_right fun hin => by rw [Orphans.contains_erase_of_ne _ hhash]; exact hin

end TakeBack

/-! ## A finished round -/

section Finished

variable (ho : Offering c blocks txs) (h : Collecting peer blocks txs placed r pool) (hr : r.RestsOn c)
  (hfinished : r.isFinished = true)
include ho h hr hfinished

theorem received_of_finished {a : Arrival} (ha : a ∈ blocks) : r.blocks.get? a.block.hash = some a := by
  have hrequested := (hr.consistent.mem_requested _).2 ((h.tracked a.block.hash).2 ⟨a, ha, rfl⟩)
  obtain ⟨b, hb⟩ := Table.contains_eq_true.1 (hr.consistent.hasBlock_of_finished hfinished hrequested)
  rw [hb, ho.block_eq (h.received hb).1 ha (hr.consistent.block_hash hb)]

theorem fetched_of_finished {tx : Transaction} (htx : tx ∈ txs) : r.transactions.get? tx.txid = some tx := by
  obtain ⟨a, ha, hmem⟩ := (ho.named tx.txid).1 (List.mem_map_of_mem htx)
  obtain ⟨t, ht, htxid⟩ :=
    hr.consistent.get?_tx_of_finished hfinished (h.received_of_finished ho hr hfinished ha) hmem
  rw [ht, ho.tx_eq (h.fetched ht).1 htx htxid]

theorem all_of_finished : ∀ item ∈ Offering.items blocks txs, item ∈ placed := by
  intro item hitem
  rcases Offering.mem_items hitem with ⟨a, ha, rfl⟩ | ⟨tx, htx, rfl⟩
  · exact (h.received (h.received_of_finished ho hr hfinished ha)).2
  · exact (h.fetched (h.fetched_of_finished ho hr hfinished htx)).2

theorem pool_of_finished (hash : Digest) : pool.get? hash = none := by
  rw [Option.eq_none_iff_forall_ne_some]
  intro o hget
  obtain ⟨-, tx, htx, -, rfl, -, hout⟩ := h.pooled hget
  rw [Table.contains_of_get? (h.fetched_of_finished ho hr hfinished htx)] at hout
  cases hout

theorem arrivals_of_finished : (blocks.map fun a => (a.block.hash, a)).Perm r.arrivals := by
  have hline : (blocks.map fun a => (a.block.hash, a)).Nodup := by
    refine List.Nodup.of_map Prod.fst ?_
    rw [List.map_map]
    exact ho.nodup_blocks
  refine (List.perm_ext_iff_of_nodup hline (Requests.nodup_arrivals_keys hr.consistent).of_map).2 fun x => ?_
  rw [Requests.mem_arrivals hr.consistent, List.mem_map]
  constructor
  · rintro ⟨a, ha, rfl⟩
    exact h.received_of_finished ho hr hfinished ha
  · intro hget
    exact ⟨x.2, (h.received hget).1, by rw [hr.consistent.block_hash hget]⟩

/-- **A finished round holds the whole offering, in one line.** -/
theorem batch_of_finished : r.IsLinear ∧ r.batch = Offering.batch blocks txs := by
  have hperm := h.arrivals_of_finished ho hr hfinished
  have hline : (blocks.map fun a => (a.block.hash, a)).IsChain Requests.IsOnTopOf := (List.isChain_map _).2 ho.line
  refine ⟨⟨_, hperm, hline⟩, ?_⟩
  rw [Requests.batch, Requests.ordered_of_line hr.consistent hr.forest hperm hline, List.map_map, Offering.batch]
  refine List.map_congr_left fun a ha => ?_
  have htxs : a.txids.filterMap r.transactions.get? =
      a.txids.filterMap fun txid => txs.find? fun tx => tx.txid = txid := by
    refine List.filterMap_congr fun txid hmem => ?_
    obtain ⟨tx, htx, rfl⟩ := ho.exists_tx ha hmem
    rw [h.fetched_of_finished ho hr hfinished htx, ho.find?_eq htx]
  rw [Function.comp_apply, htxs]

end Finished

/-- Along a line, what comes next is here if it can be used once what is below it is here. -/
theorem forall_of_line (has : Digest → Prop) : ∀ (line : List Arrival),
    (line.IsChain fun a b => b.block.previous = a.block.hash) → (∀ a ∈ line.head?, has a.block.previous) →
      (∀ a ∈ line, has a.block.previous → has a.block.hash) → ∀ a ∈ line, has a.block.hash
  | [], _, _, _ => fun _ ha => absurd ha List.not_mem_nil
  | a :: line, hline, hfirst, hnext => by
    have ha := hnext a List.mem_cons_self (hfirst a rfl)
    refine List.forall_mem_cons.2 ⟨ha, forall_of_line has line hline.tail ?_ fun b hb =>
      hnext b (List.mem_cons_of_mem _ hb)⟩
    intro b hb
    rw [hline.rel_head? hb]
    exact ha

/-- **Once all is placed and nothing that waits can be used, the round is finished.** -/
theorem finished_of_all (ho : Offering c blocks txs) (h : Collecting peer blocks txs placed r pool) (hr : r.Consistent)
    (hc : c.WellFormed) (hall : ∀ item ∈ Offering.items blocks txs, item ∈ placed)
    (hheld : ∀ hash block, r.heldBack.get? hash = some block → r.isReady c.knows block = false)
    (hpool : ∀ hash o, pool.get? hash = some o → r.isAwaitedTx hash = false) : r.isFinished = true := by
  have hhere : ∀ a ∈ blocks, c.knows a.block.hash = true ∨ r.hasBlock a.block.hash = true := by
    refine forall_of_line (fun hash => c.knows hash = true ∨ r.hasBlock hash = true) blocks ho.line ?_ ?_
    · exact fun a ha => Or.inl ((hc.knows_iff _).2 (ho.parent a ha))
    · intro a ha hready
      rcases h.block ha (hall _ (Offering.block_mem_items ha)) with hhas | hwaits
      · exact Or.inr hhas
      · obtain ⟨block, hget⟩ := Table.contains_eq_true.1 hwaits
        obtain ⟨-, b, hb, rfl⟩ := h.held hget
        have hnot := hheld _ _ hget
        rw [ho.block_eq hb ha (hr.heldBack hget).1, Requests.isReady, Bool.or_eq_false_iff] at hnot
        rcases hready with hknown | hhas
        · rw [hnot.2] at hknown
          cases hknown
        · rw [hnot.1] at hhas
          cases hhas
  have hreceived (a : Arrival) (ha : a ∈ blocks) : r.hasBlock a.block.hash = true := by
    refine (hhere a ha).resolve_left ?_
    rw [(ho.checked ha).unknown]
    exact Bool.false_ne_true
  refine Requests.isFinished_iff.2 ⟨?_, ?_, ?_⟩
  · obtain ⟨a, rest, hblocks⟩ := List.exists_cons_of_ne_nil ho.ne_nil
    have ha : a ∈ blocks := by
      rw [hblocks]
      exact List.mem_cons_self
    exact List.ne_nil_of_mem ((hr.mem_requested _).2 ((h.tracked _).2 ⟨a, ha, rfl⟩))
  · rw [List.eq_nil_iff_forall_not_mem]
    intro hash hmem
    obtain ⟨a, ha, rfl⟩ := (h.tracked hash).1 (Requests.isTracked_iff.2 (Or.inl (Requests.isAwaitedBlock_iff.2 hmem)))
    have hnot := hr.not_hasBlock (Requests.isAwaitedBlock_iff.2 hmem)
    rw [hreceived a ha] at hnot
    cases hnot
  · rw [List.eq_nil_iff_forall_not_mem]
    intro txid hmem
    have hawaited := Requests.isAwaitedTx_iff.2 hmem
    obtain ⟨hash, a, hget, hnamed⟩ := (hr.named txid).1 (Or.inl hawaited)
    obtain ⟨tx, htx, rfl⟩ := ho.exists_tx (h.received hget).1 hnamed
    rcases h.tx htx (hall _ (Offering.tx_mem_items htx)) with hfetched | hwaits
    · rw [hr.not_contains_tx hawaited] at hfetched
      cases hfetched
    · obtain ⟨o, ho'⟩ := Table.contains_eq_true.1 hwaits
      rw [hpool _ _ ho'] at hawaited
      cases hawaited

end Collecting
end LightClient
