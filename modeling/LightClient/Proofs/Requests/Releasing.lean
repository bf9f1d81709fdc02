import LightClient.Proofs.Requests.Listing
/-!
# Blocks held back are let go in any order

A block that is held back is let go once its parent is here or known. It is checked once more, by `vet`, and then taken
into the round, which may let others go. Here the order is left open: `TakenFrom` describes the books after blocks have
been let go, and it speaks only of which they were. What can be let go at all is fixed from the beginning (`Freed`): no
matter the order, only such blocks are let go, and once none is left to be let go all of them have been. So the books
that different orders lead to are alike (`TakenFrom.alike`).
-/
namespace LightClient
namespace Requests

/-! ## Books that differ in the order of arrival -/

/-- The same books, but for the order in which things came. -/
structure Alike (r r' : Requests) : Prop where
  requested : r'.requested = r.requested
  awaitedBlocks : r'.awaitedBlocks = r.awaitedBlocks
  awaitedTxids : r'.awaitedTxids.Perm r.awaitedTxids
  blocks (hash : Digest) : r'.blocks.get? hash = r.blocks.get? hash
  transactions : r'.transactions = r.transactions
  heldBack (hash : Digest) : r'.heldBack.get? hash = r.heldBack.get? hash

namespace Alike

theorem refl (r : Requests) : r.Alike r := ⟨rfl, rfl, .refl _, fun _ => rfl, rfl, fun _ => rfl⟩

variable {r r' : Requests} (h : r.Alike r')
include h

theorem batch : r'.batch = r.batch := batch_congr h.requested h.blocks fun _ => by rw [h.transactions]

theorem isFinished : r'.isFinished = r.isFinished := by
  simp only [Requests.isFinished, isEmpty, h.requested, h.awaitedBlocks, h.awaitedTxids.isEmpty_eq]

end Alike

/-! ## What can be let go -/

section
variable (vet : FilteredBlock → Option (List Digest)) (knows : Digest → Bool) (r : Requests)

/-- What the block that is held back under a hash is in the round, once it is taken. It is nothing if the checks refuse
the block. -/
def arrivalOf (hash : Digest) : Option Arrival := (r.heldBack.get? hash).bind fun block => (vet block).map (⟨block, ·⟩)

/-- A block that is let go in some order: its parent is here or known, or is such a block itself and passes the
checks. -/
inductive Freed : Digest → Prop where
  | ready {hash : Digest} {block : FilteredBlock} : r.heldBack.get? hash = some block → r.isReady knows block = true →
      Freed hash
  | after {hash : Digest} {block : FilteredBlock} : r.heldBack.get? hash = some block → Freed block.previous →
      (arrivalOf vet r block.previous).isSome = true → Freed hash

/-- The chain of blocks held back below a block reaches one whose parent is here or known. -/
inductive Connected : Digest → Prop where
  | ready {hash : Digest} {block : FilteredBlock} : r.heldBack.get? hash = some block → r.isReady knows block = true →
      Connected hash
  | above {hash : Digest} {block : FilteredBlock} : r.heldBack.get? hash = some block → Connected block.previous →
      Connected hash

/-- One block is let go. Answers the transactions that have to be fetched for it. -/
def letGo (hash : Digest) (block : FilteredBlock) : Requests × List Digest :=
  match vet block with
  | none => ({ r with heldBack := r.heldBack.erase hash }, [])
  | some txids => ({ r with heldBack := r.heldBack.erase hash } : Requests).receiveBlock block txids

/-- Of the blocks let go, what arrived under a hash. -/
def arrivedOf (taken : List Digest) (hash : Digest) : Option Arrival :=
  if hash ∈ taken then r.arrivalOf vet hash else none

/-- The books after some of the blocks held back were let go, and the transactions that were asked for. -/
structure TakenFrom (taken : List Digest) (r' : Requests) (asked : List Digest) : Prop where
  consistent : r'.Consistent
  requested : r'.requested = r.requested
  awaitedBlocks : r'.awaitedBlocks = r.awaitedBlocks.filter fun hash => (r.arrivedOf vet taken hash).isNone
  awaitedTxids : r'.awaitedTxids = r.awaitedTxids ++ asked
  blocks (hash : Digest) : r'.blocks.get? hash = (r.arrivedOf vet taken hash).or (r.blocks.get? hash)
  transactions : r'.transactions = r.transactions
  heldBack (hash : Digest) : r'.heldBack.get? hash = if hash ∈ taken then none else r.heldBack.get? hash

end

variable {vet : FilteredBlock → Option (List Digest)} {knows : Digest → Bool} {r r' : Requests}
  {taken : List Digest} {asked : List Digest} {hash : Digest} {block : FilteredBlock}

theorem arrivalOf_of_get? (hget : r.heldBack.get? hash = some block) :
    r.arrivalOf vet hash = (vet block).map (⟨block, ·⟩) := by
  rw [arrivalOf, hget, Option.bind_some]

theorem Freed.held (h : r.Freed vet knows hash) : ∃ block, r.heldBack.get? hash = some block := by
  cases h with
  | ready hheld _ => exact ⟨_, hheld⟩
  | after hheld _ _ => exact ⟨_, hheld⟩

/-- Where the checks refuse none of the blocks held back, all that are connected can be let go. -/
theorem Connected.freed (h : r.Connected knows hash)
    (hvet : ∀ hash block, r.heldBack.get? hash = some block → (vet block).isSome = true) :
    r.Freed vet knows hash ∧ (r.arrivalOf vet hash).isSome = true := by
  have harrival {hash : Digest} {block : FilteredBlock} (hheld : r.heldBack.get? hash = some block) :
      (r.arrivalOf vet hash).isSome = true := by
    rw [arrivalOf_of_get? hheld, Option.isSome_map]
    exact hvet hash block hheld
  induction h with
  | ready hheld hready => exact ⟨.ready hheld hready, harrival hheld⟩
  | above hheld _ ih => exact ⟨.after hheld ih.1 ih.2, harrival hheld⟩

theorem arrivedOf_append (taken : List Digest) (new hash : Digest) :
    r.arrivedOf vet (taken ++ [new]) hash =
      if hash = new then r.arrivalOf vet hash else r.arrivedOf vet taken hash := by
  simp only [arrivedOf, List.mem_append, List.mem_singleton]
  by_cases hnew : hash = new
  · rw [if_pos (Or.inr hnew), if_pos hnew]
  · rw [if_neg hnew]
    simp only [hnew, or_false]

theorem letGo_of_refused (hvet : vet block = none) :
    r.letGo vet hash block = ({ r with heldBack := r.heldBack.erase hash }, []) := by
  rw [letGo, hvet]

theorem letGo_of_vetted {txids : List Digest} (hvet : vet block = some txids) : r.letGo vet hash block =
    ({ r with heldBack := r.heldBack.erase hash } : Requests).receiveBlock block txids := by
  rw [letGo, hvet]

namespace TakenFrom

theorem refl (h : r.Consistent) : r.TakenFrom vet [] r [] where
  consistent := h
  requested := rfl
  awaitedBlocks := (List.filter_eq_self.2 fun _ _ => rfl).symm
  awaitedTxids := (List.append_nil _).symm
  blocks _ := rfl
  transactions := rfl
  heldBack _ := rfl

variable (h : r.TakenFrom vet taken r' asked)
include h

theorem get?_heldBack : r'.heldBack.get? hash = some block ↔ hash ∉ taken ∧ r.heldBack.get? hash = some block := by
  rw [h.heldBack]
  split
  · rename_i hmem
    simp [hmem]
  · rename_i hmem
    simp [hmem]

theorem hasBlock_of_arrived (hmem : hash ∈ taken) (harrival : (r.arrivalOf vet hash).isSome = true) :
    r'.hasBlock hash = true := by
  rw [hasBlock, Table.contains, h.blocks, arrivedOf, if_pos hmem, Option.isSome_or, harrival, Bool.true_or]

theorem hasBlock_iff : r'.hasBlock hash = true ↔
    r.hasBlock hash = true ∨ hash ∈ taken ∧ (r.arrivalOf vet hash).isSome = true := by
  rw [hasBlock, Table.contains, h.blocks, Option.isSome_or, Bool.or_eq_true, or_comm, arrivedOf, hasBlock,
    Table.contains]
  split
  · rename_i hmem
    simp [hmem]
  · rename_i hmem
    simp [hmem]

/-- **A block that is let go can be let go from the beginning**, by letting go of others first. -/
theorem freed (hfreed : ∀ x ∈ taken, r.Freed vet knows x) (hget : r'.heldBack.get? hash = some block)
    (hready : r'.isReady knows block = true) : r.Freed vet knows hash := by
  obtain ⟨-, hheld⟩ := h.get?_heldBack.1 hget
  rw [isReady, Bool.or_eq_true, h.hasBlock_iff] at hready
  rcases hready with (hhere | ⟨hmem, harrival⟩) | hknown
  · exact .ready hheld (by rw [isReady, hhere, Bool.true_or])
  · exact .after hheld (hfreed _ hmem) harrival
  · exact .ready hheld (by rw [isReady, hknown, Bool.or_true])

/-- **When none is left to be let go, all that can be have been.** -/
theorem mem_of_freed
    (hnone : ∀ hash block, r'.heldBack.get? hash = some block → r'.isReady knows block = false)
    (hfreed : r.Freed vet knows hash) : hash ∈ taken := by
  have hleft {hash : Digest} {block : FilteredBlock} (hheld : r.heldBack.get? hash = some block)
      (hready : r'.isReady knows block = true) : hash ∈ taken := by
    by_contra hnot
    rw [hnone hash block (h.get?_heldBack.2 ⟨hnot, hheld⟩)] at hready
    cases hready
  induction hfreed with
  | ready hheld hready =>
    refine hleft hheld ?_
    rw [isReady, Bool.or_eq_true] at hready ⊢
    exact hready.imp_left fun hhere => h.hasBlock_iff.2 (Or.inl hhere)
  | after hheld _ harrival ih =>
    refine hleft hheld ?_
    rw [isReady, h.hasBlock_of_arrived ih harrival, Bool.true_or]

theorem get?_erase (hash x : Digest) :
    (r'.heldBack.erase hash).get? x = if x ∈ taken ++ [hash] then none else r.heldBack.get? x := by
  rw [Table.get?_erase, h.heldBack]
  simp only [List.mem_append, List.mem_singleton]
  by_cases hx : x = hash
  · simp [hx]
  · simp [hx]

/-- One more block is let go, and the checks refuse it. -/
theorem refuse (hget : r'.heldBack.get? hash = some block) (hvet : vet block = none) :
    r.TakenFrom vet (taken ++ [hash]) { r' with heldBack := r'.heldBack.erase hash } asked := by
  obtain ⟨hnew, hheld⟩ := h.get?_heldBack.1 hget
  have hsame : r.arrivedOf vet (taken ++ [hash]) = r.arrivedOf vet taken := by
    funext x
    rw [arrivedOf_append]
    split
    · rename_i hx
      rw [hx, arrivalOf_of_get? hheld, hvet, Option.map_none, arrivedOf, if_neg hnew]
    · rfl
  refine ⟨h.consistent.eraseHeldBack _, h.requested, ?_, h.awaitedTxids, fun x => ?_, h.transactions, h.get?_erase hash⟩
  · rw [hsame]
    exact h.awaitedBlocks
  · rw [hsame]
    exact h.blocks x

/-- One more block is let go and taken into the round. -/
theorem receive {txids : List Digest} (hget : r'.heldBack.get? block.hash = some block)
    (hvet : vet block = some txids) :
    let answer := ({ r' with heldBack := r'.heldBack.erase block.hash } : Requests).receiveBlock block txids
    r.TakenFrom vet (taken ++ [block.hash]) answer.1 (asked ++ answer.2) := by
  intro answer
  obtain ⟨-, hheld⟩ := h.get?_heldBack.1 hget
  obtain ⟨-, hawaited⟩ := h.consistent.heldBack hget
  have harrival : r.arrivalOf vet block.hash = some ⟨block, txids⟩ := by
    rw [arrivalOf_of_get? hheld, hvet, Option.map_some]
  have hawaited' :
      ({ r' with heldBack := r'.heldBack.erase block.hash } : Requests).isAwaitedBlock block.hash = true := hawaited
  have hconsistent : answer.1.Consistent := (h.consistent.eraseHeldBack block.hash).receiveBlock block txids
  have hanswer : answer = _ := receiveBlock_of_awaited hawaited' txids
  rw [hanswer] at hconsistent ⊢
  refine ⟨hconsistent, h.requested, ?_, ?_, fun x => ?_, h.transactions, fun x => ?_⟩
  · rw [h.consistent.nodup_awaitedBlocks.erase_eq_filter, h.awaitedBlocks, List.filter_filter]
    refine List.filter_congr fun x _ => ?_
    rw [arrivedOf_append]
    by_cases hx : x = block.hash
    · simp [hx, harrival]
    · simp [hx]
  · rw [h.awaitedTxids, List.append_assoc]
  · rw [arrivedOf_append, Table.get?_insert]
    split
    · rename_i hx
      rw [hx, harrival, Option.some_or]
    · exact h.blocks x
  · rw [← h.get?_erase, Table.get?_erase, Table.get?_erase]
    split
    · rfl
    · rfl

/-- **One more block is let go.** -/
theorem letGo (hget : r'.heldBack.get? hash = some block) :
    r.TakenFrom vet (taken ++ [hash]) (r'.letGo vet hash block).1 (asked ++ (r'.letGo vet hash block).2) := by
  obtain ⟨rfl, -⟩ := h.consistent.heldBack hget
  cases hvet : vet block with
  | none =>
    rw [letGo_of_refused hvet, List.append_nil]
    exact h.refuse hget hvet
  | some txids =>
    rw [letGo_of_vetted hvet]
    exact h.receive hget hvet

end TakenFrom

/-- The transactions that are awaited follow from the blocks and the transactions that are here. -/
theorem Consistent.mem_awaitedTxids_iff (h : r.Consistent) (txid : Digest) : txid ∈ r.awaitedTxids ↔
    (∃ hash a, r.blocks.get? hash = some a ∧ txid ∈ a.txids) ∧ r.transactions.contains txid = false := by
  rw [← h.named, ← isAwaitedTx_iff]
  constructor
  · exact fun hawaited => ⟨Or.inl hawaited, h.not_contains_tx hawaited⟩
  · rintro ⟨hawaited | hhere, hnot⟩
    · exact hawaited
    · rw [hnot] at hhere
      cases hhere

/-- **The order leaves no trace but in the order**: where the same blocks were let go, the books are alike, and the same
transactions were asked for. -/
theorem TakenFrom.alike {taken' asked' : List Digest} {r₁ r₂ : Requests} (h₁ : r.TakenFrom vet taken r₁ asked)
    (h₂ : r.TakenFrom vet taken' r₂ asked') (hsame : ∀ hash, hash ∈ taken ↔ hash ∈ taken') :
    r₁.Alike r₂ ∧ asked'.Perm asked := by
  have harrived : r.arrivedOf vet taken' = r.arrivedOf vet taken := by
    funext hash
    simp only [arrivedOf, hsame]
  have hblocks (hash : Digest) : r₂.blocks.get? hash = r₁.blocks.get? hash := by
    rw [h₁.blocks, h₂.blocks, harrived]
  have htransactions : r₂.transactions = r₁.transactions := h₂.transactions.trans h₁.transactions.symm
  have htxids : r₂.awaitedTxids.Perm r₁.awaitedTxids := by
    have hnodup := h₁.consistent.nodup_awaitedTxids
    refine (List.perm_ext_iff_of_nodup h₂.consistent.nodup_awaitedTxids hnodup).2 fun txid => ?_
    rw [h₁.consistent.mem_awaitedTxids_iff, h₂.consistent.mem_awaitedTxids_iff, htransactions]
    simp only [hblocks]
  refine ⟨⟨h₂.requested.trans h₁.requested.symm, ?_, htxids, hblocks, htransactions, fun hash => ?_⟩, ?_⟩
  · rw [h₁.awaitedBlocks, h₂.awaitedBlocks, harrived]
  · simp only [h₁.heldBack, h₂.heldBack, hsame]
  · rw [h₁.awaitedTxids, h₂.awaitedTxids] at htxids
    exact (List.perm_append_left_iff _).1 htxids

end Requests
end LightClient
