import LightClient.Proofs.Engine.Moves
import LightClient.Proofs.Requests.Order
/-!
# When a finished round is taken

The blocks of a round rest on the chain: the chain knows none of them, and the parent of each is known or came with the
round (`Requests.RestsOn`). This holds in every reachable state, together with the shape of the chain
(`Reachable.orderly`).

It leaves one thing open, for two blocks of a round may have the same parent. The chain takes a finished round exactly
if its blocks form a line (`commit_finished_iff`).
-/
namespace LightClient
namespace Requests

structure RestsOn (r : Requests) (c : Chain) : Prop where
  consistent : r.Consistent
  forest : r.IsForest
  unknown {hash : Digest} {a : Arrival} : r.blocks.get? hash = some a → c.knows hash = false
  parent {hash : Digest} {a : Arrival} : r.blocks.get? hash = some a →
    c.knows a.block.previous = true ∨ r.hasBlock a.block.previous = true

namespace RestsOn

theorem empty (c : Chain) : Requests.empty.RestsOn c where
  consistent := .empty
  forest := .empty
  unknown h := by simp [Requests.empty] at h
  parent h := by simp [Requests.empty] at h

variable {r : Requests} {c : Chain}

theorem congr (h : r.RestsOn c) {c' : Chain} (hsame : c.SameBlocks c') : r.RestsOn c' where
  consistent := h.consistent
  forest := h.forest
  unknown hget := by
    rw [hsame.knows]
    exact h.unknown hget
  parent hget := by
    rw [hsame.knows]
    exact h.parent hget

/-- Only the arrived blocks matter, once the books are in order. -/
theorem of_blocks (h : r.RestsOn c) {r' : Requests} (hr' : r'.Consistent) (hblocks : r'.blocks = r.blocks) :
    r'.RestsOn c := by
  cases r' with
  | mk requested awaitedBlocks awaitedTxids blocks transactions heldBack =>
  simp only at hblocks
  subst hblocks
  exact ⟨hr', h.forest, h.unknown, h.parent⟩

theorem track (h : r.RestsOn c) (hashes : List Digest) : (r.track hashes).1.RestsOn c :=
  h.of_blocks (h.consistent.track hashes) (by rw [track_fst])

theorem holdBack (h : r.RestsOn c) (block : FilteredBlock) : (r.holdBack block).RestsOn c :=
  h.of_blocks (h.consistent.holdBack block) (blocks_holdBack r block)

theorem receiveTx (h : r.RestsOn c) (tx : Transaction) : (r.receiveTx tx).1.RestsOn c :=
  h.of_blocks (h.consistent.receiveTx tx) (blocks_receiveTx r tx)

/-- **A new block whose parent is known or here.** Nothing here can lie on top of it yet. -/
theorem receiveBlock (h : r.RestsOn c) {block : FilteredBlock} (hunknown : c.knows block.hash = false)
    (hawaited : r.isAwaitedBlock block.hash = true)
    (hparent : c.knows block.previous = true ∨ r.hasBlock block.previous = true) (txids : List Digest) :
    (r.receiveBlock block txids).1.RestsOn c := by
  have hnot := h.consistent.not_hasBlock hawaited
  have hne {x : Digest} (hx : c.knows x = true ∨ r.hasBlock x = true) : x ≠ block.hash := by
    rintro rfl
    rw [hunknown, hnot] at hx
    simp at hx
  have hforest := h.forest.receiveBlock (hne hparent) (fun _ _ hget => hne (h.parent hget)) txids
  have hbooks := h.consistent.receiveBlock block txids
  rw [receiveBlock_of_awaited hawaited] at hforest hbooks ⊢
  have hkeep {x : Digest} (hx : c.knows x = true ∨ r.hasBlock x = true) :
      c.knows x = true ∨ (r.blocks.insert block.hash ⟨block, txids⟩).contains x = true := by
    rw [Table.contains_insert, Bool.or_eq_true]
    exact hx.imp_right Or.inr
  refine ⟨hbooks, hforest, fun {hash a} hget => ?_, fun {hash a} hget => ?_⟩
  · obtain ⟨rfl, -⟩ | ⟨-, hget⟩ := Table.get?_insert_eq_some.1 hget
    · exact hunknown
    · exact h.unknown hget
  · obtain ⟨-, rfl⟩ | ⟨-, hget⟩ := Table.get?_insert_eq_some.1 hget
    · exact hkeep hparent
    · exact hkeep (h.parent hget)

end RestsOn

/-! ## The batch -/

theorem linked_batch_iff {r : Requests} (h : r.Consistent) (hf : r.IsForest) :
    Chain.Linked r.batch ↔ r.IsLinear := by
  rw [isLinear_iff h hf, Chain.Linked, batch, List.isChain_map]
  constructor
  · refine List.IsChain.imp_of_mem_imp fun a b ha _ hab => ?_
    rw [IsOnTopOf, ← hash_of_mem_ordered h hf ha]
    exact hab
  · refine List.IsChain.imp_of_mem_imp fun a b ha _ hab => ?_
    rw [hash_of_mem_ordered h hf ha]
    exact hab

theorem hasBlock_head_ordered {r : Requests} {x : Digest × Arrival} {rest : List (Digest × Arrival)}
    (hx : r.ordered = x :: rest) : r.hasBlock x.2.block.previous = false := by
  simp only [ordered] at hx
  cases hroots : r.arrivals.filter fun a => !r.hasBlock a.2.block.previous with
  | nil =>
    rw [hroots] at hx
    cases hx
  | cons a roots =>
    have ha : a ∈ r.arrivals.filter fun a => !r.hasBlock a.2.block.previous := by
      rw [hroots]
      exact List.mem_cons_self
    obtain ⟨harrived, hroot⟩ := List.mem_filter.1 ha
    obtain ⟨n, hn⟩ : ∃ n, r.arrivals.length = n + 1 := ⟨r.arrivals.length - 1, by
      have := List.length_pos_of_mem harrived
      omega⟩
    rw [hroots, hn, List.flatMap_cons, familyAmong, List.cons_append, List.cons.injEq] at hx
    rw [← hx.1]
    simpa using hroot

theorem Consistent.ordered_ne_nil {r : Requests} (h : r.Consistent) (hf : r.IsForest)
    (hfinished : r.isFinished = true) : r.ordered ≠ [] := by
  obtain ⟨hash, rest, hrequested⟩ := List.exists_cons_of_ne_nil (isFinished_iff.1 hfinished).1
  have hhas := h.hasBlock_of_finished hfinished (by rw [hrequested]; exact List.mem_cons_self)
  obtain ⟨a, ha⟩ := Table.contains_eq_true.1 hhas
  have hmem : (hash, a) ∈ r.ordered := (mem_ordered h hf).2 ha
  exact List.ne_nil_of_mem hmem

/-- **The chain takes the batch of a finished round exactly if its blocks form a line.** -/
theorem RestsOn.commit_batch_iff {r : Requests} {c : Chain} (h : r.RestsOn c) (hc : c.WellFormed)
    (hfinished : r.isFinished = true) (hopen : c.isClosed = false) :
    (∃ c' events, c.commit r.batch = .ok (c', events)) ↔ r.IsLinear := by
  rw [← linked_batch_iff h.consistent h.forest]
  constructor
  · rintro ⟨c', events, hcommit⟩
    obtain ⟨-, _, _, -, hlinked, -⟩ := Chain.commit_eq_ok_iff.1 hcommit
    exact hlinked
  · intro hlinked
    obtain ⟨x, rest, hx⟩ := List.exists_cons_of_ne_nil (h.consistent.ordered_ne_nil h.forest hfinished)
    have hget : r.blocks.get? x.1 = some x.2 := by
      rw [← mem_ordered h.consistent h.forest, hx]
      exact List.mem_cons_self
    have hparent : x.2.block.previous ∈ c.main := by
      rw [← hc.knows_iff]
      refine (h.parent hget).resolve_right ?_
      rw [hasBlock_head_ordered hx]
      exact Bool.false_ne_true
    obtain ⟨below, above, hmain, habove, -⟩ := Chain.exists_keptBelow? hparent
    have hnew (b : ConfirmedBlock) (hb : b ∈ r.batch) : c.knows b.block.hash = false := by
      obtain ⟨y, hy, rfl⟩ := List.mem_map.1 hb
      rw [hash_of_mem_ordered h.consistent h.forest hy]
      exact h.unknown ((mem_ordered h.consistent h.forest).1 hy)
    have hbatch : r.batch = ⟨x.2.block, x.2.txids.filterMap r.transactions.get?⟩ ::
        rest.map fun a => ⟨a.2.block, a.2.txids.filterMap r.transactions.get?⟩ := by
      rw [batch, hx, List.map_cons]
    exact ⟨_, _, Chain.commit_eq_ok_iff.2 ⟨hopen, _, _, hbatch, hlinked, hnew, below, above, hmain, habove, rfl⟩⟩

end Requests

namespace Engine

/-! ## The invariant -/

theorem RequestMove.restsOn {given : PeerId → OrphanItem → Prop} {c : Chain} {bound : Option PeerId} {r r' : Requests}
    (h : RequestMove given c bound r r') (hc : c.WellFormed) (hr : r.RestsOn c) : r'.RestsOn c := by
  cases h with
  | ask _ => exact hr.track _
  | hold _ _ => exact hr.holdBack _
  | release => exact hr.of_blocks (hr.consistent.eraseHeldBack _) rfl
  | tx _ _ _ => exact hr.receiveTx _
  | block _ _ hchecked hawaited hparent =>
    refine hr.receiveBlock hchecked.unknown hawaited ?_ _
    rcases hparent with hknown | hhere | htip
    · exact Or.inl hknown
    · exact Or.inr hhere
    · rw [htip]
      exact Or.inl hc.knows_tip

/-- The chain is well formed and the round rests on it. -/
abbrev Orderly : Engine → Prop := Holds Chain.WellFormed fun c r => r.RestsOn c

theorem stable_orderly : Stable Chain.WellFormed fun c r => r.RestsOn c where
  chain_congr := Chain.WellFormed.congr
  congr hr hsame := hr.congr hsame
  empty := Requests.RestsOn.empty
  within hc hr hmove := hmove.restsOn hc hr
  commit hc hr hcommit := hc.commit (Requests.nodup_batch hr.consistent hr.forest) hcommit

theorem Reachable.orderly {c : Chain} (hc : c.Reachable) {e : Engine} (he : Reachable c e) : Orderly e :=
  stable_orderly.reachable hc.wellFormed he

/-- **An open chain takes a finished round exactly if its blocks form a line.** -/
theorem commit_finished_iff {c : Chain} (hc : c.Reachable) {e : Engine} (he : Reachable c e) {round : Round}
    (hround : e.round = some round) (hfinished : round.requests.isFinished = true) (hopen : e.chain.isClosed = false) :
    (∃ c' events, e.chain.commit round.requests.batch = .ok (c', events)) ↔ round.requests.IsLinear :=
  have h := he.orderly hc
  (h.round hround).commit_batch_iff h.chain hfinished hopen

end Engine

/-! ## A round that forks -/

namespace Sample

/-- The peer offers and delivers two blocks on top of the genesis block. -/
def fork : List Turn :=
  [.call outlook (.upkeep 0),
   .call outlook (.offer peer [.filteredBlock (child genesisHash 4).hash, .filteredBlock (child genesisHash 7).hash]),
   .call outlook (.deliver peer (.block (child genesisHash 4))),
   .call outlook (.deliver peer (.block (child genesisHash 7)))]

theorem round_fork :
    ((engine.run fork).round.any fun r =>
      r.syncPeer = some peer && r.requests.isFinished && r.requests.blocks.size = 2 &&
        !(engine.run fork).chain.isClosed &&
        ((engine.run fork).chain.commit r.requests.batch).toOption.isNone) = true := by
  decide +kernel

end Sample

namespace Engine

open Sample

/-- Both blocks are taken into the round, which is finished. The chain does not take the two of them. -/
theorem not_commit_fork :
    ∃ round, (engine.run fork).round = some round ∧ round.requests.isFinished = true ∧ round.requests.blocks.size = 2 ∧
      ¬ round.requests.IsLinear ∧
      ¬ ∃ c' events, (engine.run fork).chain.commit round.requests.batch = .ok (c', events) := by
  obtain ⟨round, hround, hfacts⟩ := (Option.any_eq_true _ _).1 round_fork
  simp only [Bool.and_eq_true, decide_eq_true_eq, Bool.not_eq_true'] at hfacts
  obtain ⟨⟨⟨⟨-, hfinished⟩, hsize⟩, hopen⟩, hnone⟩ := hfacts
  have hrefused : ¬ ∃ c' events, (engine.run fork).chain.commit round.requests.batch = .ok (c', events) := by
    rintro ⟨c', events, hcommit⟩
    rw [hcommit] at hnone
    cases hnone
  have hiff := commit_finished_iff (.genesis genesis) ⟨engine, fork, isNew_engine, rfl⟩ hround hfinished hopen
  exact ⟨round, hround, hfinished, hsize, fun hlinear => hrefused (hiff.2 hlinear), hrefused⟩

end Engine
end LightClient
