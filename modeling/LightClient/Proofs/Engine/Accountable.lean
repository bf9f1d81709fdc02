import LightClient.Proofs.Engine.Orderly
/-!
# One peer answers for a round

While a round is bound to a peer, that peer itself delivered every block and every transaction that the round holds, and
so every batch made from them (`run_accountable`). Items may have waited in the pool, but an entry there carries the
name of the peer that delivered it, and a bound round takes items from its own peer only.
-/
namespace LightClient
namespace Requests

structure GivenBy (given : PeerId → OrphanItem → Prop) (peer : PeerId) (r : Requests) : Prop where
  block {hash : Digest} {a : Arrival} : r.blocks.get? hash = some a → given peer (.block a.block)
  heldBack {hash : Digest} {block : FilteredBlock} : r.heldBack.get? hash = some block → given peer (.block block)
  tx {txid : Digest} {tx : Transaction} : r.transactions.get? txid = some tx → given peer (.tx tx)

namespace GivenBy

variable {given : PeerId → OrphanItem → Prop} {peer : PeerId} {r : Requests}

theorem empty (given : PeerId → OrphanItem → Prop) (peer : PeerId) : Requests.empty.GivenBy given peer where
  block h := by cases h
  heldBack h := by cases h
  tx h := by cases h

theorem mono (h : r.GivenBy given peer) {given' : PeerId → OrphanItem → Prop}
    (hsub : ∀ peer item, given peer item → given' peer item) : r.GivenBy given' peer :=
  ⟨fun hget => hsub _ _ (h.block hget), fun hget => hsub _ _ (h.heldBack hget), fun hget => hsub _ _ (h.tx hget)⟩

theorem track (h : r.GivenBy given peer) (hashes : List Digest) : (r.track hashes).1.GivenBy given peer := by
  rw [track_fst]
  exact ⟨h.block, h.heldBack, h.tx⟩

theorem holdBack (h : r.GivenBy given peer) {block : FilteredBlock} (hgiven : given peer (.block block)) :
    (r.holdBack block).GivenBy given peer := by
  cases hb : r.isAwaitedBlock block.hash with
  | false =>
    rw [holdBack_of_not_awaited hb]
    exact h
  | true =>
    rw [holdBack_of_awaited hb]
    refine ⟨h.block, fun hget => ?_, h.tx⟩
    obtain ⟨-, rfl⟩ | ⟨-, hget⟩ := Table.get?_insert_eq_some.1 hget
    · exact hgiven
    · exact h.heldBack hget

theorem eraseHeldBack (h : r.GivenBy given peer) (hash : Digest) :
    ({ r with heldBack := r.heldBack.erase hash } : Requests).GivenBy given peer := by
  refine ⟨h.block, fun hget => ?_, h.tx⟩
  exact h.heldBack (Table.get?_erase_eq_some.1 hget).2

theorem receiveBlock (h : r.GivenBy given peer) {block : FilteredBlock} (hgiven : given peer (.block block))
    (txids : List Digest) : (r.receiveBlock block txids).1.GivenBy given peer := by
  cases hb : r.isAwaitedBlock block.hash with
  | false =>
    rw [receiveBlock_of_not_awaited hb]
    exact h
  | true =>
    rw [receiveBlock_of_awaited hb]
    refine ⟨fun hget => ?_, (h.eraseHeldBack block.hash).heldBack, h.tx⟩
    obtain ⟨-, rfl⟩ | ⟨-, hget⟩ := Table.get?_insert_eq_some.1 hget
    · exact hgiven
    · exact h.block hget

theorem receiveTx (h : r.GivenBy given peer) {tx : Transaction} (hgiven : given peer (.tx tx)) :
    (r.receiveTx tx).1.GivenBy given peer := by
  cases ht : r.isAwaitedTx tx.txid with
  | false =>
    rw [receiveTx_of_not_awaited ht]
    exact h
  | true =>
    rw [receiveTx_of_awaited ht]
    refine ⟨h.block, h.heldBack, fun hget => ?_⟩
    obtain ⟨-, rfl⟩ | ⟨-, hget⟩ := Table.get?_insert_eq_some.1 hget
    · exact hgiven
    · exact h.tx hget

theorem batch (h : r.GivenBy given peer) {b : ConfirmedBlock} (hb : b ∈ r.batch) :
    given peer (.block b.block) ∧ ∀ tx ∈ b.transactions, given peer (.tx tx) := by
  obtain ⟨x, hx, rfl⟩ := List.mem_map.1 hb
  refine ⟨h.block (get?_of_mem_ordered hx), fun tx htx => ?_⟩
  obtain ⟨txid, -, hget⟩ := List.mem_filterMap.1 htx
  exact h.tx hget

end GivenBy
end Requests

namespace Engine

/-- The items of a batch were given by the peer. -/
def BatchGivenBy (given : PeerId → OrphanItem → Prop) (peer : PeerId) (batch : List ConfirmedBlock) : Prop :=
  ∀ b ∈ batch, given peer (.block b.block) ∧ ∀ tx ∈ b.transactions, given peer (.tx tx)

structure Accountable (given : PeerId → OrphanItem → Prop) (e : Engine) : Prop where
  pool {hash : Digest} {o : Orphan} : e.orphans.get? hash = some o → given o.peer o.item
  round {round : Round} {peer : PeerId} : e.round = some round → round.syncPeer = some peer →
    round.requests.GivenBy given peer
  /-- Whatever was handed to the chain, taken or refused. -/
  attempts {a : Attempt} {peer : PeerId} : a ∈ e.attempts → a.round.syncPeer = some peer →
    BatchGivenBy given peer a.round.requests.batch

theorem RequestMove.givenBy {given : PeerId → OrphanItem → Prop} {c : Chain} {bound : Option PeerId}
    {r r' : Requests} {peer : PeerId} (h : RequestMove given c bound r r') (hbound : bound = some peer)
    (hr : r.GivenBy given peer) : r'.GivenBy given peer := by
  cases h with
  | ask _ => exact hr.track _
  | hold hb hgiven =>
    cases hb.symm.trans hbound
    exact hr.holdBack hgiven
  | release => exact hr.eraseHeldBack _
  | block hpeer hgiven _ _ _ =>
    rw [hpeer peer hbound] at hgiven
    exact hr.receiveBlock hgiven _
  | tx hpeer hgiven _ =>
    rw [hpeer peer hbound] at hgiven
    exact hr.receiveTx hgiven

namespace Accountable

variable {given : PeerId → OrphanItem → Prop}

theorem mono {e : Engine} (h : Accountable given e) {given' : PeerId → OrphanItem → Prop}
    (hsub : ∀ peer item, given peer item → given' peer item) : Accountable given' e where
  pool ho := hsub _ _ (h.pool ho)
  round hround hpeer := (h.round hround hpeer).mono hsub
  attempts ha hpeer b hb :=
    have hgiven := h.attempts ha hpeer b hb
    ⟨hsub _ _ hgiven.1, fun tx htx => hsub _ _ (hgiven.2 tx htx)⟩

theorem attempt {e : Engine} (h : Accountable given e) {round : Round} (hround : e.round = some round)
    {result : Except ChainError Unit} {a : Attempt} {peer : PeerId} (ha : a ∈ e.attempts ++ [⟨round, result⟩])
    (hpeer : a.round.syncPeer = some peer) : BatchGivenBy given peer a.round.requests.batch := by
  rcases List.mem_append.1 ha with ha | ha
  · exact h.attempts ha hpeer
  · rw [List.mem_singleton.1 ha] at hpeer ⊢
    exact fun b hb => (h.round hround hpeer).batch hb

theorem of_frame {e e' : Engine} (h : Accountable given e) (hframe : Frame e e')
    (hround : ∀ round peer, e'.round = some round → round.syncPeer = some peer → round.requests.GivenBy given peer) :
    Accountable given e' where
  pool ho := by
    rw [hframe.orphans] at ho
    exact h.pool ho
  round := hround _ _
  attempts ha := by
    rw [hframe.attempts] at ha
    exact h.attempts ha

theorem move {e e' : Engine} (h : Accountable given e) (hmove : Move given e e') : Accountable given e' := by
  have hfresh {round' : Round} {peer : PeerId} (hr : round'.requests = .empty) :
      round'.requests.GivenBy given peer := by
    rw [hr]
    exact .empty given peer
  cases hmove with
  | aside _ hround hattempts hpool =>
    refine ⟨fun ho => (hpool _ _ ho).elim h.pool id, fun hr => h.round (hround.symm.trans hr), ?_⟩
    rw [hattempts]
    exact h.attempts
  | anew hframe hempty => exact h.of_frame hframe fun _ _ hr _ => hfresh (hempty _ hr)
  | tip hframe _ _ hround =>
    -- a tip round is bound to nobody
    refine h.of_frame hframe fun _ _ hr hpeer => ?_
    rw [hround] at hr
    cases hr
    cases hpeer
  | within hframe hround hround' hsame hrequests =>
    refine h.of_frame hframe fun _ _ hr hpeer => ?_
    rw [hround', Option.some.injEq] at hr
    subst hr
    rw [hsame] at hpeer
    exact hrequests.givenBy hpeer (h.round hround hpeer)
  | refused hframe hround _ hround' =>
    refine ⟨?_, fun hr => h.round (hround.trans (hround'.symm.trans hr)), fun ha => ?_⟩
    · rw [hframe.orphans]
      exact h.pool
    · rw [hframe.attempts] at ha
      exact h.attempt hround ha
  | committed hround _ _ _ horphans hattempts hempty =>
    refine ⟨?_, fun hr _ => hfresh (hempty _ hr), fun ha => ?_⟩
    · rw [horphans]
      exact h.pool
    · rw [hattempts] at ha
      exact h.attempt hround ha

theorem invariant (given : PeerId → OrphanItem → Prop) : Invariant given (Accountable given) :=
  ⟨move, fun h hround hpeer hget => (h.round hround hpeer).heldBack hget, fun h ho => h.pool ho⟩

end Accountable

/-- **The bound peer delivered all that its round holds**, and all of every batch that was ever handed to the chain from
such a round. -/
theorem run_accountable {c : Chain} {e₀ : Engine} (hnew : IsNew c e₀) (turns : List Turn) :
    Accountable (Delivered turns) (e₀.run turns) := by
  refine run_induction (P := fun turns e => Accountable (Delivered turns) e) ?_ ?_ turns
  · obtain ⟨-, hround, hattempts, hpool⟩ := hnew.eq
    refine ⟨fun ho => ?_, fun hr => ?_, fun ha => ?_⟩
    · rw [hpool] at ho
      cases ho
    · rw [hround] at hr
      cases hr
    · rw [hattempts] at ha
      cases ha
  · intro turns e t h
    have hbefore : Accountable (Delivered (turns ++ [t])) e :=
      h.mono fun peer item ⟨env, hmem⟩ => ⟨env, List.mem_append_left _ hmem⟩
    exact (Accountable.invariant _).turn hbefore fun env peer item ht =>
      ⟨env, List.mem_append_right _ (List.mem_singleton.2 ht.symm)⟩

open Sample

/-- The round of the fork holds two blocks, and its peer delivered them. -/
theorem accountable_fork :
    IsNew (.ofGenesis genesis) engine ∧ ∃ round, (engine.run fork).round = some round ∧ round.syncPeer = some peer ∧
      round.requests.blocks.size = 2 ∧ round.requests.GivenBy (Delivered fork) peer := by
  obtain ⟨round, hround, hfacts⟩ := (Option.any_eq_true _ _).1 round_fork
  simp only [Bool.and_eq_true, decide_eq_true_eq] at hfacts
  obtain ⟨⟨⟨⟨hbound, -⟩, hsize⟩, -⟩, -⟩ := hfacts
  exact ⟨isNew_engine, round, hround, hbound, hsize, (run_accountable isNew_engine fork).round hround hbound⟩

end Engine
end LightClient
