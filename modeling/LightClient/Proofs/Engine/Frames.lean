import LightClient.Engine.Run
import LightClient.Proofs.Chain.WellFormed
import LightClient.Proofs.Requests.Bookkeeping
/-!
# What the parts of a call leave alone

Most of what the engine does changes its round and its commands, and nothing else (`RoundOnly`). What it goes on to once
a round is over is one of three things (`Onward`).
-/
namespace LightClient

-- `r` has to be a variable here: for a round with given requests, `rfl` would compute the hash of the block
theorem Round.receiveBlock_eq (r : Round) (now : Nat) (block : FilteredBlock) (txids : List Digest) :
    r.receiveBlock now block txids =
      ({ r with requests := (r.requests.receiveBlock block txids).1, lastProgress := now },
        (r.requests.receiveBlock block txids).2) := rfl

namespace Engine

/-- The chain's blocks, the pool and the attempts are the same. -/
structure Frame (e e' : Engine) : Prop where
  blocks : e.chain.SameBlocks e'.chain
  orphans : e'.orphans = e.orphans
  attempts : e'.attempts = e.attempts

/-- The store, the pool, the cache and the records are the same. -/
structure RoundOnly (e e' : Engine) : Prop where
  store : e'.store = e.store
  orphans : e'.orphans = e.orphans
  txCache : e'.txCache = e.txCache
  attempts : e'.attempts = e.attempts
  verdicts : e'.verdicts = e.verdicts

theorem RoundOnly.refl (e : Engine) : RoundOnly e e := ⟨rfl, rfl, rfl, rfl, rfl⟩

theorem RoundOnly.frame {e e' : Engine} (h : RoundOnly e e') : Frame e e' where
  blocks := by
    rw [chain, chain, h.store]
    exact .refl _
  orphans := h.orphans
  attempts := h.attempts

/-! ## The end of a round -/

/-- What an engine does once its round is over. -/
inductive Onward (env : Outlook) (e : Engine) : Engine → Prop where
  | idle : Onward env e e
  | unbound : Onward env e (e.command (.bind none))
  | begun (peer : PeerId) : Onward env e (e.beginRound env peer)

theorem startSync_onward (env : Outlook) (e : Engine) (prefer : Option PeerId) :
    Onward env e (e.startSync env prefer).1 := by
  unfold startSync
  split
  · exact .idle
  split
  · exact .begun _
  · exact .idle

namespace Onward

variable {env : Outlook} {e e' : Engine} (h : Onward env e e')
include h

theorem roundOnly : RoundOnly e e' := by
  cases h with
  | idle => exact .refl e
  | unbound => exact ⟨rfl, rfl, rfl, rfl, rfl⟩
  | begun peer => exact ⟨rfl, rfl, rfl, rfl, rfl⟩

theorem fresh (hnone : e.round = none) {round : Round} (hround : e'.round = some round) : round.requests = .empty := by
  cases h with
  | idle =>
    rw [hnone] at hround
    cases hround
  | unbound =>
    change e.round = some round at hround
    rw [hnone] at hround
    cases hround
  | begun peer =>
    cases hround
    rfl

end Onward

/-- The engine after a peer was dropped, before it goes on with another one. -/
def drop (env : Outlook) (e : Engine) (offender : PeerId) : Engine :=
  let policy := e.policy.recordFault offender env.now
  let policy :=
    match e.syncPeer.filter (· ≠ offender) with
    | some bound => policy.recordFault bound env.now
    | none => policy
  { e with policy, round := none }.command (.disconnect offender) |>.command (.bind none)

theorem restartWithout_eq (env : Outlook) (e : Engine) (offender : PeerId) :
    e.restartWithout env offender =
      match (e.drop env offender).policy.select env.peers e.chain.height (some offender) none env.now with
      | some peer => (e.drop env offender).beginRound env peer
      | none => e.drop env offender := rfl

theorem restartWithout_onward (env : Outlook) (e : Engine) (offender : PeerId) :
    Onward env (e.drop env offender) (e.restartWithout env offender) := by
  rw [restartWithout_eq]
  split
  · exact .begun _
  · exact .idle

theorem roundOnly_startSync (env : Outlook) (e : Engine) (prefer : Option PeerId) :
    RoundOnly e (e.startSync env prefer).1 := (startSync_onward env e prefer).roundOnly

theorem roundOnly_restartWithout (env : Outlook) (e : Engine) (offender : PeerId) :
    RoundOnly e (e.restartWithout env offender) :=
  have h := (restartWithout_onward env e offender).roundOnly
  ⟨h.store, h.orphans, h.txCache, h.attempts, h.verdicts⟩

/-! ## The parts of a call -/

theorem syncPeer_eq_some_iff {e : Engine} {bound : PeerId} :
    e.syncPeer = some bound ↔ ∃ round, e.round = some round ∧ round.syncPeer = some bound := by
  rw [syncPeer, Option.bind_eq_some_iff]

theorem isAwaitedTx_iff {e : Engine} {txid : Digest} :
    e.isAwaitedTx txid = true ↔ ∃ round, e.round = some round ∧ round.requests.isAwaitedTx txid = true := by
  cases h : e.round <;> simp [isAwaitedTx, h]

theorem checkWork_eq_ok_iff {h : Header} : h.checkWork = .ok () ↔ h.meetsTarget = true := by
  unfold Header.checkWork
  cases h.meetsTarget <;> simp

theorem startSync_of_round {env : Outlook} {e : Engine} {prefer : Option PeerId} (h : e.round.isSome = true) :
    e.startSync env prefer = (e, false) := if_pos h

/-- Besides the round, holding a block back may ask for the blocks below it. -/
theorem holdBack_eq (e : Engine) (bound : PeerId) (block : FilteredBlock) :
    ∃ round news, e.holdBack bound block = { e with round, commands := e.commands ++ news } ∧
      (∀ r, e.round = some r → ∃ locator, round = some { r with locator, requests := r.requests.holdBack block }) ∧
      ∀ c ∈ news, ∃ locator, c = .send bound (.getBlocks locator Digest.zero) := by
  simp only [holdBack]
  split
  · exact ⟨_, [], by rw [List.append_nil], fun r hr => ⟨r.locator, by rw [hr]; rfl⟩,
      fun _ hmem => absurd hmem List.not_mem_nil⟩
  · exact ⟨_, [_], rfl, fun r hr => ⟨_, by rw [hr]; rfl⟩, fun c hc => ⟨_, List.mem_singleton.1 hc⟩⟩

theorem roundOnly_holdBack (e : Engine) (bound : PeerId) (block : FilteredBlock) :
    RoundOnly e (e.holdBack bound block) := by
  obtain ⟨round, news, heq, -, -⟩ := holdBack_eq e bound block
  rw [heq]
  exact ⟨rfl, rfl, rfl, rfl, rfl⟩

/-- **Holding a block back** may set the round's locator, too. -/
theorem exists_round_holdBack {e : Engine} {round : Round} (h : e.round = some round) (bound : PeerId)
    (block : FilteredBlock) : ∃ locator, (e.holdBack bound block).round =
      some { round with locator, requests := round.requests.holdBack block } := by
  obtain ⟨round', news, heq, hround', -⟩ := holdBack_eq e bound block
  rw [heq]
  exact hround' round h

theorem round_holdBack {e : Engine} {round : Round} (h : e.round = some round) (bound : PeerId)
    (block : FilteredBlock) : ∃ round', (e.holdBack bound block).round = some round' ∧ round'.syncPeer = round.syncPeer ∧
      round'.requests = round.requests.holdBack block := by
  obtain ⟨locator, hround⟩ := exists_round_holdBack h bound block
  exact ⟨_, hround, rfl, rfl⟩

/-- Besides the round, recording a block may ask its sender for transactions. -/
theorem recordBlock_eq (env : Outlook) (e : Engine) (round : Round) (peer : PeerId) (block : FilteredBlock)
    (txids : List Digest) :
    ∃ news, e.recordBlock env round peer block txids =
        { e with round := some (round.receiveBlock env.now block txids).1, commands := e.commands ++ news } ∧
      ∀ c ∈ news, ∃ wanted : List Digest, c = .send peer (.getData (wanted.map .tx)) := by
  simp only [recordBlock]
  split
  · exact ⟨[], by rw [List.append_nil], fun _ hmem => absurd hmem List.not_mem_nil⟩
  · exact ⟨[_], rfl, fun c hc => ⟨_, List.mem_singleton.1 hc⟩⟩

theorem roundOnly_recordBlock (env : Outlook) (e : Engine) (round : Round) (peer : PeerId) (block : FilteredBlock)
    (txids : List Digest) : RoundOnly e (e.recordBlock env round peer block txids) := by
  obtain ⟨news, heq, -⟩ := recordBlock_eq env e round peer block txids
  rw [heq]
  exact ⟨rfl, rfl, rfl, rfl, rfl⟩

theorem round_recordBlock (env : Outlook) (e : Engine) (round : Round) (peer : PeerId) (block : FilteredBlock)
    (txids : List Digest) :
    (e.recordBlock env round peer block txids).round = some (round.receiveBlock env.now block txids).1 := by
  obtain ⟨news, heq, -⟩ := recordBlock_eq env e round peer block txids
  rw [heq]

theorem syncPeer_receiveBlock (r : Round) (now : Nat) (block : FilteredBlock) (txids : List Digest) :
    (r.receiveBlock now block txids).1.syncPeer = r.syncPeer := rfl

theorem syncPeer_receiveTx (r : Round) (now : Nat) (tx : Transaction) : (r.receiveTx now tx).syncPeer = r.syncPeer := by
  unfold Round.receiveTx
  split <;> rfl

theorem requests_receiveTx (r : Round) (now : Nat) (tx : Transaction) :
    (r.receiveTx now tx).requests = (r.requests.receiveTx tx).1 := by
  unfold Round.receiveTx
  cases ht : r.requests.isAwaitedTx tx.txid with
  | false => rw [Requests.receiveTx_of_not_awaited ht]
  | true => rw [Requests.receiveTx_of_awaited ht]

theorem finishIfComplete_of_unfinished (env : Outlook) {e : Engine}
    (h : ∀ round, e.round = some round → round.requests.isFinished = false) : e.finishIfComplete env = (e, .ok ()) := by
  have hnone : e.round.filter (·.requests.isFinished) = none := by
    rw [Option.filter_eq_none_iff]
    intro round hround
    rw [h round hround]
    exact Bool.false_ne_true
  rw [finishIfComplete, hnone]

/-- What offering a transaction to the chain leaves. All that it can lead to is a new filter for everybody. -/
theorem offerUnconfirmed_fst (env : Outlook) (e : Engine) (tx : Transaction) :
    ∃ falsePositives filter txCache verdicts news,
      (e.offerUnconfirmed env tx).1 =
        { e with
          store := (e.store.commitUnconfirmed tx).1, falsePositives, filter, txCache, verdicts
          commands := e.commands ++ news } ∧
      ∀ c ∈ news, ∃ message, c = .broadcast message := by
  have hnone : ∀ c ∈ ([] : List Command), ∃ message, c = .broadcast message :=
    fun _ hmem => absurd hmem List.not_mem_nil
  unfold offerUnconfirmed
  split
  · rename_i store cause hcommit
    exact ⟨_, _, _, _, [], by rw [hcommit, List.append_nil], hnone⟩
  · rename_i store spurious hcommit
    cases spurious with
    | false => exact ⟨_, _, _, _, [], by rw [hcommit, List.append_nil]; rfl, hnone⟩
    | true =>
      simp only [if_true, countFalsePositive]
      split
      · exact ⟨_, _, _, _, [], by rw [hcommit, List.append_nil], hnone⟩
      · exact ⟨_, _, _, _, [_], by rw [hcommit]; rfl, fun c hc => ⟨_, List.mem_singleton.1 hc⟩⟩

/-- **Offering a transaction to the chain** leaves the round and the pool alone. -/
theorem frame_offerUnconfirmed (env : Outlook) (e : Engine) (tx : Transaction) :
    Frame e (e.offerUnconfirmed env tx).1 ∧ (e.offerUnconfirmed env tx).1.round = e.round := by
  obtain ⟨falsePositives, filter, txCache, verdicts, news, heq, -⟩ := offerUnconfirmed_fst env e tx
  rw [heq]
  exact ⟨⟨e.store.sameBlocks_commitUnconfirmed tx, rfl, rfl⟩, rfl⟩

theorem store_offerUnconfirmed (env : Outlook) (e : Engine) (tx : Transaction) :
    (e.offerUnconfirmed env tx).1.store = (e.store.commitUnconfirmed tx).1 := by
  obtain ⟨falsePositives, filter, txCache, verdicts, news, heq, -⟩ := offerUnconfirmed_fst env e tx
  rw [heq]

end Engine
end LightClient
