import LightClient.Proofs.Chain.Branch
import LightClient.Proofs.Engine.Faults
import LightClient.Proofs.Engine.Verified
/-!
# What the cache remembers

Outside a bulk round a transaction that is in the cache is refused, unless it is awaited. It got there when the chain
answered for it or when a block brought it, and nothing takes it out when the chain changes its mind.

Two invariants say how far the cache can be trusted. The batches that were committed build the chain (`Grown`). Each
transaction in the cache has a verdict, and if the latest one is not that the filter was mistaken, then it is
unconfirmed or one of these batches brought it (`Judged`). So the chain holds it unless a reorganisation has lost it
(`Reachable.remembered`): then it is refused although the chain does not have it.
-/
namespace LightClient

def Chain.holds (c : Chain) (txid : Digest) : Bool := c.confirmed.contains txid || c.unconfirmed.contains txid

namespace Engine

open Chain (txidsOf txidsOf_append Lost Built)

/-! ## The batches -/

/-- The batches that the chain took from the engine, in order. -/
def batches (e : Engine) : List (List ConfirmedBlock) :=
  (e.attempts.filter fun a => a.result.isOk).map fun a => a.round.requests.batch

theorem batches_congr {e e' : Engine} (h : e'.attempts = e.attempts) : e'.batches = e.batches := by
  rw [batches, h, batches]

theorem batches_refused {e e' : Engine} {round : Round} {cause : ChainError}
    (h : e'.attempts = e.attempts ++ [⟨round, .error cause⟩]) : e'.batches = e.batches := by
  rw [batches, h, List.filter_append, List.filter_cons_of_neg Bool.false_ne_true, List.filter_nil, List.append_nil,
    batches]

theorem batches_committed {e e' : Engine} {round : Round} (h : e'.attempts = e.attempts ++ [⟨round, .ok ()⟩]) :
    e'.batches = e.batches ++ [round.requests.batch] := by
  rw [batches, h, List.filter_append, List.filter_cons_of_pos rfl, List.filter_nil, List.map_append, batches]
  rfl

/-- The chain came about from another one by the batches that the engine committed. -/
structure Grown (start : Chain) (e : Engine) : Prop where
  orderly : Orderly e
  built : Built start e.batches e.chain

namespace Grown

variable {start : Chain}

theorem move {given : PeerId → OrphanItem → Prop} {e e' : Engine} (h : Grown start e) (hmove : Move given e e') :
    Grown start e' := by
  refine ⟨stable_orderly.move h.orderly hmove, ?_⟩
  cases hmove with
  | aside hblocks _ hattempts _ =>
    rw [batches_congr hattempts]
    exact h.built.congr hblocks
  | anew hframe _ | tip hframe _ _ _ | within hframe _ _ _ _ =>
    rw [batches_congr hframe.attempts]
    exact h.built.congr hframe.blocks
  | refused hframe _ _ _ =>
    rw [batches_refused hframe.attempts]
    exact h.built.congr hframe.blocks
  | committed hround _ hcommit hblocks _ hattempts _ =>
    have hrests := h.orderly.round hround
    have hnodup := Requests.nodup_batch hrests.consistent hrests.forest
    rw [batches_committed hattempts]
    exact (h.built.commit hnodup hcommit).congr hblocks

theorem invariant : Invariant (fun _ _ => True) (Grown start) := ⟨move, fun _ _ _ _ => trivial, fun _ _ => trivial⟩

end Grown

theorem Reachable.grown {c : Chain} (hc : c.Reachable) {e : Engine} (he : Reachable c e) : Grown c e := by
  refine he.invariant Grown.invariant fun e hnew => ⟨stable_orderly.ofNew hc.wellFormed hnew, ?_⟩
  obtain ⟨hchain, -, hattempts, -⟩ := hnew.eq
  rw [hchain, batches, hattempts]
  exact .refl hc.wellFormed

/-! ## Verdicts -/

/-- What is in the cache has a verdict, and what was no mistake of the filter was put somewhere. -/
structure Judged (e : Engine) : Prop where
  cached {txid : Digest} : e.txCache.contains txid = true → ∃ spurious, e.verdicts.get? txid = some spurious
  kept {txid : Digest} : e.verdicts.get? txid = some false →
    e.chain.unconfirmed.contains txid = true ∨ txid ∈ txidsOf e.batches.flatten

/-- What an engine becomes when the chain is asked about a transaction. -/
structure Submitted (e : Engine) (tx : Transaction) (e' : Engine) : Prop where
  store : e'.store = (e.store.commitUnconfirmed tx).1
  attempts : e'.attempts = e.attempts
  verdicts : e'.verdicts =
    match (e.store.commitUnconfirmed tx).2 with
    | .ok spurious => e.verdicts.insert tx.txid spurious
    | .error _ => e.verdicts
  cached {txid : Digest} : e'.txCache.contains txid = true →
    e.txCache.contains txid = true ∨ ∃ spurious, e'.verdicts.get? txid = some spurious

theorem roundOnly_countFalsePositive (env : Outlook) (e : Engine) : RoundOnly e (e.countFalsePositive env) := by
  unfold countFalsePositive
  split
  · exact ⟨rfl, rfl, rfl, rfl, rfl⟩
  · exact ⟨rfl, rfl, rfl, rfl, rfl⟩

theorem submitted_offerUnconfirmed (env : Outlook) (e : Engine) (tx : Transaction) :
    Submitted e tx (e.offerUnconfirmed env tx).1 := by
  simp only [offerUnconfirmed]
  split
  · rename_i store cause hresult
    exact ⟨by rw [hresult], rfl, by rw [hresult], Or.inl⟩
  · rename_i store spurious hresult
    have hcounted : RoundOnly { e with store }
        (if spurious then ({ e with store } : Engine).countFalsePositive env else { e with store }) := by
      split
      · exact roundOnly_countFalsePositive env _
      · exact .refl _
    refine ⟨by rw [hresult]; exact hcounted.store, hcounted.attempts, ?_, fun {txid} hcached => ?_⟩
    · rw [hresult, hcounted.verdicts]
    · rw [hcounted.txCache] at hcached
      rcases Recent.contains_insert hcached with rfl | hbefore
      · exact Or.inr ⟨spurious, by rw [Table.get?_insert, if_pos rfl]⟩
      · exact Or.inl hbefore

namespace Judged

variable {e e' : Engine}

theorem congr (h : Judged e) (hunconfirmed : e'.chain.unconfirmed = e.chain.unconfirmed)
    (hattempts : e'.attempts = e.attempts) (hcache : e'.txCache = e.txCache) (hverdicts : e'.verdicts = e.verdicts) :
    Judged e' where
  cached hcached := by
    rw [hcache] at hcached
    rw [hverdicts]
    exact h.cached hcached
  kept hkept := by
    rw [hverdicts] at hkept
    rw [hunconfirmed, batches_congr hattempts]
    exact h.kept hkept

theorem roundOnly (h : Judged e) (hsame : RoundOnly e e') : Judged e' :=
  h.congr (by rw [chain, hsame.store]; rfl) hsame.attempts hsame.txCache hsame.verdicts

/-- **The chain's answer** comes with a place among the unconfirmed, unless the filter was mistaken. -/
theorem submitted (h : Judged e) {tx : Transaction} (hsubmitted : Submitted e tx e') : Judged e' := by
  have hpool (txid : Digest) : e'.chain.unconfirmed.contains txid = true ↔
      e.chain.unconfirmed.contains txid = true ∨ (e.store.commitUnconfirmed tx).2 = .ok false ∧ tx.txid = txid := by
    rw [chain, hsubmitted.store]
    exact e.store.contains_unconfirmed_commitUnconfirmed tx txid
  have hbatches := batches_congr hsubmitted.attempts
  have hverdicts := hsubmitted.verdicts
  constructor
  case cached =>
    intro txid hcached
    rcases hsubmitted.cached hcached with hbefore | hnow
    · obtain ⟨spurious, hverdict⟩ := h.cached hbefore
      rw [hverdicts]
      split
      · rw [Table.get?_insert]
        split
        · exact ⟨_, rfl⟩
        · exact ⟨spurious, hverdict⟩
      · exact ⟨spurious, hverdict⟩
    · exact hnow
  case kept =>
    intro txid hverdict
    rw [hpool, hbatches, or_right_comm]
    rw [hverdicts] at hverdict
    split at hverdict
    · rename_i spurious hresult
      rw [hresult]
      obtain ⟨rfl, rfl⟩ | ⟨-, hverdict⟩ := Table.get?_insert_eq_some.1 hverdict
      · exact Or.inr ⟨rfl, rfl⟩
      · exact Or.inl (h.kept hverdict)
    · exact Or.inl (h.kept hverdict)

/-- **What a batch brings** is settled with it, and what it takes out of the unconfirmed it brings. -/
theorem completion (h : Judged e) {env : Outlook} (hcompletion : Completion env e e') : Judged e' := by
  cases hcompletion with
  | unfinished _ => exact h
  | refused hround hfinished hcommit =>
    rename_i round store cause
    have hchain : store.chain = e.chain := Store.commit_eq_error hcommit
    refine ⟨h.cached, fun hverdict => ?_⟩
    rw [batches_refused rfl, show (e.attempt round store (.error cause)).chain = store.chain from rfl, hchain]
    exact h.kept hverdict
  | committed hround hfinished hcommit honward _ =>
    rename_i round store _
    refine roundOnly ?_ honward.roundOnly
    obtain ⟨events, hcommit⟩ := Store.commit_eq_ok hcommit
    obtain ⟨height, hstore⟩ := Chain.reorganise_of_commit hcommit
    have hpool (txid : Digest) : store.chain.unconfirmed.contains txid = true ↔
        e.chain.unconfirmed.contains txid = true ∧ txid ∉ txidsOf round.requests.batch := by
      rw [hstore]
      exact Chain.contains_unconfirmed_reorganise ..
    have hverdicts (txid : Digest) : ((e.attempt round store (.ok ())).closeRound round).verdicts.get? txid =
        if txid ∈ txidsOf round.requests.batch then some false else e.verdicts.get? txid :=
      Table.get?_foldl_insert_const ..
    constructor
    case cached =>
      intro txid hcached
      rw [hverdicts]
      split
      · exact ⟨false, rfl⟩
      · rename_i hnot
        exact h.cached ((Recent.contains_foldl_insert _ hcached).resolve_left hnot)
    case kept =>
      intro txid hverdict
      rw [batches_committed rfl, List.flatten_concat, txidsOf_append, List.mem_append]
      by_cases hbatch : txid ∈ txidsOf round.requests.batch
      · exact Or.inr (Or.inr hbatch)
      · rw [hverdicts, if_neg hbatch] at hverdict
        exact (h.kept hverdict).imp (fun hpooled => (hpool txid).2 ⟨hpooled, hbatch⟩) Or.inl

end Judged

theorem Handled.judged {env : Outlook} {e e' : Engine} {peer : PeerId} {item : OrphanItem}
    (hhandled : Handled env e peer item e') (h : Judged e) : Judged e' := by
  cases hhandled with
  | dropped => exact h
  | pooled _ _ => exact h.congr rfl rfl rfl rfl
  | rejected _ _ _ => exact h.roundOnly (roundOnly_restartWithout env e peer)
  | heldBack _ _ _ _ => exact h.roundOnly (roundOnly_holdBack e peer _)
  | recorded _ _ _ _ _ hcompletion | begun _ _ _ hcompletion =>
    exact (h.roundOnly (roundOnly_recordBlock env e _ peer _ _)).completion hcompletion
  | offered _ => exact h.submitted (submitted_offerUnconfirmed env e _)
  | fetched he₁ hround hpeer hawaited hcompletion =>
    rename_i tx e₁ round
    have h₁ : Judged e₁ := by
      obtain rfl | ⟨-, rfl⟩ := he₁
      · exact h
      · exact h.submitted (submitted_offerUnconfirmed env e tx)
    have hrecorded : Judged { e₁ with round := some (round.receiveTx env.now tx) } := h₁.congr rfl rfl rfl rfl
    exact hrecorded.completion hcompletion

theorem persistent_judged (env : Outlook) : Persistent env (fun _ _ => True) Judged where
  handled h _ hhandled := hhandled.judged h
  held _ _ _ _ := trivial
  pooled _ _ := trivial
  release h _ _ := h.congr rfl rfl rfl rfl
  unpool _ h := h.congr rfl rfl rfl rfl
  retain _ h := h.congr rfl rfl rfl rfl

namespace Judged

variable {e : Engine}

theorem lasting (env : Outlook) : Lasting env (fun _ _ => True) Judged where
  handled h _ hhandled := hhandled.judged h
  processOffer peer hashes h := h.roundOnly (processOffer_offered env _ peer hashes).roundOnly
  completion h hcompletion := h.completion hcompletion
  restartWithout offender h := h.roundOnly (roundOnly_restartWithout env _ offender)
  abandon h _ := h.congr rfl rfl rfl rfl
  expire _ h := h.congr rfl rfl rfl rfl
  onward h _ honward := h.roundOnly honward.roundOnly

theorem call (h : Judged e) (env : Outlook) (call : Call) : Judged (e.call env call).1 :=
  (persistent_judged env).call h ((lasting env).opening h fun _ _ _ => trivial)

theorem turn (h : Judged e) (t : Turn) : Judged (e.turn t) := by
  cases t with
  | call env c => exact h.call env c
  | submit tx => exact h.submitted ⟨rfl, rfl, rfl, Or.inl⟩
  | drain | reload _ | watch _ | outage _ | close => exact h.congr rfl rfl rfl rfl

theorem ofNew {c : Chain} (hnew : IsNew c e) : Judged e := by
  obtain ⟨settings, store, filter, -, he⟩ := hnew
  obtain ⟨patience, -, rfl⟩ := Option.map_eq_some_iff.1 he
  exact ⟨(fun hcached => by cases hcached), fun hverdict => by cases hverdict⟩

end Judged

theorem Reachable.judged {c : Chain} {e : Engine} (he : Reachable c e) : Judged e := by
  obtain ⟨e₀, turns, hnew, rfl⟩ := he
  exact run_induction (P := fun _ e => Judged e) (.ofNew hnew) (fun _ _ t h => h.turn t) turns

/-! ## Refusals -/

/-- **When a transaction is refused as a duplicate.** -/
theorem alreadyCached_iff (env : Outlook) (e : Engine) (peer : PeerId) (tx : Transaction) (txid : Digest) :
    (e.receiveTx env peer tx).2 = .error (.alreadyCached txid) ↔
      txid = tx.txid ∧ e.syncPeer = none ∧ e.txCache.contains txid = true ∧ e.isAwaitedTx txid = false := by
  change (e.processTx env peer tx).2 = _ ↔ _
  constructor
  · intro hrefused
    have hfaulted := processTx_faulted hrefused
    generalize (e.processTx env peer tx).1 = e' at hfaulted
    cases hfaulted with
    | cached hidle hcached hnot => exact ⟨rfl, hidle, hcached, hnot⟩
  · rintro ⟨rfl, hidle, hcached, hnot⟩
    simp only [processTx, hidle, hcached, hnot, if_true, Bool.false_eq_true, if_false]

/-! ## What the chain does not have -/

/-- **What was no mistake of the filter** is held by the chain unless it was lost and is not unconfirmed again. -/
theorem Judged.not_holds_iff {start : Chain} {e : Engine} (h : Judged e) (hgrown : Grown start e) {txid : Digest}
    (hverdict : e.verdicts.get? txid = some false) :
    e.chain.holds txid = false ↔ Lost e.batches txid ∧ e.chain.unconfirmed.contains txid = false := by
  rw [Chain.holds, Bool.or_eq_false_iff]
  refine and_congr_left fun hpool => ?_
  have hbrought : txid ∈ txidsOf e.batches.flatten := (h.kept hverdict).resolve_left (Bool.not_eq_true _ ▸ hpool)
  rw [← Bool.not_eq_true, hgrown.built.confirmed hbrought, not_not]

/-- **What the cache remembers.** In every reachable state each transaction in the cache has a verdict. If the latest
one is that the filter was not mistaken, then the chain does not hold the transaction exactly if a reorganisation lost
it and it is not unconfirmed again. A transaction in the cache is refused outside a bulk round unless it is awaited. -/
theorem Reachable.remembered {c : Chain} (hc : c.Reachable) {e : Engine} (he : Reachable c e) :
    (∀ txid, e.txCache.contains txid = true → ∃ spurious, e.verdicts.get? txid = some spurious ∧
      (spurious = false →
        (e.chain.holds txid = false ↔ Lost e.batches txid ∧ e.chain.unconfirmed.contains txid = false))) ∧
    ∀ env peer tx txid, (e.receiveTx env peer tx).2 = .error (.alreadyCached txid) ↔
      txid = tx.txid ∧ e.syncPeer = none ∧ e.txCache.contains txid = true ∧ e.isAwaitedTx txid = false := by
  refine ⟨fun txid hcached => ?_, fun env peer tx txid => alreadyCached_iff env e peer tx txid⟩
  obtain ⟨spurious, hverdict⟩ := he.judged.cached hcached
  refine ⟨spurious, hverdict, ?_⟩
  rintro rfl
  exact he.judged.not_holds_iff (he.grown hc) hverdict

end Engine

namespace Sample

/-- The payment is committed with its block, and a bulk round brings another block in place of this one. -/
def forkAway : List Turn :=
  payTurns ++
    [.call outlook (.upkeep 0), .call outlook (.offer peer [.filteredBlock (child genesisHash 4).hash]),
      .call ⟨0, []⟩ (.deliver peer (.block (child genesisHash 4)))]

theorem cache_forkAway :
    (engine.run forkAway).verdicts.get? payment.txid = some false ∧
      (engine.run forkAway).txCache.contains payment.txid = true ∧
      (engine.run forkAway).chain.holds payment.txid = false ∧
      (engine.run forkAway).syncPeer = none ∧ (engine.run forkAway).isAwaitedTx payment.txid = false := by
  decide +kernel

end Sample

namespace Engine

open Sample

/-- The payment is lost, and refused whenever it is delivered again. -/
theorem remembered_forkAway :
    Chain.Reachable (.ofGenesis genesis) ∧ Reachable (.ofGenesis genesis) (engine.run forkAway) ∧
      (engine.run forkAway).txCache.contains payment.txid = true ∧
      (engine.run forkAway).verdicts.get? payment.txid = some false ∧
      (engine.run forkAway).chain.holds payment.txid = false ∧ Chain.Lost (engine.run forkAway).batches payment.txid ∧
      ∀ env, ((engine.run forkAway).receiveTx env peer payment).2 = .error (.alreadyCached payment.txid) := by
  have hreachable : Reachable (.ofGenesis genesis) (engine.run forkAway) := ⟨engine, forkAway, isNew_engine, rfl⟩
  obtain ⟨hverdict, hcached, hgone, hidle, hnot⟩ := cache_forkAway
  obtain ⟨hremembered, hrefused⟩ := Reachable.remembered (.genesis genesis) hreachable
  obtain ⟨spurious, hget, hholds⟩ := hremembered _ hcached
  obtain rfl : spurious = false := Option.some.inj (hget.symm.trans hverdict)
  exact ⟨.genesis genesis, hreachable, hcached, hverdict, hgone, ((hholds rfl).1 hgone).1, fun env =>
    (hrefused env peer payment payment.txid).2 ⟨rfl, hidle, hcached, hnot⟩⟩

end Engine
end LightClient
