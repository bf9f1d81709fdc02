import LightClient.Proofs.Engine.Verified
/-!
# A round is committed when it is complete

What is handed to the chain is a finished round, each block once that was asked for and each with just the transactions
that its proof names (`Requests.Complete`). Conversely, a round that is finished is handed to the chain in the very call
that finishes it: after the call it is there only if the chain refused it (`Acted`).

A round is finished by an item that it is given, and the check for completion comes right after each such item, from
wherever it came. So the second part is one about the handling of an item (`Handled.acted`). A block held back cannot be
let go of by a finished round, for it is still awaited.
-/
namespace LightClient
namespace Requests

/-- All that was asked for is in the batch, and each block has the transactions that its proof names. -/
structure Complete (r : Requests) : Prop where
  finished : r.isFinished = true
  nodup_requested : r.requested.Nodup
  hashes : (r.batch.map fun b => b.block.hash).Perm r.requested
  proved {b : ConfirmedBlock} : b ∈ r.batch → b.block.provedTxids = .ok (b.transactions.map Transaction.txid)

theorem txids_of_finished {r : Requests} (h : r.Consistent) (hfinished : r.isFinished = true) {hash : Digest}
    {a : Arrival} (hget : r.blocks.get? hash = some a) :
    (a.txids.filterMap r.transactions.get?).map Transaction.txid = a.txids := by
  have hsome : a.txids.filterMap (fun txid => (r.transactions.get? txid).map Transaction.txid) =
      a.txids.filterMap some := by
    refine List.filterMap_congr fun txid hmem => ?_
    obtain ⟨tx, htx, htxid⟩ := h.get?_tx_of_finished hfinished hget hmem
    rw [htx, Option.map_some, htxid]
  rw [List.map_filterMap, hsome, List.filterMap_some]

/-- **A finished round is complete.** -/
theorem RestsOn.complete {r : Requests} {c : Chain} (h : r.RestsOn c) (hproven : r.Proven)
    (hfinished : r.isFinished = true) : r.Complete where
  finished := hfinished
  nodup_requested := h.consistent.nodup_requested
  hashes := by
    have hall : r.requested.filter r.hasBlock = r.requested :=
      List.filter_eq_self.2 fun _ hmem => h.consistent.hasBlock_of_finished hfinished hmem
    rw [hashes_batch h.consistent h.forest]
    refine ((ordered_perm h.consistent h.forest).map Prod.fst).trans ?_
    rw [arrivals_keys, hall]
  proved hb := by
    obtain ⟨x, hx, rfl⟩ := List.mem_map.1 hb
    have hget := get?_of_mem_ordered hx
    rw [txids_of_finished h.consistent hfinished hget]
    exact (hproven _ _ hget).2

end Requests

namespace Engine

/-! ## What was handed to the chain -/

/-- Every round that was handed to the chain was complete. -/
structure Thorough (e : Engine) : Prop where
  proven : Holds Chain.WellFormed (fun c r => r.RestsOn c ∧ r.Proven) e
  attempts {a : Attempt} : a ∈ e.attempts → a.round.requests.Complete

namespace Thorough

theorem attempt {e : Engine} (h : Thorough e) {round : Round} (hround : e.round = some round)
    (hfinished : round.requests.isFinished = true) {result : Except ChainError Unit} {a : Attempt}
    (ha : a ∈ e.attempts ++ [⟨round, result⟩]) : a.round.requests.Complete := by
  rcases List.mem_append.1 ha with ha | ha
  · exact h.attempts ha
  · obtain ⟨hrests, hproven⟩ := h.proven.round hround
    rw [List.mem_singleton.1 ha]
    exact hrests.complete hproven hfinished

theorem move {given : PeerId → OrphanItem → Prop} {e e' : Engine} (h : Thorough e) (hmove : Move given e e') :
    Thorough e' := by
  refine ⟨stable_proven.move h.proven hmove, fun ha => ?_⟩
  cases hmove with
  | aside _ _ hattempts _ =>
    rw [hattempts] at ha
    exact h.attempts ha
  | anew hframe _ | tip hframe _ _ _ | within hframe _ _ _ _ =>
    rw [hframe.attempts] at ha
    exact h.attempts ha
  | refused hframe hround hfinished _ =>
    rw [hframe.attempts] at ha
    exact h.attempt hround hfinished ha
  | committed hround hfinished _ _ _ hattempts _ =>
    rw [hattempts] at ha
    exact h.attempt hround hfinished ha

theorem invariant : Invariant (fun _ _ => True) Thorough := ⟨move, fun _ _ _ _ => trivial, fun _ _ => trivial⟩

end Thorough

theorem Reachable.thorough {c : Chain} (hc : c.Reachable) {e : Engine} (he : Reachable c e) : Thorough e := by
  refine he.invariant Thorough.invariant fun e hnew => ?_
  refine ⟨stable_proven.ofNew hc.wellFormed hnew, fun ha => ?_⟩
  obtain ⟨-, -, hattempts, -⟩ := hnew.eq
  rw [hattempts] at ha
  cases ha

/-! ## What is done about a finished round -/

/-- A finished round was refused when it was last handed to the chain, and that was since `before` unless the round was
there already. -/
structure Acted (before e : Engine) : Prop where
  attempts : before.attempts <+: e.attempts
  refused {round : Round} : e.round = some round → round.requests.isFinished = true →
    (∃ cause, e.attempts.getLast? = some ⟨round, .error cause⟩) ∧
      (before.round = some round ∨ before.attempts.length < e.attempts.length)

namespace Acted

variable {before e e' : Engine}

theorem now (h : Acted before e) : Acted e e :=
  ⟨List.prefix_rfl, fun hround hfinished => ⟨(h.refused hround hfinished).1, Or.inl hround⟩⟩

theorem same (h : Acted before e) (hround : e'.round = e.round) (hattempts : e'.attempts = e.attempts) :
    Acted before e' := by
  refine ⟨?_, fun hr hfinished => ?_⟩
  · rw [hattempts]
    exact h.attempts
  · rw [hattempts]
    exact h.refused (hround.symm.trans hr) hfinished

theorem unfinished (h : Acted before e) (hattempts : e'.attempts = e.attempts)
    (hunfinished : ∀ round, e'.round = some round → round.requests.isFinished = false) : Acted before e' := by
  refine ⟨?_, fun hr hfinished => ?_⟩
  · rw [hattempts]
    exact h.attempts
  · rw [hunfinished _ hr] at hfinished
    cases hfinished

/-- A round that asks for nothing is not finished. -/
theorem onward (h : Acted before e) {env : Outlook} (hnone : e.round = none) (honward : Onward env e e') :
    Acted before e' := by
  refine h.unfinished honward.roundOnly.attempts fun round hround => ?_
  rw [honward.fresh hnone hround]
  rfl

/-- **The check for completion acts on a finished round**, whatever was there before. -/
theorem completion (hgrown : before.attempts <+: e.attempts) {env : Outlook} (hcompletion : Completion env e e') :
    Acted before e' := by
  cases hcompletion with
  | unfinished hunfinished =>
    refine ⟨hgrown, fun hr hfinished => ?_⟩
    rw [hunfinished _ hr] at hfinished
    cases hfinished
  | refused hround _ _ =>
    refine ⟨hgrown.trans (List.prefix_append _ _), fun hr _ => ?_⟩
    cases hround.symm.trans hr
    refine ⟨⟨_, List.getLast?_concat⟩, Or.inr ?_⟩
    exact Nat.lt_of_le_of_lt hgrown.length_le (by simp [attempt])
  | committed hround _ _ honward _ =>
    have hattempts := honward.roundOnly.attempts
    refine ⟨?_, fun hr hfinished => ?_⟩
    · rw [hattempts]
      exact hgrown.trans (List.prefix_append _ _)
    · rw [honward.fresh rfl hr] at hfinished
      cases hfinished

theorem restartWithout (h : Acted before e) (env : Outlook) (offender : PeerId) :
    Acted before (e.restartWithout env offender) :=
  have hdrop : Acted before (e.drop env offender) := h.unfinished rfl fun _ hr => by cases hr
  hdrop.onward rfl (restartWithout_onward env e offender)

end Acted

/-- **A finished round is acted on as each item is handled.** -/
theorem Handled.acted {env : Outlook} {before e e' : Engine} {peer : PeerId} {item : OrphanItem}
    (h : Handled env e peer item e') (ha : Acted before e) : Acted before e' := by
  cases h with
  | dropped => exact ha
  | pooled _ _ => exact ha.same rfl rfl
  | rejected _ _ _ => exact ha.restartWithout env peer
  | heldBack hround _ hawaited _ =>
    obtain ⟨round', hround', -, hrequests⟩ := round_holdBack hround peer _
    refine ha.unfinished (roundOnly_holdBack e peer _).attempts fun r hr => ?_
    cases hround'.symm.trans hr
    rw [hrequests, Requests.isFinished_holdBack]
    exact Requests.isFinished_of_awaited hawaited
  | recorded _ _ _ _ _ hcompletion | begun _ _ _ hcompletion =>
    refine Acted.completion ?_ hcompletion
    rw [(roundOnly_recordBlock env e _ peer _ _).attempts]
    exact ha.attempts
  | offered _ =>
    obtain ⟨hframe, hround⟩ := frame_offerUnconfirmed env e _
    exact ha.same hround hframe.attempts
  | fetched he₁ _ _ _ hcompletion =>
    refine Acted.completion ?_ hcompletion
    have hattempts := (frame_of_fetched he₁).1.attempts
    exact hattempts.symm ▸ ha.attempts

theorem persistent_acted (env : Outlook) (before : Engine) :
    Persistent env (fun _ _ => True) fun e => Booked e ∧ Acted before e :=
  (stable_booked.invariant.persistent env).along (fun _ ha hhandled => hhandled.acted ha)
    (fun hbooked ha hround hheld => ha.unfinished rfl fun r hr => by
      cases hr
      exact Requests.isFinished_of_awaited ((hbooked.round hround).heldBack hheld).2)
    fun _ ha => ha.same rfl rfl

/-! ## Calls -/

namespace Acted

variable {before e : Engine}

theorem offered {e' : Engine} {peer : PeerId} (h : Acted before e) (hoffered : Offered e peer e') : Acted before e' := by
  cases hoffered with
  | ignored => exact h
  | requested message _ => exact h.same rfl rfl
  | emptied _ => exact h.unfinished rfl fun _ hr => by cases hr
  | extended message _ _ _ _ hnew hrequests _ =>
    refine h.unfinished rfl fun r hr => ?_
    cases hr
    rw [hrequests]
    exact Requests.isFinished_track hnew

theorem lasting (env : Outlook) (before : Engine) : Lasting env (fun _ _ => True) (Acted before) where
  handled h _ hhandled := hhandled.acted h
  processOffer peer hashes h := h.offered (processOffer_offered env _ peer hashes)
  completion h hcompletion := completion h.attempts hcompletion
  restartWithout offender h := h.restartWithout env offender
  abandon h _ := h.unfinished rfl fun _ hr => by cases hr
  expire _ h := h.same rfl rfl
  onward h hnone honward := h.onward hnone honward

theorem opening (h : Acted before e) (env : Outlook) (call : Call) : Acted before (e.opening env call) :=
  (lasting env before).opening h fun _ _ _ => trivial

theorem call (hbooked : Booked e) (h : Acted e e) (env : Outlook) (call : Call) : Acted e (e.call env call).1 :=
  have hopening : Booked (e.opening env call) := stable_booked.invariant.opening hbooked env fun _ _ _ => trivial
  ((persistent_acted env e).call ⟨hbooked, h⟩ ⟨hopening, h.opening env call⟩).2

theorem turn (hbooked : Booked e) (h : Acted e e) (t : Turn) : Acted (e.turn t) (e.turn t) := by
  have hrest {e' : Engine} (hround : e'.round = e.round) (hattempts : e'.attempts = e.attempts) : Acted e' e' :=
    (h.same hround hattempts).now
  cases t with
  | call env c => exact (h.call hbooked env c).now
  | drain | reload _ | watch _ | submit _ | outage _ | close => exact hrest rfl rfl

end Acted

theorem Reachable.acted {c : Chain} {e : Engine} (he : Reachable c e) : Booked e ∧ Acted e e := by
  obtain ⟨e₀, turns, hnew, rfl⟩ := he
  refine run_induction (P := fun _ e => Booked e ∧ Acted e e) ?_ (fun _ _ t h => ?_) turns
  · obtain ⟨-, hround, -, -⟩ := hnew.eq
    refine ⟨stable_booked.ofNew trivial hnew, List.prefix_rfl, fun hr => ?_⟩
    rw [hround] at hr
    cases hr
  · exact ⟨stable_booked.invariant.turn h.1 fun _ _ _ _ => trivial, h.2.turn h.1 t⟩

/-- **A round is committed exactly when it is complete.** In every run, each round that was handed to the chain was
complete; and after each call a round that is finished is there only if the chain refused it when it was last handed
over, in the same call if that call finished it. -/
theorem Reachable.committed_complete {c : Chain} (hc : c.Reachable) {e : Engine} (he : Reachable c e) :
    (∀ a ∈ e.attempts, a.round.requests.Complete) ∧ ∀ env call, Acted e (e.call env call).1 :=
  ⟨fun _ ha => (he.thorough hc).attempts ha, fun env call => he.acted.2.call he.acted.1 env call⟩

open Sample

/-- The second block of the fork finishes the round, which is handed to the chain at once, and refused. -/
theorem committed_complete_fork :
    Chain.Reachable (.ofGenesis genesis) ∧ Reachable (.ofGenesis genesis) (engine.run fork) ∧
      ∃ round cause, (engine.run fork).attempts.getLast? = some ⟨round, .error cause⟩ ∧ round.requests.Complete ∧
        round.requests.blocks.size = 2 := by
  have hreachable (turns : List Turn) : Reachable (.ofGenesis genesis) (engine.run turns) :=
    ⟨engine, turns, isNew_engine, rfl⟩
  have hcomplete (turns : List Turn) := Reachable.committed_complete (.genesis genesis) (hreachable turns)
  obtain ⟨round, hround, hfacts⟩ := (Option.any_eq_true _ _).1 round_fork
  simp only [Bool.and_eq_true, decide_eq_true_eq] at hfacts
  obtain ⟨⟨⟨⟨-, hfinished⟩, hsize⟩, -⟩, -⟩ := hfacts
  have hlast : fork.dropLast ++ [.call outlook (.deliver peer (.block (child genesisHash 7)))] = fork := rfl
  have hacted : Acted (engine.run fork.dropLast) (engine.run fork) := by
    rw [← hlast, run_concat, hlast, turn_call]
    exact (hcomplete fork.dropLast).2 _ _
  obtain ⟨⟨cause, hattempt⟩, -⟩ := hacted.refused hround hfinished
  exact ⟨.genesis genesis, hreachable fork, round, cause, hattempt,
    (hcomplete fork).1 _ (List.mem_of_getLast? hattempt), hsize⟩

end Engine
end LightClient
