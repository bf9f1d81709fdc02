import LightClient.Proofs.Engine.Complete
import LightClient.Proofs.Engine.Retrying
/-!
# Which refusals the caller hears of

A round that the chain refuses is answered for if the call itself completed it, be it with the item that it delivers or,
as the upkeep does, by trying the round again (`Answered`). The items that were waiting get their turn afterwards, when
the answer is settled. If one of them completes a round, and the chain refuses it, the caller is not told
(`Reachable.surfaced`).

A refusal can be told from the rounds then: the chain refused a round in that turn exactly if a finished round is left
at its end and there was none at its beginning. For a finished round stays (`Handled.of_finished`), and it stays only
because it was refused (`Acted`).
-/
namespace LightClient
namespace Engine

variable {env : Outlook} {e e₁ e' : Engine}

/-! ## Answers -/

/-- What a part of a call says of the round that it handed to the chain, if any. -/
inductive Answered (e e' : Engine) : Except Fault Unit → Prop where
  | silent {answer} : e'.attempts = e.attempts → (∀ cause, answer ≠ .error (.commitFailed cause)) → Answered e e' answer
  | committed {round} : e'.attempts = e.attempts ++ [⟨round, .ok ()⟩] → Answered e e' (.ok ())
  | refused {round cause} : e'.attempts = e.attempts ++ [⟨round, .error cause⟩] →
      Answered e e' (.error (.commitFailed cause))

namespace Answered

variable {answer : Except Fault Unit}

theorem ok (h : e'.attempts = e.attempts) : Answered e e' (.ok ()) := .silent h fun _ hanswer => by cases hanswer

theorem congr (h : Answered e₁ e' answer) (hattempts : e₁.attempts = e.attempts) : Answered e e' answer := by
  cases h with
  | silent hsame hother => exact .silent (hsame.trans hattempts) hother
  | committed hnew => exact .committed (by rw [hnew, hattempts])
  | refused hnew => exact .refused (by rw [hnew, hattempts])

theorem trans (h : Answered e e₁ answer) (hattempts : e'.attempts = e₁.attempts) : Answered e e' answer := by
  cases h with
  | silent hsame hother => exact .silent (hattempts.trans hsame) hother
  | committed hnew => exact .committed (hattempts.trans hnew)
  | refused hnew => exact .refused (hattempts.trans hnew)

/-- **The answer reports a refusal exactly if there was one.** -/
theorem commitFailed_iff (h : Answered e e' answer) (cause : ChainError) :
    answer = .error (.commitFailed cause) ↔ ∃ round, e'.attempts = e.attempts ++ [⟨round, .error cause⟩] := by
  cases h with
  | silent hsame hother =>
    refine ⟨fun hanswer => absurd hanswer (hother cause), fun ⟨round, hnew⟩ => ?_⟩
    rw [hsame] at hnew
    cases List.append_right_eq_self.1 hnew.symm
  | committed hnew =>
    refine ⟨fun hanswer => (by cases hanswer), fun ⟨round, hnew'⟩ => ?_⟩
    cases List.append_cancel_left (hnew.symm.trans hnew')
  | refused hnew =>
    constructor
    · intro hanswer
      cases hanswer
      exact ⟨_, hnew⟩
    · rintro ⟨round, hnew'⟩
      cases List.append_cancel_left (hnew.symm.trans hnew')
      rfl

end Answered

theorem finishIfComplete_answered (env : Outlook) (e : Engine) :
    Answered e (e.finishIfComplete env).1 (e.finishIfComplete env).2 := by
  unfold finishIfComplete
  split
  · exact .ok rfl
  rename_i round _
  split
  · exact .refused rfl
  · rename_i store _
    have honward : ((((e.attempt round store (.ok ())).closeRound round).startSync env round.syncPeer).1).attempts =
        e.attempts ++ [⟨round, .ok ()⟩] := (roundOnly_startSync env _ _).attempts
    dsimp only
    split
    · exact .committed honward
    · exact .committed honward

theorem rejectNonSyncPeer_answered (env : Outlook) (e : Engine) (peer bound : PeerId) :
    Answered e (e.rejectNonSyncPeer env peer bound).1 (e.rejectNonSyncPeer env peer bound).2 :=
  .silent (roundOnly_restartWithout env e peer).attempts fun _ hanswer => by cases hanswer

theorem acceptBlock_answered (env : Outlook) (e : Engine) (peer : PeerId) (block : FilteredBlock)
    (txids : List Digest) :
    Answered e (e.acceptBlock env peer block txids).1 (e.acceptBlock env peer block txids).2 := by
  cases hround : e.round with
  | none =>
    rw [acceptBlock, hround]
    exact .ok rfl
  | some round =>
    rw [acceptBlock_of_round hround]
    exact (finishIfComplete_answered env _).congr (roundOnly_recordBlock env e round peer block txids).attempts

theorem placeInBulk_answered (env : Outlook) (e : Engine) (bound peer : PeerId) (block : FilteredBlock)
    (txids : List Digest) :
    Answered e (e.placeInBulk env bound peer block txids).1 (e.placeInBulk env bound peer block txids).2 := by
  simp only [placeInBulk]
  split
  · exact .ok rfl
  split
  · exact rejectNonSyncPeer_answered env e peer bound
  split
  · exact .ok (roundOnly_holdBack e bound block).attempts
  · exact acceptBlock_answered env e peer block txids

theorem placeAtTip_answered (env : Outlook) (e : Engine) (peer : PeerId) (block : FilteredBlock) (txids : List Digest) :
    Answered e (e.placeAtTip env peer block txids).1 (e.placeAtTip env peer block txids).2 := by
  simp only [placeAtTip]
  split
  · split
    · exact .ok rfl
    · exact .ok rfl
  split
  · exact .ok rfl
  split
  · exact .ok rfl
  · exact (acceptBlock_answered env _ peer block txids).congr rfl

theorem processBlock_answered (env : Outlook) (e : Engine) (peer : PeerId) (block : FilteredBlock) :
    Answered e (e.processBlock env peer block).1 (e.processBlock env peer block).2 := by
  simp only [processBlock]
  split
  · exact .silent rfl fun _ hanswer => by cases hanswer
  split
  · exact .silent rfl fun _ hanswer => by cases hanswer
  · exact .silent rfl fun _ hanswer => by cases hanswer
  split
  · exact placeInBulk_answered env e _ peer block _
  · exact placeAtTip_answered env e peer block _

theorem offerUnconfirmed_answered (env : Outlook) (e : Engine) (tx : Transaction) :
    Answered e (e.offerUnconfirmed env tx).1 (e.offerUnconfirmed env tx).2 := by
  refine .silent (frame_offerUnconfirmed env e tx).1.attempts fun cause hanswer => ?_
  unfold offerUnconfirmed at hanswer
  split at hanswer
  · cases hanswer
  · cases hanswer

theorem processTx_answered (env : Outlook) (e : Engine) (peer : PeerId) (tx : Transaction) :
    Answered e (e.processTx env peer tx).1 (e.processTx env peer tx).2 := by
  have haccept (e : Engine) : Answered e (e.acceptTx env tx).1 (e.acceptTx env tx).2 :=
    (finishIfComplete_answered env _).congr rfl
  have hoffer := offerUnconfirmed_answered env e tx
  simp only [processTx]
  split
  · rename_i bound _
    split
    · exact .ok rfl
    split
    · exact rejectNonSyncPeer_answered env e peer bound
    · exact haccept e
  split
  · split
    · exact haccept e
    · exact .silent rfl fun _ hanswer => by cases hanswer
  split
  · rename_i e₁ fault heq
    rw [heq] at hoffer
    exact hoffer
  · rename_i e₁ heq
    have hattempts := (frame_offerUnconfirmed env e tx).1.attempts
    rw [heq] at hattempts
    split
    · exact (haccept e₁).congr hattempts
    · exact .ok hattempts

/-- **A call answers for its opening.** -/
theorem call_answered (env : Outlook) (e : Engine) (call : Call) :
    Answered e (e.opening env call) (e.call env call).2 := by
  cases call with
  | deliver peer item =>
    cases item with
    | block block => exact processBlock_answered env e peer block
    | tx tx => exact processTx_answered env e peer tx
  | offer peer items =>
    have hanswer : (e.call env (.offer peer items)).2 = .ok () := by
      simp only [call, receiveInventory]
      split <;> rfl
    rw [hanswer]
    exact .ok (processOffer_offered env e peer _).roundOnly.attempts
  | lack peer items =>
    exact .silent (roundOnly_restartWithout env e peer).attempts fun _ hanswer => by cases hanswer
  | upkeep at_ =>
    refine (finishIfComplete_answered env e).trans ?_
    rw [opening, (roundOnly_startSync env _ none).attempts]
    exact (checkRound_reviewed env _ at_).roundOnly.attempts

/-! ## Items that were waiting -/

/-- A finished round is there. -/
def IsStuck (e : Engine) : Prop := ∃ round, e.round = some round ∧ round.requests.isFinished = true

/-- The attempts that were added; if one of them was refused, a finished round is there. -/
def RefusedStays (e e' : Engine) : Prop :=
  ∃ late, e'.attempts = e.attempts ++ late ∧ ((∃ a ∈ late, ∃ cause, a.result = .error cause) → e'.IsStuck)

namespace RefusedStays

theorem none (h : e'.attempts = e.attempts) : RefusedStays e e' :=
  ⟨[], by rw [h, List.append_nil], fun ⟨_, hmem, _⟩ => absurd hmem List.not_mem_nil⟩

theorem congr (h : RefusedStays e₁ e') (hattempts : e₁.attempts = e.attempts) : RefusedStays e e' := by
  rw [RefusedStays, ← hattempts]
  exact h

theorem same (h : RefusedStays e e₁) (hround : e'.round = e₁.round) (hattempts : e'.attempts = e₁.attempts) :
    RefusedStays e e' := by
  obtain ⟨late, hlate, hstuck⟩ := h
  refine ⟨late, hattempts.trans hlate, fun hrefused => ?_⟩
  rw [IsStuck, hround]
  exact hstuck hrefused

/-- Nothing was refused so far if no finished round is there. -/
theorem trans (h : RefusedStays e e₁) (hfree : ¬ e₁.IsStuck) (h' : RefusedStays e₁ e') : RefusedStays e e' := by
  obtain ⟨early, hearly, hstuck⟩ := h
  obtain ⟨late, hlate, hstuck'⟩ := h'
  refine ⟨early ++ late, by rw [hlate, hearly, List.append_assoc], fun ⟨a, hmem, hrefused⟩ => ?_⟩
  rcases List.mem_append.1 hmem with hmem | hmem
  · exact absurd (hstuck ⟨a, hmem, hrefused⟩) hfree
  · exact hstuck' ⟨a, hmem, hrefused⟩

theorem completion (h : Completion env e e') : RefusedStays e e' := by
  cases h with
  | unfinished _ => exact .none rfl
  | refused hround hfinished _ => exact ⟨[_], rfl, fun _ => ⟨_, hround, hfinished⟩⟩
  | committed _ _ _ honward _ =>
    refine ⟨[_], honward.roundOnly.attempts, fun ⟨a, hmem, cause, hrefused⟩ => ?_⟩
    rw [List.mem_singleton.1 hmem] at hrefused
    cases hrefused

end RefusedStays

/-- **What is refused as an item is handled** stays behind. -/
theorem Handled.refusedStays {peer : PeerId} {item : OrphanItem} (h : Handled env e peer item e') :
    RefusedStays e e' := by
  cases h with
  | dropped => exact .none rfl
  | pooled _ _ => exact .none rfl
  | rejected _ _ _ => exact .none (roundOnly_restartWithout env e peer).attempts
  | heldBack _ _ _ _ => exact .none (roundOnly_holdBack e peer _).attempts
  | recorded _ _ _ _ _ hcompletion | begun _ _ _ hcompletion =>
    exact (RefusedStays.completion hcompletion).congr (roundOnly_recordBlock env e _ peer _ _).attempts
  | offered _ => exact .none (frame_offerUnconfirmed env e _).1.attempts
  | fetched he₁ _ _ _ hcompletion =>
    exact (RefusedStays.completion hcompletion).congr (frame_of_fetched he₁).1.attempts

theorem persistent_refusedStays (env : Outlook) (before : Engine) :
    Persistent env (fun _ _ => True) fun e => Booked e ∧ RefusedStays before e :=
  (stable_booked.invariant.persistent env).along
    (fun {e _ _ _} _ hstays hhandled => by
      by_cases hstuck : e.IsStuck
      · obtain ⟨round, hround, hfinished⟩ := hstuck
        obtain ⟨hround', hattempts⟩ := hhandled.of_finished hround hfinished
        exact hstays.same (hround'.trans hround.symm) hattempts
      · exact hstays.trans hstuck hhandled.refusedStays)
    (fun {e round hash block} hbooked hstays hround hheld => by
      -- a round with a block held back is not finished
      have hfree : ¬ e.IsStuck := fun ⟨r, hr, hfinished⟩ => by
        cases hround.symm.trans hr
        rw [Requests.isFinished_of_awaited ((hbooked.round hround).heldBack hheld).2] at hfinished
        cases hfinished
      exact hstays.trans hfree (.none rfl))
    fun _ hstays => hstays.same rfl rfl

/-- **A round refused in the turn of the items that were waiting** is there at its end, and was not at its beginning. -/
theorem refused_in_turn_iff (env : Outlook) (hbooked : Booked e) (hacted : Acted e e) :
    ∃ late, (e.resolveOrphans env).attempts = e.attempts ++ late ∧
      ((∃ a ∈ late, ∃ cause, a.result = .error cause) ↔ ¬ e.IsStuck ∧ (e.resolveOrphans env).IsStuck) := by
  obtain ⟨-, late, hlate, hstays⟩ := (persistent_refusedStays env e).resolveOrphans ⟨hbooked, .none rfl⟩
  refine ⟨late, hlate, fun hrefused => ⟨?_, hstays hrefused⟩, ?_⟩
  · rintro ⟨round, hround, hfinished⟩
    obtain ⟨a, hmem, -⟩ := hrefused
    rw [(resolveOrphans_of_finished env hbooked hround hfinished).2] at hlate
    rw [List.append_right_eq_self.1 hlate.symm] at hmem
    cases hmem
  · rintro ⟨hfree, round, hround, hfinished⟩
    obtain ⟨-, hdone⟩ := (persistent_acted env e).resolveOrphans ⟨hbooked, hacted⟩
    obtain ⟨⟨cause, hlast⟩, hsince⟩ := hdone.refused hround hfinished
    have hlonger := hsince.resolve_left fun hround' => hfree ⟨round, hround', hfinished⟩
    have hne : late ≠ [] := by
      rintro rfl
      rw [hlate, List.append_nil] at hlonger
      exact Nat.lt_irrefl _ hlonger
    rw [hlate, List.getLast?_append_of_ne_nil _ hne] at hlast
    exact ⟨_, List.mem_of_getLast? hlast, cause, rfl⟩

/-- **Which refusals the caller hears of.** In every reachable state and for every call, the answer reports a refusal
exactly if the chain refused the round before the items that were waiting got their turn, in which none is reported. The
chain refused a round there exactly if a finished round is left that was not there before. An offer without a block
changes nothing. -/
theorem Reachable.surfaced {c : Chain} (he : Reachable c e) (env : Outlook) (call : Call) :
    (∀ cause, (e.call env call).2 = .error (.commitFailed cause) ↔
      ∃ round, (e.opening env call).attempts = e.attempts ++ [⟨round, .error cause⟩]) ∧
    (call.isVoid = false → ∃ late, (e.call env call).1.attempts = (e.opening env call).attempts ++ late ∧
      ((∃ a ∈ late, ∃ cause, a.result = .error cause) ↔
        ¬ (e.opening env call).IsStuck ∧ (e.call env call).1.IsStuck)) := by
  refine ⟨(call_answered env e call).commitFailed_iff, fun hcall => ?_⟩
  obtain ⟨hbooked, hacted⟩ := he.acted
  have hbooked' : Booked (e.opening env call) := stable_booked.invariant.opening hbooked env fun _ _ _ => trivial
  rw [call_fst, hcall]
  exact refused_in_turn_iff env hbooked' (hacted.opening env call).now

end Engine

namespace Sample

/-- The second of two blocks comes first and is held back. Then the disk is full. -/
def crossed : List Turn :=
  [.call outlook (.upkeep 0),
   .call outlook (.offer peer [.filteredBlock (child genesisHash 4).hash,
     .filteredBlock (child (child genesisHash 4).hash 2).hash]),
   .call outlook (.deliver peer (.block (child (child genesisHash 4).hash 2))), .outage 1]

/-- The first block lets go of the second. -/
def released : Call := .deliver peer (.block (child genesisHash 4))

theorem answer_crossed :
    ((engine.run crossed).call outlook released).2 = .ok () ∧
      (((engine.run crossed).opening outlook released).round.all fun r => !r.requests.isFinished) = true ∧
      (((engine.run crossed).call outlook released).1.round.any fun r => r.requests.isFinished) = true := by
  decide +kernel

end Sample

namespace Engine

open Sample

/-- The block held back completes the round, the chain refuses it, and the call answers that all is well. -/
theorem surfaced_crossed :
    Reachable (.ofGenesis genesis) (engine.run crossed) ∧ ((engine.run crossed).call outlook released).2 = .ok () ∧
      (∀ round cause, ((engine.run crossed).opening outlook released).attempts ≠
        (engine.run crossed).attempts ++ [⟨round, .error cause⟩]) ∧
      ∃ late, ((engine.run crossed).call outlook released).1.attempts =
          ((engine.run crossed).opening outlook released).attempts ++ late ∧
        ∃ a ∈ late, ∃ cause, a.result = .error cause := by
  have hreachable : Reachable (.ofGenesis genesis) (engine.run crossed) := ⟨engine, crossed, isNew_engine, rfl⟩
  obtain ⟨hanswer, hbefore, hafter⟩ := answer_crossed
  obtain ⟨hreported, hturn⟩ := hreachable.surfaced outlook released
  obtain ⟨late, hlate, hrefused⟩ := hturn rfl
  refine ⟨hreachable, hanswer, fun round cause hattempt => ?_, late, hlate, hrefused.2 ⟨?_, ?_⟩⟩
  · rw [(hreported cause).2 ⟨round, hattempt⟩] at hanswer
    cases hanswer
  · rintro ⟨round, hround, hfinished⟩
    rw [hround, Option.all_some, hfinished] at hbefore
    cases hbefore
  · exact (Option.any_eq_true _ _).1 hafter

end Engine
end LightClient
