import LightClient.Proofs.Engine.Answers
import LightClient.Proofs.Engine.Faults
/-!
# Who is dropped for what was given

What a peer delivers or offers can cost nobody but that peer its connection, and it does so exactly if the answer says
that the peer broke the protocol (`process_drops`).

The items that were waiting get their turn in every call. Each step of that turn (`Feeds`) drops nobody, and a round
that is there before the step is there after it, or the chain took it meanwhile (`GoesOn`). A round that began between
two steps is no exception, for the statement is about every single step (`Reachable.drops_only_sender`).
-/
namespace LightClient

/-- The peer that the command drops. -/
def Command.dropped? : Command → Option PeerId
  | .disconnect peer => some peer
  | .bind _ | .send _ _ | .broadcast _ | .announce _ => none

/-- The peer that delivers or offers something. -/
def Call.giver? : Call → Option PeerId
  | .deliver peer _ | .offer peer _ => some peer
  | .lack _ _ | .upkeep _ => none

/-- The answer says that the peer broke the protocol. -/
def Fault.blames : Except Fault Unit → Bool
  | .error fault => fault.shouldDisconnect
  | .ok () => false

/-- The later round is the same one, further on. -/
structure Round.Continues (r r' : Round) : Prop where
  mode : r'.mode = r.mode
  started : r'.started = r.started
  requested : r'.requests.requested = r.requests.requested

namespace Round.Continues

theorem refl (r : Round) : r.Continues r := ⟨rfl, rfl, rfl⟩

theorem trans {r r₁ r' : Round} (h : r.Continues r₁) (h' : r₁.Continues r') : r.Continues r' :=
  ⟨h'.mode.trans h.mode, h'.started.trans h.started, h'.requested.trans h.requested⟩

theorem holdBack (r : Round) (locator : List Digest) (block : FilteredBlock) :
    r.Continues { r with locator, requests := r.requests.holdBack block } := by
  refine ⟨rfl, rfl, ?_⟩
  unfold Requests.holdBack
  dsimp only
  split <;> rfl

theorem receiveBlock (r : Round) (now : Nat) (block : FilteredBlock) (txids : List Digest) :
    r.Continues (r.receiveBlock now block txids).1 := by
  rw [Round.receiveBlock_eq]
  exact ⟨rfl, rfl, Requests.requested_receiveBlock _ _ _⟩

theorem receiveTx (r : Round) (now : Nat) (tx : Transaction) : r.Continues (r.receiveTx now tx) where
  mode := by
    unfold Round.receiveTx
    split <;> rfl
  started := by
    unfold Round.receiveTx
    split <;> rfl
  requested := by rw [Engine.requests_receiveTx, Requests.requested_receiveTx]

end Round.Continues

namespace Engine

open Relation (ReflTransGen)

variable {env : Outlook} {e e₁ e' : Engine}

/-! ## Drops -/

/-- The peers that were dropped since `e`, in order. -/
def Drops (peers : List PeerId) (e e' : Engine) : Prop :=
  ∃ commands, e'.commands = e.commands ++ commands ∧ commands.filterMap Command.dropped? = peers

theorem drops_nil_iff : Drops [] e e' ↔ Spares e e' := by
  refine exists_congr fun commands => and_congr_right fun _ => ?_
  rw [List.filterMap_eq_nil_iff]
  refine forall₂_congr fun c _ => ?_
  cases c <;> simp [Command.dropped?]

namespace Drops

variable {peers peers' : List PeerId}

theorem trans (h : Drops peers e e₁) (h' : Drops peers' e₁ e') : Drops (peers ++ peers') e e' := by
  obtain ⟨first, hfirst, rfl⟩ := h
  obtain ⟨second, hsecond, rfl⟩ := h'
  exact ⟨first ++ second, by rw [hsecond, hfirst, List.append_assoc], List.filterMap_append⟩

theorem spares (h : Drops peers e e₁) (h' : Spares e₁ e') : Drops peers e e' := by
  have hdrops := h.trans (drops_nil_iff.2 h')
  rwa [List.append_nil] at hdrops

theorem unique (h : Drops peers e e') (h' : Drops peers' e e') : peers = peers' := by
  obtain ⟨commands, hcommands, rfl⟩ := h
  obtain ⟨commands', hcommands', rfl⟩ := h'
  rw [hcommands, List.append_cancel_left_eq] at hcommands'
  rw [hcommands']

end Drops

theorem drops_restartWithout (env : Outlook) (e : Engine) (offender : PeerId) :
    Drops [offender] e (e.restartWithout env offender) := by
  have hdrop : Drops [offender] e (e.drop env offender) := ⟨_, commands_drop env e offender, rfl⟩
  exact hdrop.spares (restartWithout_onward env e offender).spares

/-! ## Answers -/

/-- What was asked of another peer is refused for what it is, or rejected. -/
theorem process_of_intruder (env : Outlook) {peer bound : PeerId} {item : OrphanItem} (hbound : e.syncPeer = some bound)
    (hne : peer ≠ bound) (hawaited : e.awaits item = true) :
    (e.process env peer item).1 = e ∨ e.process env peer item = e.rejectNonSyncPeer env peer bound := by
  cases item with
  | block block =>
    have hawaited : e.isAwaitedBlock block.hash = true := hawaited
    simp only [process, processBlock, hbound]
    split
    · exact Or.inl rfl
    split
    · exact Or.inl rfl
    · exact Or.inl rfl
    · simp only [placeInBulk, hawaited, Bool.not_true, Bool.false_eq_true, if_false]
      exact Or.inr (if_pos hne)
  | tx tx =>
    have hawaited : e.isAwaitedTx tx.txid = true := hawaited
    simp only [process, processTx, hbound, hawaited, Bool.not_true, Bool.false_eq_true, if_false]
    exact Or.inr (if_pos hne)

/-- **A delivery drops its sender exactly if the answer blames it.** -/
theorem process_drops (env : Outlook) (e : Engine) (peer : PeerId) (item : OrphanItem) :
    Drops (if Fault.blames (e.process env peer item).2 then [peer] else []) e (e.process env peer item).1 := by
  cases hblames : Fault.blames (e.process env peer item).2 with
  | false =>
    refine drops_nil_iff.2 ((process_handled env e peer item).spares.resolve_right ?_)
    rintro ⟨hrestart, hawaited, bound, hbound, hne⟩
    rcases process_of_intruder env hbound hne hawaited with hsame | hrejected
    · have hdrops := drops_restartWithout env e peer
      rw [← hrestart, hsame] at hdrops
      cases hdrops.unique (drops_nil_iff.2 (.same rfl))
    · rw [hrejected] at hblames
      cases hblames
  | true =>
    cases hanswer : (e.process env peer item).2 with
    | ok _ =>
      rw [hanswer] at hblames
      cases hblames
    | error fault =>
      have hfaulted := process_faulted hanswer
      rw [hanswer] at hblames
      generalize (e.process env peer item).1 = e' at hfaulted
      cases hfaulted with
      | known _ | header _ | proof _ | cached _ _ _ | chain _ _ | uncommitted => cases hblames
      | rejected _ _ _ => exact drops_restartWithout env e peer

theorem Rested.drops_call (h : Rested e) (env : Outlook) {call : Call} {peer : PeerId} (hgiver : call.giver? = some peer) :
    Drops (if Fault.blames (e.call env call).2 then [peer] else []) e (e.call env call).1 := by
  cases call with
  | deliver sender item =>
    cases hgiver
    rw [Engine.call, receive_eq]
    exact (process_drops env e peer item).spares (resolveOrphans_spares env (h.sound_opening env (.deliver peer item)))
  | offer sender items =>
    have hanswer : (e.call env (.offer sender items)).2 = .ok () := by
      simp only [Engine.call, receiveInventory]
      split <;> rfl
    rw [hanswer, call_fst]
    refine drops_nil_iff.2 ?_
    split
    · exact .same rfl
    · exact (processOffer_offered env e sender _).spares.trans
        (resolveOrphans_spares env (h.sound_opening env (.offer sender items)))
  | lack _ _ | upkeep _ => cases hgiver

/-! ## Rounds -/

/-- A round that was there is there still, or the chain took it. -/
def GoesOn (e e' : Engine) : Prop :=
  ∃ late, e'.attempts = e.attempts ++ late ∧ ∀ round, e.round = some round →
    ∃ round', round.Continues round' ∧ (e'.round = some round' ∨ ⟨round', .ok ()⟩ ∈ late)

namespace GoesOn

theorem same (hround : e'.round = e.round) (hattempts : e'.attempts = e.attempts) : GoesOn e e' :=
  ⟨[], by rw [hattempts, List.append_nil], fun round hr => ⟨round, .refl round, Or.inl (hround.trans hr)⟩⟩

theorem of_none (hnone : e.round = none) (hattempts : e'.attempts = e.attempts) : GoesOn e e' := by
  refine ⟨[], by rw [hattempts, List.append_nil], fun round hr => ?_⟩
  rw [hnone] at hr
  cases hr

theorem within {round round' : Round} (hround : e.round = some round) (hround' : e'.round = some round')
    (hcontinues : round.Continues round') (hattempts : e'.attempts = e.attempts) : GoesOn e e' := by
  refine ⟨[], by rw [hattempts, List.append_nil], fun r hr => ?_⟩
  cases hround.symm.trans hr
  exact ⟨round', hcontinues, Or.inl hround'⟩

theorem trans (h : GoesOn e e₁) (h' : GoesOn e₁ e') : GoesOn e e' := by
  obtain ⟨early, hearly, hround⟩ := h
  obtain ⟨late, hlate, hround'⟩ := h'
  refine ⟨early ++ late, by rw [hlate, hearly, List.append_assoc], fun r hr => ?_⟩
  obtain ⟨r₁, hcontinues, hhere | htaken⟩ := hround r hr
  · obtain ⟨r', hcontinues', hend⟩ := hround' r₁ hhere
    exact ⟨r', hcontinues.trans hcontinues', hend.imp_right (List.mem_append_right early)⟩
  · exact ⟨r₁, hcontinues, Or.inr (List.mem_append_left late htaken)⟩

theorem completion (h : Completion env e e') : GoesOn e e' := by
  cases h with
  | unfinished _ => exact .same rfl rfl
  | refused hround _ _ =>
    refine ⟨[_], rfl, fun r hr => ⟨r, .refl r, Or.inl hr⟩⟩
  | committed hround _ _ honward _ =>
    refine ⟨[_], honward.roundOnly.attempts, fun r hr => ?_⟩
    cases hround.symm.trans hr
    exact ⟨_, .refl _, Or.inr (List.mem_singleton_self _)⟩

theorem holdBack {round : Round} (hround : e.round = some round) (bound : PeerId) (block : FilteredBlock) :
    GoesOn e (e.holdBack bound block) := by
  obtain ⟨locator, hround'⟩ := exists_round_holdBack hround bound block
  exact .within hround hround' (.holdBack round locator block) (roundOnly_holdBack e bound block).attempts

theorem recordBlock {round : Round} (hround : e.round = some round) (env : Outlook) (peer : PeerId)
    (block : FilteredBlock) (txids : List Digest) : GoesOn e (e.recordBlock env round peer block txids) :=
  .within hround (round_recordBlock env e round peer block txids) (.receiveBlock round env.now block txids)
    (roundOnly_recordBlock env e round peer block txids).attempts

end GoesOn

/-- **No round is given up** for an item of a welcome peer. -/
theorem Handled.goesOn {peer : PeerId} {item : OrphanItem} (h : Handled env e peer item e')
    (hwelcome : e.Welcome peer) : GoesOn e e' := by
  cases h with
  | dropped => exact .same rfl rfl
  | pooled _ _ => exact .same rfl rfl
  | rejected hsync hne hawaited =>
    rw [hwelcome.not_rejected hsync hne] at hawaited
    cases hawaited
  | heldBack hround _ _ _ => exact .holdBack hround peer _
  | recorded hround _ _ _ _ hcompletion =>
    exact (GoesOn.recordBlock hround env peer _ _).trans (.completion hcompletion)
  | begun hnone _ _ hcompletion =>
    exact (GoesOn.of_none hnone (roundOnly_recordBlock env e _ peer _ _).attempts).trans (.completion hcompletion)
  | offered _ =>
    obtain ⟨hframe, hround⟩ := frame_offerUnconfirmed env e _
    exact .same hround hframe.attempts
  | fetched he₁ hround _ _ hcompletion =>
    refine GoesOn.trans ?_ (.completion hcompletion)
    exact .within hround rfl (.receiveTx _ env.now _) (frame_of_fetched he₁).1.attempts

theorem Feeds.goesOn (h : Feeds env e e') : GoesOn e e' := by
  cases h with
  | released hround hbound hrelease =>
    rename_i round bound block requests
    have hwelcome : Welcome { e with round := some { round with requests } } bound := welcome_of_bound rfl hbound
    refine GoesOn.trans ?_ ((processBlock_handled env _ bound block).goesOn hwelcome)
    obtain ⟨hash, -, -, rfl⟩ := Requests.releaseReady?_eq_some hrelease
    exact .within hround rfl ⟨rfl, rfl, rfl⟩ rfl
  | used ho hwelcome =>
    rename_i hash o
    rw [useOrphan_of_get? ho]
    exact GoesOn.trans (.same rfl rfl)
      ((process_handled env { e with orphans := e.orphans.erase hash } o.peer o.item).goesOn hwelcome)
  | forgotten => exact .same rfl rfl

theorem resolveOrphans_goesOn (env : Outlook) (hsound : e.orphans.Sound) : GoesOn e (e.resolveOrphans env) :=
  (resolveOrphans_feeds env hsound).trans_induction_on (fun _ => .same rfl rfl) Feeds.goesOn fun _ _ => .trans

/-- **Nobody but the sender is dropped, and only if it is to blame.** In every reachable state, a delivery or an offer
drops its sender, once, if the answer says that it broke the protocol, and else nobody. In every call the items that
were waiting get their turn by steps, and none of these drops a peer or gives up a round. An offer without a block
changes nothing. -/
theorem Reachable.drops_only_sender {c : Chain} (he : Reachable c e) (env : Outlook) (call : Call) :
    (∀ peer, call.giver? = some peer →
      Drops (if Fault.blames (e.call env call).2 then [peer] else []) e (e.call env call).1) ∧
    (call.isVoid = false →
      ReflTransGen (fun e e' => Feeds env e e' ∧ Drops [] e e' ∧ GoesOn e e') (e.opening env call)
        (e.call env call).1) := by
  refine ⟨fun peer => he.rested.drops_call env, fun hcall => ?_⟩
  rw [call_fst, hcall]
  have hstep : Feeds env ≤ fun e e' => Feeds env e e' ∧ Drops [] e e' ∧ GoesOn e e' := fun _ _ hfeeds =>
    ⟨hfeeds, drops_nil_iff.2 hfeeds.spares, hfeeds.goesOn⟩
  exact ReflTransGen.mono hstep _ _ (resolveOrphans_feeds env (he.rested.sound_opening env call))

end Engine

namespace Sample

/-- Somebody else delivers the block that is still missing. -/
def intrusion : Call := .deliver ⟨2⟩ (.block (child genesisHash 4))

theorem answer_intrusion :
    Fault.blames ((engine.run crossed).call outlook intrusion).2 = true ∧ (engine.run crossed).heldCount = 1 := by
  decide +kernel

end Sample

namespace Engine

open Relation (ReflTransGen)
open Sample

/-- The intruder is dropped. When the bound peer delivers the block, the one held back gets its turn and finishes the
round. -/
theorem drops_only_sender_crossed :
    Reachable (.ofGenesis genesis) (engine.run crossed) ∧
      Drops [⟨2⟩] (engine.run crossed) ((engine.run crossed).call outlook intrusion).1 ∧
      (engine.run crossed).heldCount = 1 ∧
      (((engine.run crossed).call outlook released).1.round.any fun r => r.requests.isFinished) = true ∧
      ReflTransGen (fun e e' => Feeds outlook e e' ∧ Drops [] e e' ∧ GoesOn e e')
        ((engine.run crossed).opening outlook released) ((engine.run crossed).call outlook released).1 := by
  have hreachable : Reachable (.ofGenesis genesis) (engine.run crossed) := ⟨engine, crossed, isNew_engine, rfl⟩
  obtain ⟨hblames, hheld⟩ := answer_intrusion
  obtain ⟨-, -, hfinished⟩ := answer_crossed
  have hdrops := (hreachable.drops_only_sender outlook intrusion).1 ⟨2⟩ rfl
  rw [hblames, if_pos rfl] at hdrops
  exact ⟨hreachable, hdrops, hheld, hfinished, (hreachable.drops_only_sender outlook released).2 rfl⟩

end Engine
end LightClient
