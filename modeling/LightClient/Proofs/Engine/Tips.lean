import LightClient.Proofs.Chain.Histories
import LightClient.Proofs.Engine.Verified
/-!
# Tip rounds extend the tip

A round that is bound to no peer asked for one block, which is here and lies on the tip of the chain (`Tops`). It may
have to wait for transactions, and meanwhile the engine takes other calls. None of them moves the tip, for only a
finished round is ever put on the chain.

So whenever such a round is handed to the chain, it is one more block for it (`Extends`). A call may hand over several
rounds, one after the other, since what was waiting gets its turn. `HandOvers` follows the store from one to the next.
-/
namespace LightClient

open Chain

namespace Chain

theorem isClosed_forgetAll : ∀ (hashes : List Digest) (c : Chain), (forgetAll c hashes).isClosed = c.isClosed
  | [], _ => rfl
  | hash :: hashes, c => isClosed_forgetAll hashes (c.forget hash).1

theorem isClosed_connectAll : ∀ (batch : List ConfirmedBlock) (c : Chain),
    (batch.foldl (fun c b => (c.connect b).1) c).isClosed = c.isClosed
  | [], _ => rfl
  | b :: batch, c => isClosed_connectAll batch (c.connect b).1

/-- A chain that took a batch is as open as before. -/
theorem isClosed_of_commit {c c' : Chain} {batch : List ConfirmedBlock} {events : List ChainEvent}
    (hcommit : c.commit batch = .ok (c', events)) : c'.isClosed = false := by
  obtain ⟨hopen, _, _, -, -, -, below, _, -, -, hresult⟩ := commit_eq_ok_iff.1 hcommit
  have hc' : c' = (c.reorganise (below.length + 1) batch).1 := by rw [hresult]
  rw [hc', reorganise_fst, isClosed_connectAll, rollBack_fst, isClosed_forgetAll]
  exact hopen

theorem not_rolledBack_connect (c : Chain) (b : ConfirmedBlock) (header : Header) :
    .rolledBack header ∉ (c.connect b).2 := by
  simp [connect]

/-- A new block on the tip can be put there. -/
theorem WellFormed.fits {c : Chain} (hc : c.WellFormed) {b : ConfirmedBlock} (hunknown : c.knows b.block.hash = false)
    (hparent : b.block.previous = c.tip.hash) : c.Fits [b] where
  wellFormed := hc
  linked := List.isChain_singleton b
  parent := by
    rintro b' hb'
    cases hb'
    rw [hparent]
    exact hc.tip_at.1
  nodup := List.nodup_singleton _
  unknown b' hb' := by
    rw [List.mem_singleton.1 hb']
    exact hunknown

end Chain

/-! ## The block of a tip round -/

theorem Round.syncPeer_of_tip {r : Round} {sender : PeerId} (h : r.mode = .tip sender) : r.syncPeer = none := by
  rw [syncPeer, h]

namespace Store

/-- The store has one more block, and nothing was rolled back for it. -/
structure Grows (s : Store) (b : ConfirmedBlock) (s' : Store) : Prop where
  chain : s'.chain = (s.chain.connect b).1
  main : s'.chain.main = s.chain.main ++ [b.block.hash]
  height : s'.chain.height = s.chain.height + 1
  events : ∃ events, s'.events = s.events ++ events ∧ ∀ header, .rolledBack header ∉ events

/-- **A store that is open and can write takes a block on the tip.** -/
theorem grows_of_fits {s : Store} {b : ConfirmedBlock} (h : s.chain.Fits [b]) (hopen : s.chain.isClosed = false)
    (hdisk : s.outages = 0) : ∃ s', s.commit [b] = (s', .ok ()) ∧ s.Grows b s' := by
  refine ⟨_, commit_of_ok hdisk (h.commit hopen), rfl, rfl, ?_, _, rfl, not_rolledBack_connect s.chain b⟩
  have hpos := List.length_pos_iff.2 h.wellFormed.main_ne_nil
  change (s.chain.main ++ [b.block.hash]).length - 1 = s.chain.main.length - 1 + 1
  rw [List.length_append, List.length_singleton]
  omega

end Store

namespace Engine

/-- The round asked for this block alone, which has come with a proof of these transactions and lies on the tip. -/
structure Tops (c : Chain) (r : Round) (block : FilteredBlock) (txids : List Digest) : Prop where
  start : r.start = some block.hash
  stop : r.stop = some block.hash
  requested : r.requests.requested = [block.hash]
  received : r.requests.blocks = (∅ : Table Digest Arrival).insert block.hash ⟨block, txids⟩
  parent : block.previous = c.tip.hash
  unknown : c.knows block.hash = false

/-- What handing the round to the store comes to: it has this block alone, on the tip, and a store that is open and can
write takes it. -/
structure Extends (s : Store) (round : Round) (b : ConfirmedBlock) : Prop where
  requested : round.requests.requested = [b.block.hash]
  batch : round.requests.batch = [b]
  parent : b.block.previous = s.chain.tip.hash
  taken : s.chain.isClosed = false → s.outages = 0 →
    ∃ s', s.commit round.requests.batch = (s', .ok ()) ∧ s.Grows b s'

namespace Tops

variable {c : Chain} {r : Round} {block : FilteredBlock} {txids : List Digest}

theorem congr (h : Tops c r block txids) {c' : Chain} (hsame : c.SameBlocks c') : Tops c' r block txids where
  start := h.start
  stop := h.stop
  requested := h.requested
  received := h.received
  parent := h.parent.trans (by rw [hsame.tip])
  unknown := (hsame.knows _).trans h.unknown

-- `hash` has to be a variable here, or `rfl` would compute the hash of the block
theorem tip {hash : Digest} (hhash : block.hash = hash) (hunknown : c.knows hash = false)
    (hparent : block.previous = c.tip.hash) (peer : PeerId) (now : Nat) (txids : List Digest) :
    Tops c ((Round.tip hash peer now).receiveBlock now block txids).1 block txids := by
  have hawaited : (Round.tip hash peer now).requests.isAwaitedBlock block.hash = true := by
    rw [hhash]
    exact Requests.isAwaitedBlock_iff.2 List.mem_cons_self
  rw [Round.receiveBlock_eq, Requests.receiveBlock_of_awaited hawaited]
  subst hhash
  exact ⟨rfl, rfl, rfl, rfl, hparent, hunknown⟩

theorem receiveTx (h : Tops c r block txids) (now : Nat) (tx : Transaction) :
    Tops c (r.receiveTx now tx) block txids := by
  unfold Round.receiveTx
  split
  · rename_i requests hreceived
    have hrequests : requests = (r.requests.receiveTx tx).1 := by rw [hreceived]
    refine ⟨h.start, h.stop, ?_, ?_, h.parent, h.unknown⟩
    · rw [hrequests, Requests.requested_receiveTx]
      exact h.requested
    · rw [hrequests, Requests.blocks_receiveTx]
      exact h.received
  · exact h

/-- **The batch of such a round is its block**, with those transactions that have come. -/
theorem batch_eq (h : Tops c r block txids) (hc : c.WellFormed) :
    r.requests.batch = [⟨block, txids.filterMap r.requests.transactions.get?⟩] := by
  have hne : block.previous ≠ block.hash := h.parent ▸ (hc.ne_tip h.unknown).symm
  simp [Requests.batch, Requests.ordered, Requests.arrivals, h.requested, h.received, Requests.hasBlock,
    Requests.familyAmong, Requests.childrenAmong, Table.get?_insert, Table.contains_insert, hne]

/-- **Handing over a tip round** extends the chain by its block. -/
theorem extends_chain {s : Store} (h : Tops s.chain r block txids) (hc : s.chain.WellFormed) :
    ∃ b, Extends s r b := by
  have hbatch := h.batch_eq hc
  refine ⟨⟨block, txids.filterMap r.requests.transactions.get?⟩, h.requested, hbatch, h.parent, fun hopen hdisk => ?_⟩
  rw [hbatch]
  exact Store.grows_of_fits (hc.fits h.unknown h.parent) hopen hdisk

end Tops

/-! ## The store during a call -/

/-- What becomes of a store as rounds are handed to it, one after the other, with what it says of each. In between it may
be handed single transactions. -/
inductive HandOvers (P : Store → Round → Prop) (s : Store) : List Attempt → Store → Prop where
  | none : HandOvers P s [] s
  | submitted {attempts : List Attempt} {s' : Store} (tx : Transaction) : HandOvers P s attempts s' →
      HandOvers P s attempts (s'.commitUnconfirmed tx).1
  | handed {attempts : List Attempt} {s' : Store} {round : Round} : HandOvers P s attempts s' → P s' round →
      HandOvers P s (attempts ++ [⟨round, (s'.commit round.requests.batch).2⟩]) (s'.commit round.requests.batch).1

/-- If it is a tip round, it extends the chain of the store. -/
def OnTip (s : Store) (round : Round) : Prop := ∀ sender, round.mode = .tip sender → ∃ b, Extends s round b

/-- A store that is open and can write stays so, and takes all tip rounds that are handed to it. -/
theorem HandOvers.taken {s s' : Store} {attempts : List Attempt} (h : HandOvers OnTip s attempts s')
    (hopen : s.chain.isClosed = false) (hdisk : s.outages = 0) :
    s'.chain.isClosed = false ∧ s'.outages = 0 ∧
      ∀ a ∈ attempts, ∀ sender, a.round.mode = .tip sender → a.result = .ok () := by
  induction h with
  | none => exact ⟨hopen, hdisk, fun _ hmem => absurd hmem List.not_mem_nil⟩
  | submitted tx _ ih =>
    obtain ⟨hopen', hdisk', hall⟩ := ih
    exact ⟨(Store.isClosed_commitUnconfirmed _ tx).trans hopen', (Store.outages_commitUnconfirmed _ tx).trans hdisk',
      hall⟩
  | @handed attempts s' round _ hround ih =>
    obtain ⟨hopen', hdisk', hall⟩ := ih
    refine ⟨?_, by rw [Store.outages_commit, hdisk'], fun a ha sender hmode => ?_⟩
    · generalize hcommit : s'.commit round.requests.batch = outcome
      obtain ⟨s'', _ | _⟩ := outcome
      · rw [Store.commit_eq_error hcommit]
        exact hopen'
      · obtain ⟨events, hchain⟩ := Store.commit_eq_ok hcommit
        exact isClosed_of_commit hchain
    · rcases List.mem_append.1 ha with ha | ha
      · exact hall a ha sender hmode
      · rw [List.mem_singleton.1 ha] at hmode ⊢
        obtain ⟨b, hextends⟩ := hround sender hmode
        obtain ⟨s'', hcommit, -⟩ := hextends.taken hopen' hdisk'
        rw [hcommit]

/-! ## The invariant -/

/-- A tip round has its block, on the tip. The rounds that were handed over since `before` were so, too. -/
structure Extending (before e : Engine) : Prop where
  tops {r : Round} : e.round = some r → r.syncPeer = none → ∃ block txids, Tops e.chain r block txids
  handed : ∃ more, e.attempts = before.attempts ++ more ∧ HandOvers OnTip before.store more e.store

theorem Onward.bound {env : Outlook} {e e' : Engine} (h : Onward env e e') (hnone : e.round = none) {r : Round}
    (hr : e'.round = some r) : r.syncPeer ≠ none := by
  cases h with
  | idle =>
    rw [hnone] at hr
    cases hr
  | unbound =>
    change e.round = some r at hr
    rw [hnone] at hr
    cases hr
  | begun peer =>
    cases hr
    exact Option.some_ne_none peer

namespace Extending

variable {before e e' : Engine} {env : Outlook}

theorem of_tops (h : ∀ r, e.round = some r → r.syncPeer = none → ∃ block txids, Tops e.chain r block txids) :
    Extending e e :=
  ⟨h _, [], (List.append_nil _).symm, .none⟩

/-- At most the round is another one, and not a new tip round. -/
theorem same (h : Extending before e) (hstore : e'.store = e.store) (hattempts : e'.attempts = e.attempts)
    (hround : ∀ r, e'.round = some r → r.syncPeer = none → e.round = some r) : Extending before e' where
  tops hr hfree := by
    rw [chain, hstore]
    exact h.tops (hround _ hr hfree) hfree
  handed := by
    rw [hattempts, hstore]
    exact h.handed

theorem onward (h : Extending before e) (hnone : e.round = none) (honward : Onward env e e') : Extending before e' :=
  h.same honward.roundOnly.store honward.roundOnly.attempts fun _ hr hfree => absurd hfree (honward.bound hnone hr)

theorem restartWithout (h : Extending before e) (offender : PeerId) :
    Extending before (e.restartWithout env offender) :=
  have hdrop : Extending before (e.drop env offender) := h.same rfl rfl fun _ hr => by cases hr
  hdrop.onward rfl (restartWithout_onward env e offender)

/-- The store is handed a single transaction. -/
theorem submit (h : Extending before e) {tx : Transaction} (hstore : e'.store = (e.store.commitUnconfirmed tx).1)
    (hattempts : e'.attempts = e.attempts) (hround : e'.round = e.round) : Extending before e' where
  tops hr hfree := by
    obtain ⟨block, txids, htops⟩ := h.tops (hround.symm.trans hr) hfree
    refine ⟨block, txids, ?_⟩
    rw [chain, hstore]
    exact htops.congr (e.store.sameBlocks_commitUnconfirmed tx)
  handed := by
    obtain ⟨more, hmore, hhanded⟩ := h.handed
    exact ⟨more, hattempts.trans hmore, hstore ▸ hhanded.submitted tx⟩

/-- A round is handed to the store. -/
theorem handOver (h : Extending before e) (hc : e.chain.WellFormed) {round : Round} (hround : e.round = some round)
    {store : Store} {result : Except ChainError Unit} (hcommit : e.store.commit round.requests.batch = (store, result)) :
    ∃ more, e.attempts ++ [⟨round, result⟩] = before.attempts ++ more ∧ HandOvers OnTip before.store more store := by
  obtain ⟨more, hmore, hhanded⟩ := h.handed
  have hon : OnTip e.store round := fun sender hmode => by
    obtain ⟨block, txids, htops⟩ := h.tops hround (Round.syncPeer_of_tip hmode)
    exact htops.extends_chain hc
  have hlast := hhanded.handed hon
  rw [hcommit] at hlast
  exact ⟨more ++ [⟨round, result⟩], by rw [hmore, List.append_assoc], hlast⟩

theorem completion (h : Extending before e) (hc : e.chain.WellFormed) (hcompletion : Completion env e e') :
    Extending before e' := by
  cases hcompletion with
  | unfinished _ => exact h
  | refused hround hfinished hcommit =>
    rename_i round store cause
    have hchain : (e.attempt round store (.error cause)).chain = e.chain := Store.commit_eq_error hcommit
    refine ⟨fun hr hfree => ?_, h.handOver hc hround hcommit⟩
    rw [hchain]
    exact h.tops hr hfree
  | committed hround _ hcommit honward _ =>
    have hsame := honward.roundOnly
    refine ⟨fun hr hfree => absurd hfree (honward.bound rfl hr), ?_⟩
    rw [hsame.attempts, hsame.store]
    exact h.handOver hc hround hcommit

/-- The round that is now on is bound to a peer. -/
theorem bulk (h : Extending before e) (hstore : e'.store = e.store) (hattempts : e'.attempts = e.attempts) {round : Round}
    (hround : e'.round = some round) {bound : PeerId} (hbound : round.syncPeer = some bound) : Extending before e' :=
  h.same hstore hattempts fun r hr hfree => by
    cases hround.symm.trans hr
    cases hbound.symm.trans hfree

end Extending

/-- **No item moves the tip while a tip round waits.** -/
theorem Handled.extending {env : Outlook} {before e e' : Engine} {peer : PeerId} {item : OrphanItem}
    (h : Handled env e peer item e') (hc : e.chain.WellFormed) (hext : Extending before e) : Extending before e' := by
  cases h with
  | dropped => exact hext
  | pooled _ _ => exact hext.same rfl rfl fun _ hr _ => hr
  | rejected _ _ _ => exact hext.restartWithout peer
  | heldBack hround hbound hawaited hready =>
    rename_i block round
    obtain ⟨round', hround', hsame, -⟩ := round_holdBack hround peer block
    have honly := roundOnly_holdBack e peer block
    exact hext.bulk honly.store honly.attempts hround' (hsame.trans hbound)
  | recorded hround hbound hchecked hawaited hready hcompletion =>
    rename_i block txids round
    have honly := roundOnly_recordBlock env e round peer block txids
    have hrecorded : Extending before (e.recordBlock env round peer block txids) :=
      hext.bulk honly.store honly.attempts (round_recordBlock env e round peer block txids) hbound
    exact hrecorded.completion (hc.congr honly.frame.blocks) hcompletion
  | begun hnone hchecked hparent hcompletion =>
    rename_i block txids
    have honly := roundOnly_recordBlock env e (.tip block.hash peer env.now) peer block txids
    refine Extending.completion ⟨fun hr _ => ⟨block, txids, ?_⟩, ?_⟩ (hc.congr honly.frame.blocks) hcompletion
    · rw [round_recordBlock, Option.some.injEq] at hr
      rw [← hr]
      exact (Tops.tip rfl hchecked.unknown hparent peer env.now txids).congr honly.frame.blocks
    · rw [honly.attempts, honly.store]
      exact hext.handed
  | offered _ =>
    obtain ⟨hframe, hround⟩ := frame_offerUnconfirmed env e _
    exact hext.submit (store_offerUnconfirmed env e _) hframe.attempts hround
  | fetched he₁ hround hpeer hawaited hcompletion =>
    rename_i tx e₁ round
    obtain ⟨hframe, hsame⟩ := frame_of_fetched he₁
    have hext₁ : Extending before e₁ := by
      obtain rfl | ⟨-, rfl⟩ := he₁
      · exact hext
      · exact hext.submit (store_offerUnconfirmed env e tx) hframe.attempts hsame
    have hreceived : Extending before { e₁ with round := some (round.receiveTx env.now tx) } := by
      refine ⟨fun hr hfree => ?_, hext₁.handed⟩
      cases hr
      rw [syncPeer_receiveTx] at hfree
      obtain ⟨block, txids, htops⟩ := hext₁.tops (hsame.trans hround) hfree
      exact ⟨block, txids, htops.receiveTx env.now tx⟩
    exact hreceived.completion (hc.congr hframe.blocks) hcompletion

theorem persistent_extending (env : Outlook) (before : Engine) :
    Persistent env (fun _ _ => True) fun e => Orderly e ∧ Extending before e :=
  (stable_orderly.invariant.persistent env).along
    (fun horderly hext hhandled => hhandled.extending horderly.chain hext)
    (fun _ hext hround _ => by
      refine ⟨fun hr hfree => ?_, hext.handed⟩
      cases hr
      obtain ⟨block, txids, htops⟩ := hext.tops hround hfree
      exact ⟨block, txids, htops.start, htops.stop, htops.requested, htops.received, htops.parent, htops.unknown⟩)
    fun _ hext => hext.same rfl rfl fun _ hr _ => hr

/-! ## Calls -/

namespace Extending

variable {before e e' : Engine}

theorem offered {peer : PeerId} (h : Extending before e) (hoffered : Offered e peer e') : Extending before e' := by
  cases hoffered with
  | ignored => exact h
  | requested message _ => exact h.same rfl rfl fun _ hr _ => hr
  | emptied _ => exact h.same rfl rfl fun _ hr => by cases hr
  | extended message _ _ hbound _ _ _ _ => exact h.bulk rfl rfl rfl hbound

theorem lasting (env : Outlook) (before : Engine) :
    Lasting env (fun _ _ => True) fun e => Orderly e ∧ Extending before e :=
  (stable_orderly.invariant.lasting env).along
    (fun horderly h hhandled => hhandled.extending horderly.chain h)
    (fun peer hashes _ h => h.offered (processOffer_offered env _ peer hashes))
    (fun horderly h hcompletion => h.completion horderly.chain hcompletion)
    (fun offender h => h.restartWithout offender)
    (fun h _ => h.same rfl rfl fun _ hr => by cases hr)
    (fun _ h => h.same rfl rfl fun _ hr _ => hr)
    (fun h hnone honward => h.onward hnone honward)

theorem call (horderly : Orderly e) (h : Extending e e) (env : Outlook) (call : Call) :
    Extending e (e.call env call).1 :=
  ((persistent_extending env e).call ⟨horderly, h⟩ ((lasting env e).opening ⟨horderly, h⟩ fun _ _ _ => trivial)).2

theorem turn (horderly : Orderly e) (h : Extending e e) (t : Turn) : Extending (e.turn t) (e.turn t) := by
  have hrest (hblocks : e.chain.SameBlocks (e.turn t).chain) (hround : (e.turn t).round = e.round) :
      Extending (e.turn t) (e.turn t) := .of_tops fun r hr hfree => by
    obtain ⟨block, txids, htops⟩ := h.tops (hround.symm.trans hr) hfree
    exact ⟨block, txids, htops.congr hblocks⟩
  cases t with
  | call env c => exact .of_tops fun _ => (h.call horderly env c).tops
  | drain | reload _ | outage _ => exact hrest (.refl _) rfl
  | watch _ | close => exact hrest ⟨rfl, rfl, rfl, rfl⟩ rfl
  | submit tx => exact hrest (e.store.sameBlocks_commitUnconfirmed tx) rfl

end Extending

theorem Reachable.extending {c : Chain} (hc : c.Reachable) {e : Engine} (he : Reachable c e) :
    Orderly e ∧ Extending e e := by
  obtain ⟨e₀, turns, hnew, rfl⟩ := he
  refine run_induction (P := fun _ e => Orderly e ∧ Extending e e) ?_ (fun _ _ t h => ?_) turns
  · obtain ⟨-, hround, -, -⟩ := hnew.eq
    refine ⟨stable_orderly.ofNew hc.wellFormed hnew, .of_tops fun r hr => ?_⟩
    rw [hround] at hr
    cases hr
  · exact ⟨stable_orderly.invariant.turn h.1 fun _ _ _ _ => trivial, h.2.turn h.1 t⟩

/-- **Tip rounds extend the tip.** In every reachable state with a tip round, the round asked for one block alone, which
has come and lies on the tip. Whatever the call, each tip round that it hands to the store has its block on the tip that
the chain has by then. While the store is open and can write, it takes all of these, and each makes the chain one block
longer and rolls nothing back. -/
theorem Reachable.extends_tip {c : Chain} (hc : c.Reachable) {e : Engine} (he : Reachable c e) :
    (∀ round sender, e.round = some round → round.mode = .tip sender → ∃ block txids, Tops e.chain round block txids) ∧
    ∀ env call, ∃ more, (e.call env call).1.attempts = e.attempts ++ more ∧
      HandOvers OnTip e.store more (e.call env call).1.store ∧
      (e.chain.isClosed = false → e.store.outages = 0 →
        ∀ a ∈ more, ∀ sender, a.round.mode = .tip sender → a.result = .ok ()) := by
  obtain ⟨horderly, hext⟩ := he.extending hc
  refine ⟨fun round sender hround hmode => hext.tops hround (Round.syncPeer_of_tip hmode), fun env call => ?_⟩
  obtain ⟨more, hmore, hhanded⟩ := (hext.call horderly env call).handed
  exact ⟨more, hmore, hhanded, fun hopen hdisk => (hhanded.taken hopen hdisk).2.2⟩

end Engine

namespace Sample

/-- The block has come that pays, and the round waits for the payment. -/
def awaiting : Engine := engine.run (payTurns.take 1)

/-- What happens when the payment comes. -/
def paid : Engine := (awaiting.call ⟨0, []⟩ (.deliver peer (.tx payment))).1

theorem facts_awaiting :
    (awaiting.round.any fun r => r.mode = .tip peer && !r.requests.isFinished) = true ∧
      awaiting.chain.isClosed = false ∧ awaiting.store.outages = 0 ∧ awaiting.attempts.isEmpty = true ∧
      paid.chain.height = awaiting.chain.height + 1 ∧ (paid.attempts.map fun a => a.round.mode) = [.tip peer] := by
  decide +kernel

end Sample

namespace Engine

open Sample

/-- The block lies on the tip while its round waits. Once the payment comes, the chain takes the round. -/
theorem extends_tip_awaiting :
    Chain.Reachable (.ofGenesis genesis) ∧ Reachable (.ofGenesis genesis) awaiting ∧
      (∃ round block txids, awaiting.round = some round ∧ Tops awaiting.chain round block txids) ∧
      paid.attempts.length = 1 ∧ (∀ a ∈ paid.attempts, a.result = .ok ()) ∧
      paid.chain.height = awaiting.chain.height + 1 ∧ HandOvers OnTip awaiting.store paid.attempts paid.store := by
  obtain ⟨hround, hopen, hdisk, hnone, hheight, hmodes⟩ := facts_awaiting
  have hreachable : Reachable (.ofGenesis genesis) awaiting := ⟨engine, payTurns.take 1, isNew_engine, rfl⟩
  obtain ⟨htops, hcalls⟩ := Reachable.extends_tip (.genesis genesis) hreachable
  obtain ⟨round, hround, hmode⟩ := (Option.any_eq_true _ _).1 hround
  simp only [Bool.and_eq_true, decide_eq_true_eq] at hmode
  obtain ⟨block, txids, htop⟩ := htops round peer hround hmode.1
  obtain ⟨more, hmore, hhanded, hok⟩ := hcalls ⟨0, []⟩ (.deliver peer (.tx payment))
  have hpaid : (awaiting.call ⟨0, []⟩ (.deliver peer (.tx payment))).1 = paid := rfl
  rw [hpaid] at hmore hhanded
  have hall : paid.attempts = more := by
    rw [hmore, List.isEmpty_iff.1 hnone, List.nil_append]
  rw [← hall] at hhanded hok
  have hlength : paid.attempts.length = 1 := by simpa using congrArg List.length hmodes
  refine ⟨.genesis genesis, hreachable, ⟨round, block, txids, hround, htop⟩, hlength, fun a ha => ?_,
    hheight, hhanded⟩
  have htip : a.round.mode = .tip peer := by
    have hmem := List.mem_map_of_mem (f := fun a : Attempt => a.round.mode) ha
    rw [hmodes] at hmem
    exact List.mem_singleton.1 hmem
  exact hok hopen hdisk a ha peer htip

end Engine
end LightClient
