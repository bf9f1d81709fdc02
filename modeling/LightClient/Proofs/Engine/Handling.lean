import LightClient.Proofs.Engine.Frames
import LightClient.Proofs.Orphans
import LightClient.Proofs.PeerPolicy
/-!
# One item in the engine's hands

`Handled` lists all that can become of a block or a transaction that the engine gets to handle, from a peer, from the
pool or from the blocks held back, with what was checked before. `Completion` does the same for the check after each
item that goes into a round, `Offered` for an offer of blocks and `Reviewed` for the upkeep's look at the round. Each is
read off the code once (`process_handled`, `finishIfComplete_completion` and so on), and what holds after every call is
derived from them.

A call is an opening of its own, and then the items that were waiting get their turn (`call_fst`). A property that each
part of an opening keeps (`Lasting`) is kept by the opening. One that survives the handling of every item (`Persistent`)
survives the turn of those that were waiting, too, however deep items are fed back.
-/
namespace LightClient

/-- An offer that names no block. Nothing at all is done about it. -/
def Call.isVoid : Call → Bool
  | .offer _ items => !items.any InventoryItem.isBlock
  | _ => false

namespace Engine

def process (env : Outlook) (e : Engine) (peer : PeerId) : OrphanItem → Engine × Except Fault Unit
  | .block block => e.processBlock env peer block
  | .tx tx => e.processTx env peer tx

/-- What a call does before the items that were waiting get their turn. -/
def opening (env : Outlook) (e : Engine) : Call → Engine
  | .deliver peer item => (e.process env peer item).1
  | .offer peer items => e.processOffer env peer ((items.filter InventoryItem.isBlock).map InventoryItem.hash)
  | .lack peer _ => e.restartWithout env peer
  | .upkeep at_ =>
    let e := (e.finishIfComplete env).1.checkRound env at_
    ({ e with orphans := e.orphans.expire env.now, policy := e.policy.prune at_ }.startSync env none).1

/-- What the upkeep forgets. -/
def expire (env : Outlook) (e : Engine) (now : Nat) : Engine :=
  { e with orphans := e.orphans.expire env.now, policy := e.policy.prune now }

/-- **A call is its opening, and then what was waiting gets its turn.** -/
theorem call_fst (env : Outlook) (e : Engine) (c : Call) :
    (e.call env c).1 = if c.isVoid then e else (e.opening env c).resolveOrphans env := by
  cases c with
  | deliver peer item => cases item <;> rfl
  | lack peer items => rfl
  | upkeep at_ => rfl
  | offer peer items =>
    have hvoid : ((items.filter InventoryItem.isBlock).map InventoryItem.hash).isEmpty =
        (Call.offer peer items).isVoid := by
      rw [Call.isVoid, List.isEmpty_map, Bool.eq_iff_iff]
      simp
    simp only [call, receiveInventory, hvoid]
    split <;> rfl

def awaits (e : Engine) : OrphanItem → Bool
  | .block block => e.isAwaitedBlock block.hash
  | .tx tx => e.isAwaitedTx tx.txid

/-- Without a round nobody is ahead of us, and a bulk round is with a peer that is connected. -/
structure Pursues (env : Outlook) (e : Engine) : Prop where
  behind : e.round = none → PeerPolicy.candidates env.peers e.chain.height none = []
  reachable {bound : PeerId} : e.syncPeer = some bound → isReachable env bound = true

theorem Pursues.congr {env : Outlook} {e e' : Engine} (h : Pursues env e) (hround : e'.round = e.round)
    (hchain : e'.chain.height = e.chain.height) : Pursues env e' where
  behind hnone := by
    rw [hchain]
    exact h.behind (hround.symm.trans hnone)
  reachable hbound := by
    rw [syncPeer, hround] at hbound
    exact h.reachable hbound

theorem isReachable_of_mem_candidates {env : Outlook} {localHeight : Nat} {exclude : Option PeerId} {peer : Peer}
    (h : peer ∈ PeerPolicy.candidates env.peers localHeight exclude) : isReachable env peer.id = true := by
  obtain ⟨hmem, hestablished, -, -⟩ := PeerPolicy.mem_candidates.1 h
  refine List.any_eq_true.2 ⟨peer, hmem, ?_⟩
  rw [hestablished, Bool.and_true, decide_eq_true_eq]

theorem startSync_of_select {env : Outlook} {e : Engine} {prefer : Option PeerId} {peer : PeerId}
    (hnone : e.round = none) (h : e.policy.select env.peers e.chain.height none prefer env.now = some peer) :
    e.startSync env prefer = (e.beginRound env peer, true) := by
  rw [startSync, hnone, h]
  rfl

theorem startSync_of_behind {env : Outlook} {e : Engine} {prefer : Option PeerId}
    (hbehind : PeerPolicy.candidates env.peers e.chain.height none = []) : e.startSync env prefer = (e, false) := by
  unfold startSync
  split
  · rfl
  · rw [PeerPolicy.select_eq_none_iff.2 hbehind]

/-- **The choice of the next peer.** One is chosen if there is any that is ahead of us. -/
theorem startSync_pursues (env : Outlook) {e : Engine} (hnone : e.round = none) (prefer : Option PeerId) :
    Pursues env (e.startSync env prefer).1 := by
  cases hselect : e.policy.select env.peers e.chain.height none prefer env.now with
  | none =>
    have hbehind := PeerPolicy.select_eq_none_iff.1 hselect
    rw [startSync_of_behind hbehind]
    refine ⟨fun _ => hbehind, fun hbound => ?_⟩
    rw [syncPeer, hnone] at hbound
    cases hbound
  | some id =>
    obtain ⟨peer, hpeer, rfl⟩ := PeerPolicy.exists_candidate_of_select hselect
    rw [startSync_of_select hnone hselect]
    refine ⟨fun hidle => (by cases hidle), fun hbound => ?_⟩
    cases hbound
    exact isReachable_of_mem_candidates hpeer

/-- What the check for completion makes of an engine. -/
inductive Completion (env : Outlook) (e : Engine) : Engine → Prop where
  | unfinished : (∀ round, e.round = some round → round.requests.isFinished = false) → Completion env e e
  | refused {round store cause} : e.round = some round → round.requests.isFinished = true →
      e.store.commit round.requests.batch = (store, .error cause) →
      Completion env e (e.attempt round store (.error cause))
  /-- The engine goes on with the next peer that is ahead of us. It is left idle only after a round that was bound to
  nobody. -/
  | committed {round store e'} : e.round = some round → round.requests.isFinished = true →
      e.store.commit round.requests.batch = (store, .ok ()) →
      Onward env ((e.attempt round store (.ok ())).closeRound round) e' →
      (e' = (e.attempt round store (.ok ())).closeRound round → round.syncPeer = none) ∧ Pursues env e' →
      Completion env e e'

theorem finishIfComplete_completion (env : Outlook) (e : Engine) : Completion env e (e.finishIfComplete env).1 := by
  unfold finishIfComplete
  split
  · rename_i hnone
    rw [Option.filter_eq_none_iff] at hnone
    exact .unfinished fun round hround => by simpa using hnone round hround
  rename_i round hround
  obtain ⟨hround, hfinished⟩ := Option.filter_eq_some_iff.1 hround
  split
  · rename_i store cause hcommit
    exact .refused hround hfinished hcommit
  · rename_i store hcommit
    have hclosed : ((e.attempt round store (.ok ())).closeRound round).round = none := rfl
    have hpursues := startSync_pursues env hclosed round.syncPeer
    have hcommitted {e' : Engine} := @Completion.committed env e round store e' hround hfinished hcommit
    generalize (e.attempt round store (.ok ())).closeRound round = closed at hclosed hpursues hcommitted ⊢
    -- a round that begins is announced by itself, so the two commands never come together
    cases hselect : closed.policy.select env.peers closed.chain.height none round.syncPeer env.now with
    | some peer =>
      rw [startSync_of_select hclosed hselect] at hpursues ⊢
      refine hcommitted (.begun peer) ⟨fun hidle => ?_, hpursues⟩
      rw [← hidle] at hclosed
      cases hclosed
    | none =>
      rw [startSync_of_behind (PeerPolicy.select_eq_none_iff.1 hselect)] at hpursues ⊢
      cases hbound : round.syncPeer with
      | none => exact hcommitted .idle ⟨fun _ => hbound, hpursues⟩
      | some bound =>
        refine hcommitted .unbound ⟨fun hidle => ?_, hpursues.congr rfl rfl⟩
        cases List.append_right_eq_self.1 (congrArg Engine.commands hidle)

/-- **A finished round that the chain takes** is closed, and the next one asks for nothing yet. -/
theorem finishIfComplete_of_commit (env : Outlook) {e : Engine} {round : Round} {c : Chain} {events : List ChainEvent}
    (hround : e.round = some round) (hfinished : round.requests.isFinished = true) (hdisk : e.store.outages = 0)
    (hcommit : e.chain.commit round.requests.batch = .ok (c, events)) :
    (e.finishIfComplete env).2 = .ok () ∧ (e.finishIfComplete env).1.chain = c ∧
      (e.finishIfComplete env).1.orphans = e.orphans ∧
      (e.finishIfComplete env).1.attempts = e.attempts ++ [⟨round, .ok ()⟩] ∧
      ∀ round', (e.finishIfComplete env).1.round = some round' → round'.requests = .empty := by
  have hstore : e.store.commit round.requests.batch =
      ({ e.store with chain := c, events := e.store.events ++ events }, .ok ()) := by
    rw [chain] at hcommit
    simp only [Store.commit, hdisk, hcommit]
  constructor
  · have hsome : e.round.filter (·.requests.isFinished) = some round := by
      rw [hround]
      exact Option.filter_some_pos hfinished
    simp only [finishIfComplete, hsome, hstore]
  have hcompletion := finishIfComplete_completion env e
  generalize (e.finishIfComplete env).1 = e' at hcompletion
  cases hcompletion with
  | unfinished hnone =>
    rw [hnone round hround] at hfinished
    cases hfinished
  | refused hround' _ hrefused =>
    cases hround.symm.trans hround'
    cases hstore.symm.trans hrefused
  | committed hround' _ hcommitted honward _ =>
    cases hround.symm.trans hround'
    cases hstore.symm.trans hcommitted
    have hsame := honward.roundOnly
    exact ⟨by rw [chain, hsame.store]; rfl, hsame.orphans, hsame.attempts, fun _ hr => honward.fresh rfl hr⟩

namespace Completion

variable {env : Outlook} {e e' : Engine} (h : Completion env e e')
include h

theorem orphans : e'.orphans = e.orphans := by
  cases h with
  | unfinished _ => rfl
  | refused _ _ _ => rfl
  | committed _ _ _ honward _ => exact honward.roundOnly.orphans

/-- The round stays, or the next one asks for nothing yet. -/
theorem round_cases {round : Round} (hround : e'.round = some round) :
    e.round = some round ∨ round.requests = .empty := by
  cases h with
  | unfinished _ => exact Or.inl hround
  | refused _ _ _ => exact Or.inl hround
  | committed _ _ _ honward _ => exact Or.inr (honward.fresh rfl hround)

end Completion

/-! ## Offers and reviews -/

/-- What an offer comes to. -/
inductive Offered (e : Engine) (peer : PeerId) : Engine → Prop where
  | ignored : Offered e peer e
  /-- Outside a bulk round the blocks are asked for, but no round begins. -/
  | requested (message : Message) : e.syncPeer = none → Offered e peer (e.send peer message)
  /-- The bound peer has nothing for a round that asks for nothing. -/
  | emptied : e.syncPeer = some peer → Offered e peer ({ e with round := none }.command (.bind none))
  | extended {round round' : Round} {unknown : List Digest} (message : Message) : e.round = some round →
      round.syncPeer = some peer → round'.syncPeer = some peer → (∀ hash ∈ unknown, e.chain.knows hash = false) →
      (round.requests.track unknown).2 ≠ [] → round'.requests = (round.requests.track unknown).1 →
      message = .getData ((round.requests.track unknown).2.map InventoryItem.filteredBlock) →
      Offered e peer ({ e with round := some round' }.send peer message)

theorem processOffer_offered (env : Outlook) (e : Engine) (peer : PeerId) (hashes : List Digest) :
    Offered e peer (e.processOffer env peer hashes) := by
  have hfetch (hnone : e.syncPeer = none) (unknown : List Digest) : Offered e peer (e.fetchOffered peer unknown) := by
    simp only [fetchOffered]
    split
    · exact .ignored
    · exact .requested _ hnone
  have hunknown : ∀ hash ∈ hashes.filter (!e.chain.knows ·), e.chain.knows hash = false := fun hash hmem => by
    simpa using (List.mem_filter.1 hmem).2
  simp only [processOffer]
  split
  · rename_i hround
    exact hfetch (by rw [syncPeer, hround, Option.bind_none]) _
  rename_i round hround
  split
  · rename_i hfree
    exact hfetch (by rw [syncPeer, hround, Option.bind_some, hfree]) _
  rename_i bound hbound
  split
  · rename_i heq
    subst heq
    simp only [extendRound]
    split
    · exact .emptied (syncPeer_eq_some_iff.2 ⟨round, hround, hbound⟩)
    split
    · exact .ignored
    · rename_i hfresh
      exact .extended _ hround hbound hbound hunknown (by simpa using hfresh) rfl rfl
  · exact .ignored

theorem Offered.roundOnly {e e' : Engine} {peer : PeerId} (h : Offered e peer e') : RoundOnly e e' := by
  cases h with
  | ignored => exact .refl e
  | requested _ _ | emptied _ | extended _ _ _ _ _ _ _ _ => exact ⟨rfl, rfl, rfl, rfl, rfl⟩

/-- What the upkeep makes of the round. -/
inductive Reviewed (env : Outlook) (e : Engine) : Engine → Prop where
  | kept : Reviewed env e e
  /-- The bound peer is gone, or it answers nothing. -/
  | lost {bound} : e.syncPeer = some bound → Reviewed env e (e.restartWithout env bound)
  | abandoned : e.syncPeer = none → Reviewed env e { e with round := none }

/-- What the review finds, and what it does about it. -/
theorem checkRound_cases (env : Outlook) (e : Engine) (now : Nat) :
    ((∀ bound, e.syncPeer = some bound → isReachable env bound = true) ∧
        (∀ round, e.round = some round → e.isStalled now round = false) ∧ e.checkRound env now = e) ∨
      (∃ round bound, e.round = some round ∧ round.syncPeer = some bound ∧
        (isReachable env bound = false ∨ e.isStalled now round = true) ∧
        e.checkRound env now = e.restartWithout env bound) ∨
      ∃ round, e.round = some round ∧ round.syncPeer = none ∧ e.isStalled now round = true ∧
        e.checkRound env now = { e with round := none } := by
  cases hround : e.round with
  | none =>
    refine .inl ⟨fun bound hbound => ?_, fun _ h => (by cases h), by simp only [checkRound, hround]⟩
    rw [syncPeer, hround, Option.bind_none] at hbound
    cases hbound
  | some round =>
    cases hmode : round.mode with
    | bulk bound =>
      have hpeer : round.syncPeer = some bound := by rw [Round.syncPeer, hmode]
      by_cases hlost : (!isReachable env bound || e.isStalled now round) = true
      · refine .inr (.inl ⟨round, bound, rfl, hpeer, ?_, ?_⟩)
        · rwa [Bool.or_eq_true, Bool.not_eq_true'] at hlost
        · simp only [checkRound, hround, hmode, if_pos hlost]
      · refine .inl ⟨fun bound' hbound' => ?_, fun _ h => ?_, by simp only [checkRound, hround, hmode, if_neg hlost]⟩
        · rw [syncPeer, hround, Option.bind_some, hpeer] at hbound'
          cases hbound'
          simp only [Bool.or_eq_true, Bool.not_eq_true', not_or, Bool.not_eq_false] at hlost
          exact hlost.1
        · cases h
          simp only [Bool.or_eq_true, not_or, Bool.not_eq_true] at hlost
          exact hlost.2
    | tip sender =>
      have hpeer : round.syncPeer = none := by rw [Round.syncPeer, hmode]
      by_cases hstalled : e.isStalled now round = true
      · exact .inr (.inr ⟨round, rfl, hpeer, hstalled, by simp only [checkRound, hround, hmode, if_pos hstalled]⟩)
      · refine .inl ⟨fun bound hbound => ?_, fun _ h => ?_, by simp only [checkRound, hround, hmode, if_neg hstalled]⟩
        · rw [syncPeer, hround, Option.bind_some, hpeer] at hbound
          cases hbound
        · cases h
          exact Bool.eq_false_iff.2 hstalled

theorem checkRound_reviewed (env : Outlook) (e : Engine) (now : Nat) : Reviewed env e (e.checkRound env now) := by
  obtain ⟨-, -, heq⟩ | ⟨round, bound, hround, hpeer, -, heq⟩ | ⟨round, hround, hpeer, -, heq⟩ :=
    checkRound_cases env e now
  · rw [heq]
    exact .kept
  · rw [heq]
    exact .lost (syncPeer_eq_some_iff.2 ⟨round, hround, hpeer⟩)
  · rw [heq]
    exact .abandoned (by rw [syncPeer, hround, Option.bind_some, hpeer])

/-- A review that finds nothing wrong. -/
theorem checkRound_eq_self {env : Outlook} {e : Engine} {now : Nat}
    (hreachable : ∀ bound, e.syncPeer = some bound → isReachable env bound = true)
    (hfresh : ∀ round, e.round = some round → e.isStalled now round = false) : e.checkRound env now = e := by
  obtain ⟨-, -, heq⟩ | ⟨round, bound, hround, hpeer, hlost, -⟩ | ⟨round, hround, -, hstalled, -⟩ :=
    checkRound_cases env e now
  · exact heq
  · rcases hlost with hgone | hstalled
    · rw [hreachable bound (syncPeer_eq_some_iff.2 ⟨round, hround, hpeer⟩)] at hgone
      cases hgone
    · rw [hfresh round hround] at hstalled
      cases hstalled
  · rw [hfresh round hround] at hstalled
    cases hstalled

theorem Reviewed.roundOnly {env : Outlook} {e e' : Engine} (h : Reviewed env e e') : RoundOnly e e' := by
  cases h with
  | kept => exact .refl e
  | lost _ => exact roundOnly_restartWithout env e _
  | abandoned _ => exact ⟨rfl, rfl, rfl, rfl, rfl⟩

/-! ## One item -/

/-- A block that passed the checks: new to the chain, with enough work, and with a proof of its transactions. -/
structure Checked (c : Chain) (block : FilteredBlock) (txids : List Digest) : Prop where
  unknown : c.knows block.hash = false
  work : block.header.meetsTarget = true
  proof : block.provedTxids = .ok txids

/-- What becomes of an item that a peer delivered. -/
inductive Handled (env : Outlook) (e : Engine) (peer : PeerId) : OrphanItem → Engine → Prop where
  | dropped {item} : Handled env e peer item e
  /-- The round does not ask for the item. Outside a bulk round only blocks are pooled, and not those on the tip. -/
  | pooled {item} : e.awaits item = false →
      (e.syncPeer = none → ∃ block, item = .block block ∧ (e.round = none → block.previous ≠ e.chain.tip.hash)) →
      Handled env e peer item (e.addOrphan env item.hash item peer)
  | rejected {item bound} : e.syncPeer = some bound → peer ≠ bound → e.awaits item = true →
      Handled env e peer item (e.restartWithout env peer)
  | heldBack {block round} : e.round = some round → round.syncPeer = some peer →
      round.requests.isAwaitedBlock block.hash = true → round.requests.isReady e.chain.knows block = false →
      Handled env e peer (.block block) (e.holdBack peer block)
  | recorded {block txids round e'} : e.round = some round → round.syncPeer = some peer → Checked e.chain block txids →
      round.requests.isAwaitedBlock block.hash = true → round.requests.isReady e.chain.knows block = true →
      Completion env (e.recordBlock env round peer block txids) e' → Handled env e peer (.block block) e'
  /-- A round begins for the block alone. -/
  | begun {block txids e'} : e.round = none → Checked e.chain block txids → block.previous = e.chain.tip.hash →
      Completion env (e.recordBlock env (.tip block.hash peer env.now) peer block txids) e' →
      Handled env e peer (.block block) e'
  | offered {tx} : e.syncPeer = none → Handled env e peer (.tx tx) (e.offerUnconfirmed env tx).1
  /-- Outside a bulk round the chain is offered the transaction first. -/
  | fetched {tx e₁ round e'} : (e₁ = e ∨ e.syncPeer = none ∧ e₁ = (e.offerUnconfirmed env tx).1) →
      e.round = some round → (∀ bound, round.syncPeer = some bound → peer = bound) →
      round.requests.isAwaitedTx tx.txid = true →
      Completion env { e₁ with round := some (round.receiveTx env.now tx) } e' → Handled env e peer (.tx tx) e'

/-- Whether the chain is offered an awaited transaction or not, the round is the same. -/
theorem frame_of_fetched {env : Outlook} {e e₁ : Engine} {tx : Transaction}
    (he₁ : e₁ = e ∨ e.syncPeer = none ∧ e₁ = (e.offerUnconfirmed env tx).1) : Frame e e₁ ∧ e₁.round = e.round := by
  obtain rfl | ⟨-, rfl⟩ := he₁
  · exact ⟨⟨.refl _, rfl, rfl⟩, rfl⟩
  · exact frame_offerUnconfirmed env e tx

theorem acceptBlock_of_round {env : Outlook} {e : Engine} {round : Round} (hround : e.round = some round) (peer : PeerId)
    (block : FilteredBlock) (txids : List Digest) :
    e.acceptBlock env peer block txids = (e.recordBlock env round peer block txids).finishIfComplete env := by
  rw [acceptBlock, hround]

/-- The round that is given replaces the current one. -/
theorem recordBlock_withRound (env : Outlook) (e : Engine) (current : Option Round) (round : Round) (peer : PeerId)
    (block : FilteredBlock) (txids : List Digest) :
    ({ e with round := current } : Engine).recordBlock env round peer block txids =
      e.recordBlock env round peer block txids := by
  simp only [recordBlock]

theorem placeInBulk_handled {env : Outlook} {e : Engine} {bound : PeerId} (hbound : e.syncPeer = some bound)
    (peer : PeerId) {block : FilteredBlock} {txids : List Digest} (hchecked : Checked e.chain block txids) :
    Handled env e peer (.block block) (e.placeInBulk env bound peer block txids).1 := by
  obtain ⟨round, hround, hsync⟩ := syncPeer_eq_some_iff.1 hbound
  have hawaits : e.isAwaitedBlock block.hash = round.requests.isAwaitedBlock block.hash := by
    rw [isAwaitedBlock, hround, Option.any_some]
  simp only [placeInBulk]
  split
  · rename_i hnot
    rw [Bool.not_eq_true'] at hnot
    refine .pooled hnot fun hnone => ?_
    rw [hbound] at hnone
    cases hnone
  rename_i hawaited
  rw [Bool.not_eq_true', Bool.not_eq_false] at hawaited
  split
  · rename_i hpeer
    exact .rejected hbound hpeer hawaited
  rename_i hpeer
  rw [not_not] at hpeer
  subst hpeer
  rw [hawaits] at hawaited
  have hready : round.requests.isReady e.chain.knows block =
      !(!e.chain.knows block.previous && !e.hasBlock block.previous) := by
    rw [Requests.isReady, hasBlock, hround, Option.any_some, Bool.not_and, Bool.not_not, Bool.not_not, Bool.or_comm]
  split
  · rename_i hparent
    rw [hparent] at hready
    exact .heldBack hround hsync hawaited hready
  · rename_i hparent
    rw [Bool.not_eq_true _ |>.mp hparent] at hready
    rw [acceptBlock_of_round hround]
    exact .recorded hround hsync hchecked hawaited hready (finishIfComplete_completion env _)

/-- **An awaited block from the bound peer** is recorded if its parent is here, and held back if not. -/
theorem processBlock_of_bound (env : Outlook) {e : Engine} {round : Round} {peer : PeerId} (hround : e.round = some round)
    (hbound : round.syncPeer = some peer) {block : FilteredBlock} {txids : List Digest}
    (hchecked : Checked e.chain block txids) (hawaited : round.requests.isAwaitedBlock block.hash = true) :
    e.processBlock env peer block =
      if round.requests.isReady e.chain.knows block then
        (e.recordBlock env round peer block txids).finishIfComplete env
      else (e.holdBack peer block, .ok ()) := by
  have hsync : e.syncPeer = some peer := syncPeer_eq_some_iff.2 ⟨round, hround, hbound⟩
  have hawaited' : e.isAwaitedBlock block.hash = true := by rw [isAwaitedBlock, hround, Option.any_some, hawaited]
  have hhas : e.hasBlock block.previous = round.requests.hasBlock block.previous := by
    rw [hasBlock, hround, Option.any_some]
  have hready : round.requests.isReady e.chain.knows block =
      !(!e.chain.knows block.previous && !round.requests.hasBlock block.previous) := by
    rw [Requests.isReady, Bool.or_comm, Bool.not_and, Bool.not_not, Bool.not_not]
  simp only [processBlock, hchecked.unknown, checkWork_eq_ok_iff.2 hchecked.work, hchecked.proof, hsync, placeInBulk,
    hawaited', hhas, hready, acceptBlock_of_round hround]
  cases !e.chain.knows block.previous && !round.requests.hasBlock block.previous <;> simp

/-- **A transaction from the bound peer** is taken if it is awaited, and pooled if not. -/
theorem processTx_of_bound (env : Outlook) {e : Engine} {round : Round} {peer : PeerId} (hround : e.round = some round)
    (hbound : round.syncPeer = some peer) (tx : Transaction) :
    e.processTx env peer tx =
      if round.requests.isAwaitedTx tx.txid then
        ({ e with round := some (round.receiveTx env.now tx) } : Engine).finishIfComplete env
      else (e.addOrphan env tx.txid (.tx tx) peer, .ok ()) := by
  have hsync : e.syncPeer = some peer := syncPeer_eq_some_iff.2 ⟨round, hround, hbound⟩
  have hawaited : e.isAwaitedTx tx.txid = round.requests.isAwaitedTx tx.txid := by
    rw [isAwaitedTx, hround, Option.any_some]
  simp only [processTx, hsync, hawaited, acceptTx, hround, Option.map_some]
  cases round.requests.isAwaitedTx tx.txid <;> simp

theorem placeAtTip_handled (env : Outlook) (e : Engine) (peer : PeerId) {block : FilteredBlock} {txids : List Digest}
    (hchecked : Checked e.chain block txids) :
    Handled env e peer (.block block) (e.placeAtTip env peer block txids).1 := by
  simp only [placeAtTip]
  split
  · rename_i round hround
    split
    · exact .dropped
    · rename_i htracked
      have hnot : round.requests.isAwaitedBlock block.hash = false := by
        simp only [Requests.isTracked, Bool.or_eq_true, not_or, Bool.not_eq_true] at htracked
        exact htracked.1
      refine .pooled ?_ fun _ => ⟨block, rfl, fun hnoround => ?_⟩
      · rw [awaits, isAwaitedBlock, hround, Option.any_some, hnot]
      · rw [hround] at hnoround
        cases hnoround
  · rename_i hround
    split
    · exact .dropped
    split
    · rename_i hprevious
      refine .pooled ?_ fun _ => ⟨block, rfl, fun _ => hprevious⟩
      rw [awaits, isAwaitedBlock, hround, Option.any_none]
    · rename_i hprevious
      rw [not_not] at hprevious
      rw [acceptBlock_of_round rfl, recordBlock_withRound]
      exact .begun hround hchecked hprevious (finishIfComplete_completion env _)

theorem processBlock_handled (env : Outlook) (e : Engine) (peer : PeerId) (block : FilteredBlock) :
    Handled env e peer (.block block) (e.processBlock env peer block).1 := by
  simp only [processBlock]
  split
  · exact .dropped
  rename_i hknown
  split
  · exact .dropped
  · exact .dropped
  · rename_i txids hwork hproof
    have hchecked : Checked e.chain block txids := ⟨by simpa using hknown, checkWork_eq_ok_iff.1 hwork, hproof⟩
    split
    · rename_i hbound
      exact placeInBulk_handled hbound _ hchecked
    · exact placeAtTip_handled env e _ hchecked

theorem acceptTx_handled {env : Outlook} {e e₁ : Engine} {peer : PeerId} {tx : Transaction}
    (he₁ : e₁ = e ∨ e.syncPeer = none ∧ e₁ = (e.offerUnconfirmed env tx).1)
    (hpeer : ∀ bound, e.syncPeer = some bound → peer = bound) (hawaited : e.isAwaitedTx tx.txid = true) :
    Handled env e peer (.tx tx) (e₁.acceptTx env tx).1 := by
  obtain ⟨round, hround, hawaited⟩ := isAwaitedTx_iff.1 hawaited
  have hround₁ : e₁.round = some round := (frame_of_fetched he₁).2.trans hround
  refine .fetched he₁ hround (fun bound hbound => hpeer bound (syncPeer_eq_some_iff.2 ⟨round, hround, hbound⟩)) hawaited ?_
  rw [acceptTx, hround₁, Option.map_some]
  exact finishIfComplete_completion env _

theorem processTx_handled (env : Outlook) (e : Engine) (peer : PeerId) (tx : Transaction) :
    Handled env e peer (.tx tx) (e.processTx env peer tx).1 := by
  simp only [processTx]
  split
  · rename_i bound hbound
    split
    · rename_i hnot
      rw [Bool.not_eq_true'] at hnot
      refine .pooled hnot fun hnone => ?_
      rw [hbound] at hnone
      cases hnone
    rename_i hawaited
    rw [Bool.not_eq_true', Bool.not_eq_false] at hawaited
    split
    · rename_i hpeer
      exact .rejected hbound hpeer hawaited
    · rename_i hpeer
      rw [not_not] at hpeer
      exact acceptTx_handled (Or.inl rfl) (fun p hp => by rw [hpeer]; exact Option.some.inj (hbound.symm.trans hp))
        hawaited
  · rename_i hnone
    have hfree (p : PeerId) (hp : e.syncPeer = some p) : peer = p := by
      rw [hnone] at hp
      cases hp
    split
    · split
      · rename_i hawaited
        exact acceptTx_handled (Or.inl rfl) hfree hawaited
      · exact .dropped
    · have hoffered : Handled env e peer (.tx tx) (e.offerUnconfirmed env tx).1 := .offered hnone
      split
      · rename_i e₁ fault heq
        rw [heq] at hoffered
        exact hoffered
      · rename_i e₁ heq
        split
        · rename_i hawaited
          exact acceptTx_handled (Or.inr ⟨hnone, by rw [heq]⟩) hfree hawaited
        · rw [heq] at hoffered
          exact hoffered

theorem process_handled (env : Outlook) (e : Engine) (peer : PeerId) (item : OrphanItem) :
    Handled env e peer item (e.process env peer item).1 := by
  cases item with
  | block block => exact processBlock_handled env e peer block
  | tx tx => exact processTx_handled env e peer tx

/-- **An item is pooled, or the pool is left alone.** -/
theorem Handled.orphans {env : Outlook} {e e' : Engine} {peer : PeerId} {item : OrphanItem}
    (h : Handled env e peer item e') :
    e'.orphans = e.orphans ∨ e.awaits item = false ∧ e'.round = e.round ∧
      (e.syncPeer = none → ∃ block, item = .block block ∧ (e.round = none → block.previous ≠ e.chain.tip.hash)) ∧
      e'.orphans = e.orphans.insert item.hash item peer env.now := by
  cases h with
  | dropped => exact Or.inl rfl
  | pooled hnot hidle => exact Or.inr ⟨hnot, rfl, hidle, rfl⟩
  | rejected _ _ _ => exact Or.inl (roundOnly_restartWithout env e peer).orphans
  | heldBack _ _ _ _ => exact Or.inl (roundOnly_holdBack e peer _).orphans
  | recorded _ _ _ _ _ hcompletion =>
    exact Or.inl (hcompletion.orphans.trans (roundOnly_recordBlock env e _ peer _ _).orphans)
  | begun _ _ _ hcompletion =>
    exact Or.inl (hcompletion.orphans.trans (roundOnly_recordBlock env e _ peer _ _).orphans)
  | offered _ => exact Or.inl (frame_offerUnconfirmed env e _).1.orphans
  | fetched he₁ _ _ _ hcompletion => exact Or.inl (hcompletion.orphans.trans (frame_of_fetched he₁).1.orphans)

/-! ## Items that were waiting -/

theorem useOrphan_of_get? {env : Outlook} {e : Engine} {hash : Digest} {o : Orphan}
    (ho : e.orphans.get? hash = some o) :
    e.useOrphan env hash = (process env { e with orphans := e.orphans.erase hash } o.peer o.item).1 := by
  obtain ⟨item, peer, received⟩ := o
  rw [useOrphan, ho]
  cases item <;> rfl

/-- A property that survives the handling of every item that was given, by which the items of the round and of the pool
were given, and that does not hang on their being there. -/
structure Persistent (env : Outlook) (given : PeerId → OrphanItem → Prop) (P : Engine → Prop) : Prop where
  handled {e e' : Engine} {peer : PeerId} {item : OrphanItem} : P e → given peer item → Handled env e peer item e' → P e'
  held {e : Engine} {round : Round} {bound : PeerId} {hash : Digest} {block : FilteredBlock} : P e →
    e.round = some round → round.syncPeer = some bound → round.requests.heldBack.get? hash = some block →
    given bound (.block block)
  pooled {e : Engine} {hash : Digest} {o : Orphan} : P e → e.orphans.get? hash = some o → given o.peer o.item
  release {e : Engine} {round : Round} {hash : Digest} {block : FilteredBlock} : P e → e.round = some round →
    round.requests.heldBack.get? hash = some block →
    P { e with round := some { round with requests :=
      { round.requests with heldBack := round.requests.heldBack.erase hash } } }
  unpool {e : Engine} (hash : Digest) : P e → P { e with orphans := e.orphans.erase hash }
  retain {e : Engine} (keep : Digest → Orphan → Bool) : P e → P { e with orphans := e.orphans.retain keep }

/-- **A property that survives with the help of another one**, whatever happens to the pool. -/
theorem Persistent.along {env : Outlook} {given : PeerId → OrphanItem → Prop} {I P : Engine → Prop}
    (hI : Persistent env given I)
    (handled : ∀ {e e' peer item}, I e → P e → Handled env e peer item e' → P e')
    (release : ∀ {e round hash block}, I e → P e → e.round = some round →
      round.requests.heldBack.get? hash = some block →
      P { e with round := some { round with requests :=
        { round.requests with heldBack := round.requests.heldBack.erase hash } } })
    (pool : ∀ {e} (orphans : Orphans), P e → P { e with orphans }) : Persistent env given fun e => I e ∧ P e where
  handled h hgiven hhandled := ⟨hI.handled h.1 hgiven hhandled, handled h.1 h.2 hhandled⟩
  held h := hI.held h.1
  pooled h := hI.pooled h.1
  release h hround hheld := ⟨hI.release h.1 hround hheld, release h.1 h.2 hround hheld⟩
  unpool hash h := ⟨hI.unpool hash h.1, pool _ h.2⟩
  retain keep h := ⟨hI.retain keep h.1, pool _ h.2⟩

namespace Persistent

variable {env : Outlook} {given : PeerId → OrphanItem → Prop} {P : Engine → Prop} (h : Persistent env given P)
include h

theorem releaseHeldBack : ∀ (fuel : Nat) {e : Engine}, P e → P (e.releaseHeldBack env fuel)
  | 0, _, hP => hP
  | fuel + 1, e, hP => by
    unfold Engine.releaseHeldBack
    split
    · exact hP
    rename_i round hround
    split
    · exact hP
    rename_i bound hbound
    split
    · exact hP
    rename_i block requests hrelease
    obtain ⟨hash, hheld, -, rfl⟩ := Requests.releaseReady?_eq_some hrelease
    exact releaseHeldBack fuel (h.handled (h.release hP hround hheld) (h.held hP hround hbound hheld)
      (processBlock_handled env _ _ _))

theorem settle {e : Engine} (hP : P e) : P (e.settle env) := h.retain _ (h.releaseHeldBack _ hP)

theorem useOrphan {e : Engine} (hP : P e) (hash : Digest) : P (e.useOrphan env hash) := by
  cases ho : e.orphans.get? hash with
  | none =>
    rw [Engine.useOrphan, ho]
    exact hP
  | some o =>
    rw [useOrphan_of_get? ho]
    exact h.handled (h.unpool hash hP) (h.pooled hP ho) (process_handled env _ _ _)

theorem foldl_useOrphan : ∀ (hashes : List Digest) {e : Engine}, P e → P (hashes.foldl (Engine.useOrphan env) e)
  | [], _, hP => hP
  | hash :: hashes, _, hP => foldl_useOrphan hashes (h.useOrphan hP hash)

theorem resolvePasses : ∀ (passes : Nat) {e : Engine}, P e → P (e.resolvePasses env passes)
  | 0, _, hP => hP
  | passes + 1, e, hP => by
    simp only [Engine.resolvePasses]
    split
    · exact h.settle hP
    · exact resolvePasses passes (h.foldl_useOrphan _ (h.settle hP))

theorem resolveOrphans {e : Engine} (hP : P e) : P (e.resolveOrphans env) := h.resolvePasses _ hP

end Persistent

/-! ## Calls -/

/-- A property that each part of a call's opening keeps, if the items that are handled were given. -/
structure Lasting (env : Outlook) (given : PeerId → OrphanItem → Prop) (P : Engine → Prop) : Prop where
  handled {e e' : Engine} {peer : PeerId} {item : OrphanItem} : P e → given peer item → Handled env e peer item e' → P e'
  processOffer {e : Engine} (peer : PeerId) (hashes : List Digest) : P e → P (e.processOffer env peer hashes)
  completion {e e' : Engine} : P e → Completion env e e' → P e'
  restartWithout {e : Engine} (offender : PeerId) : P e → P (e.restartWithout env offender)
  abandon {e : Engine} : P e → e.syncPeer = none → P { e with round := none }
  expire {e : Engine} (now : Nat) : P e → P (e.expire env now)
  onward {e e' : Engine} : P e → e.round = none → Onward env e e' → P e'

section

variable {env : Outlook} {given : PeerId → OrphanItem → Prop} {I P : Engine → Prop}

/-- **A property that lasts with the help of another one.** -/
theorem Lasting.along (hI : Lasting env given I)
    (handled : ∀ {e e' peer item}, I e → P e → Handled env e peer item e' → P e')
    (processOffer : ∀ {e} peer hashes, I e → P e → P (e.processOffer env peer hashes))
    (completion : ∀ {e e'}, I e → P e → Completion env e e' → P e')
    (restartWithout : ∀ {e} offender, P e → P (e.restartWithout env offender))
    (abandon : ∀ {e}, P e → e.syncPeer = none → P { e with round := none })
    (expire : ∀ {e} now, P e → P (e.expire env now))
    (onward : ∀ {e e'}, P e → e.round = none → Onward env e e' → P e') : Lasting env given fun e => I e ∧ P e where
  handled h hgiven hhandled := ⟨hI.handled h.1 hgiven hhandled, handled h.1 h.2 hhandled⟩
  processOffer peer hashes h := ⟨hI.processOffer peer hashes h.1, processOffer peer hashes h.1 h.2⟩
  completion h hcompletion := ⟨hI.completion h.1 hcompletion, completion h.1 h.2 hcompletion⟩
  restartWithout offender h := ⟨hI.restartWithout offender h.1, restartWithout offender h.2⟩
  abandon h hfree := ⟨hI.abandon h.1 hfree, abandon h.2 hfree⟩
  expire now h := ⟨hI.expire now h.1, expire now h.2⟩
  onward h hnone honward := ⟨hI.onward h.1 hnone honward, onward h.2 hnone honward⟩

namespace Lasting

variable (h : Lasting env given P)
include h

theorem startSync {e : Engine} (hP : P e) (prefer : Option PeerId) : P (e.startSync env prefer).1 := by
  cases hround : e.round with
  | none => exact h.onward hP hround (startSync_onward env e prefer)
  | some round =>
    rw [startSync_of_round (by rw [hround]; rfl)]
    exact hP

theorem reviewed {e e' : Engine} (hP : P e) (hreviewed : Reviewed env e e') : P e' := by
  cases hreviewed with
  | kept => exact hP
  | lost _ => exact h.restartWithout _ hP
  | abandoned hfree => exact h.abandon hP hfree

/-- **The opening of a call** keeps a property that each of its parts keeps. -/
theorem opening {e : Engine} (hP : P e) {c : Call} (hgiven : ∀ peer item, c = .deliver peer item → given peer item) :
    P (e.opening env c) := by
  cases c with
  | deliver peer item => exact h.handled hP (hgiven _ _ rfl) (process_handled env e peer item)
  | offer peer items => exact h.processOffer peer _ hP
  | lack peer items => exact h.restartWithout peer hP
  | upkeep at_ =>
    have hreviewed := h.reviewed (h.completion hP (finishIfComplete_completion env e)) (checkRound_reviewed env _ at_)
    exact h.startSync (h.expire at_ hreviewed) none

end Lasting

/-- **A call** keeps a property that its opening keeps and that survives the turn of what was waiting. -/
theorem Persistent.call (h : Persistent env given P) {e : Engine} (hP : P e) {c : Call} (hopening : P (e.opening env c)) :
    P (e.call env c).1 := by
  rw [call_fst]
  split
  · exact hP
  · exact h.resolveOrphans hopening

end

end Engine
end LightClient
