import LightClient.Proofs.Engine.Offender
/-!
# What the transport hears

The commands of a run, those that were taken away and those that are still queued (`issued`), tell the transport all
that it has to know. Replayed in order they end with the peer that the engine is bound to and with the height of its
chain (`IsNew.mirrored`), and the bound peer has been asked for just what the round asks for, each item once
(`IsNew.requested_once`).

`Heard` says both of a transcript and the engine that it comes from. A part of a call adds some commands to what was
said before, and what it adds fits to what it does (`Tells`). A round is cleared at one place and the next one begun at
another, so the end of a round is taken as a whole (`Onward.heard`). The commands that have been taken away are a
prefix that no call changes.
-/
namespace LightClient

namespace Command

/-- The command changes nothing about the bound peer or the height. -/
def isQuiet : Command → Bool
  | .bind _ | .announce _ => false
  | .send _ _ | .broadcast _ | .disconnect _ => true

/-- The items that the command asks the peer for. -/
def itemsFor (p : PeerId) : Command → List InventoryItem
  | .send peer (.getData items) => if peer = p then items else []
  | _ => []

/-- A quiet command that asks nobody for items. -/
def IsIdle (c : Command) : Prop := c.isQuiet = true ∧ ∀ p, c.itemsFor p = []

end Command

/-- What the transport makes of the commands. -/
structure View where
  syncPeer : Option PeerId
  height : Option Nat

namespace View

def hear (v : View) : Command → View
  | .bind peer => { v with syncPeer := peer }
  | .announce height => { v with height := some height }
  | _ => v

def replay (said : List Command) : View := said.foldl hear ⟨none, none⟩

theorem replay_append (said new : List Command) : replay (said ++ new) = new.foldl hear (replay said) :=
  List.foldl_append

theorem foldl_hear_of_quiet : ∀ (new : List Command) (v : View), (∀ c ∈ new, c.isQuiet = true) → new.foldl hear v = v
  | [], _, _ => rfl
  | c :: new, v, h => by
    have hc : v.hear c = v := by
      have hquiet := h c List.mem_cons_self
      cases c with
      | send _ _ | broadcast _ | disconnect _ => rfl
      | bind _ | announce _ => cases hquiet
    rw [List.foldl_cons, hc]
    exact foldl_hear_of_quiet new v fun c' hc' => h c' (List.mem_cons_of_mem c hc')

theorem replay_append_of_quiet (said : List Command) {new : List Command} (h : ∀ c ∈ new, c.isQuiet = true) :
    replay (said ++ new) = replay said := by
  rw [replay_append, foldl_hear_of_quiet new _ h]

end View

/-- The hashes of one kind that a peer is asked for, in order. -/
def entriesFor (kind : ItemKind) (p : PeerId) (said : List Command) : List Digest :=
  ((said.flatMap (Command.itemsFor p)).filter (·.kind = kind)).map InventoryItem.hash

section Entries

variable (kind : ItemKind) (p : PeerId)

theorem entriesFor_append (said new : List Command) :
    entriesFor kind p (said ++ new) = entriesFor kind p said ++ entriesFor kind p new := by
  rw [entriesFor, List.flatMap_append, List.filter_append, List.map_append]
  rfl

theorem entriesFor_of_idle {new : List Command} (h : ∀ c ∈ new, c.IsIdle) : entriesFor kind p new = [] := by
  have hnone : new.flatMap (Command.itemsFor p) = [] := List.flatMap_eq_nil_iff.2 fun c hc => (h c hc).2 p
  rw [entriesFor, hnone]
  rfl

theorem entriesFor_blocks (hashes : List Digest) :
    entriesFor .filteredBlock p [.send p (.getData (hashes.map .filteredBlock))] = hashes ∧
      entriesFor .tx p [.send p (.getData (hashes.map .filteredBlock))] = [] := by
  simp [entriesFor, Command.itemsFor, InventoryItem.filteredBlock, List.filter_map, Function.comp_def]

theorem entriesFor_txs (txids : List Digest) :
    entriesFor .filteredBlock p [.send p (.getData (txids.map .tx))] = [] ∧
      entriesFor .tx p [.send p (.getData (txids.map .tx))] = txids := by
  simp [entriesFor, Command.itemsFor, InventoryItem.tx, List.filter_map, Function.comp_def]

end Entries

/-- Since it was bound, the peer has been asked for the blocks that the round asked for, in order, and for the
transactions that it awaits or has. -/
def Asked (p : PeerId) (said : List Command) (r : Requests) : Prop :=
  ∃ before after, said = before ++ .bind (some p) :: after ∧ (∀ c ∈ after, ∀ peer, c ≠ .bind peer) ∧
    entriesFor .filteredBlock p after = r.requested ∧
    (entriesFor .tx p after).Perm (r.awaitedTxids ++ r.transactions.keys)

/-- The commands ask the peer for what is new in the requests. -/
structure AsksFor (p : PeerId) (new : List Command) (r r' : Requests) : Prop where
  blocks : r'.requested = r.requested ++ entriesFor .filteredBlock p new
  txs : (r'.awaitedTxids ++ r'.transactions.keys).Perm (r.awaitedTxids ++ r.transactions.keys ++ entriesFor .tx p new)

theorem AsksFor.nothing {p : PeerId} {new : List Command} (hidle : ∀ c ∈ new, c.IsIdle) {r r' : Requests}
    (hrequested : r'.requested = r.requested)
    (htxs : (r'.awaitedTxids ++ r'.transactions.keys).Perm (r.awaitedTxids ++ r.transactions.keys)) :
    AsksFor p new r r' where
  blocks := by rw [entriesFor_of_idle _ _ hidle, List.append_nil, hrequested]
  txs := by
    rw [entriesFor_of_idle _ _ hidle, List.append_nil]
    exact htxs

theorem Asked.append {p : PeerId} {said new : List Command} {r r' : Requests} (h : Asked p said r)
    (hquiet : ∀ c ∈ new, c.isQuiet = true) (hnew : AsksFor p new r r') : Asked p (said ++ new) r' := by
  obtain ⟨before, after, rfl, hbound, hblocks, htxs⟩ := h
  refine ⟨before, after ++ new, by rw [List.append_assoc, List.cons_append], fun c hc peer => ?_, ?_, ?_⟩
  · rcases List.mem_append.1 hc with hc | hc
    · exact hbound c hc peer
    · rintro rfl
      cases hquiet _ hc
  · rw [entriesFor_append, hblocks, hnew.blocks]
  · rw [entriesFor_append]
    exact (htxs.append_right _).trans hnew.txs.symm

namespace Attempt

def isTaken (a : Attempt) : Bool :=
  match a.result with
  | .ok () => true
  | .error _ => false

theorem isTaken_iff {a : Attempt} : a.isTaken = true ↔ a.result = .ok () := by
  unfold isTaken
  split <;> simp [*]

end Attempt

namespace Engine

variable {env : Outlook} {e e₁ e' : Engine} {said new : List Command}

/-- The height of the chain, once a round has been committed. -/
def announced (e : Engine) : Option Nat := if e.attempts.any Attempt.isTaken then some e.chain.height else none

theorem announced_congr (hblocks : e.chain.SameBlocks e'.chain) (hattempts : e'.attempts = e.attempts) :
    e'.announced = e.announced := by
  rw [announced, announced, hattempts, Chain.height, Chain.height, hblocks.main]

/-- What was said fits the engine. -/
structure Heard (said : List Command) (e : Engine) : Prop where
  view : View.replay said = ⟨e.syncPeer, e.announced⟩
  asked {round : Round} {p : PeerId} : e.round = some round → round.syncPeer = some p → Asked p said round.requests

namespace Heard

/-- While no peer is bound, none has been asked. -/
theorem of_free (hview : View.replay said = ⟨none, e.announced⟩) (hfree : e.syncPeer = none) : Heard said e where
  view := by rw [hview, hfree]
  asked hround hbound := by
    rw [syncPeer, hround, Option.bind_some, hbound] at hfree
    cases hfree

/-- **Within a round** each command fits what is new in the requests. -/
theorem append (h : Heard said e) (hquiet : ∀ c ∈ new, c.isQuiet = true) (hblocks : e.chain.SameBlocks e'.chain)
    (hattempts : e'.attempts = e.attempts) (hsync : e'.syncPeer = e.syncPeer)
    (hnew : ∀ r p, e'.round = some r → r.syncPeer = some p → ∃ r₀, e.round = some r₀ ∧ r₀.syncPeer = some p ∧
      AsksFor p new r₀.requests r.requests) : Heard (said ++ new) e' where
  view := by rw [View.replay_append_of_quiet said hquiet, h.view, hsync, announced_congr hblocks hattempts]
  asked hround hbound := by
    obtain ⟨r₀, hround₀, hbound₀, hasks⟩ := hnew _ _ hround hbound
    exact (h.asked hround₀ hbound₀).append hquiet hasks

theorem begun (h : (View.replay said).height = e.announced) (env : Outlook) (peer : PeerId) :
    Heard (said ++ [.bind (some peer), .send peer (.getBlocks e.chain.locator Digest.zero)]) (e.beginRound env peer) where
  view := by
    rw [View.replay_append]
    change (⟨some peer, (View.replay said).height⟩ : View) = _
    rw [h]
    rfl
  asked hround hbound := by
    cases hround
    cases hbound
    exact ⟨said, [.send peer (.getBlocks e.chain.locator Digest.zero)], rfl, by simp, rfl, List.Perm.nil⟩

theorem unbound (h : (View.replay said).height = e.announced) (hfree : e.syncPeer = none) :
    Heard (said ++ [.bind none]) (e.command (.bind none)) := by
  refine of_free ?_ hfree
  rw [View.replay_append, List.foldl_cons, List.foldl_nil, View.hear, h]
  rfl

end Heard

/-- **What follows the end of a round** says whom the engine is bound to from now on. If nothing follows, nobody may have
been bound. -/
theorem Onward.heard (h : Onward env e e') (hnone : e.round = none) : ∃ new, e'.commands = e.commands ++ new ∧
    ∀ said, (View.replay said).height = e.announced → (e' = e → (View.replay said).syncPeer = none) →
      Heard (said ++ new) e' := by
  have hfree : e.syncPeer = none := by rw [syncPeer, hnone, Option.bind_none]
  cases h with
  | idle =>
    refine ⟨[], (List.append_nil _).symm, fun said hheight hidle => ?_⟩
    rw [List.append_nil]
    refine .of_free ?_ hfree
    rw [← hidle rfl, ← hheight]
  | unbound => exact ⟨_, rfl, fun said hheight _ => .unbound hheight hfree⟩
  | begun peer => exact ⟨_, commands_beginRound env e peer, fun said hheight _ => .begun hheight env peer⟩

/-! ## The parts of a call -/

/-- What is said on the way from one engine to the other fits. -/
def Tells (e e' : Engine) : Prop :=
  ∃ new, e'.commands = e.commands ++ new ∧ ∀ said, Heard said e → Heard (said ++ new) e'

namespace Tells

theorem silent (hcommands : e'.commands = e.commands) (h : ∀ said, Heard said e → Heard said e') : Tells e e' :=
  ⟨[], by rw [hcommands, List.append_nil], fun said hsaid => by rw [List.append_nil]; exact h said hsaid⟩

theorem refl (e : Engine) : Tells e e := silent rfl fun _ h => h

theorem trans (h : Tells e e₁) (h' : Tells e₁ e') : Tells e e' := by
  obtain ⟨first, hfirst, hheard⟩ := h
  obtain ⟨second, hsecond, hheard'⟩ := h'
  refine ⟨first ++ second, by rw [hsecond, hfirst, List.append_assoc], fun said hsaid => ?_⟩
  rw [← List.append_assoc]
  exact hheard' _ (hheard said hsaid)

/-- Commands that ask for nothing go with whatever leaves the round's requests alone. -/
theorem idle (h : Adds Command.IsIdle e e') (hblocks : e.chain.SameBlocks e'.chain) (hattempts : e'.attempts = e.attempts)
    (hsync : e'.syncPeer = e.syncPeer)
    (hround : ∀ r p, e'.round = some r → r.syncPeer = some p → ∃ r₀, e.round = some r₀ ∧ r₀.syncPeer = some p ∧
      r.requests.requested = r₀.requests.requested ∧ (r.requests.awaitedTxids ++ r.requests.transactions.keys).Perm
        (r₀.requests.awaitedTxids ++ r₀.requests.transactions.keys)) : Tells e e' := by
  obtain ⟨new, hcommands, hidle⟩ := h
  refine ⟨new, hcommands, fun said hsaid => hsaid.append (fun c hc => (hidle c hc).1) hblocks hattempts hsync ?_⟩
  intro r p hr hp
  obtain ⟨r₀, hr₀, hp₀, hrequested, htxs⟩ := hround r p hr hp
  exact ⟨r₀, hr₀, hp₀, .nothing hidle hrequested htxs⟩

/-- The round is the same. -/
theorem aside (h : Adds Command.IsIdle e e') (hblocks : e.chain.SameBlocks e'.chain)
    (hattempts : e'.attempts = e.attempts) (hround : e'.round = e.round) : Tells e e' :=
  idle h hblocks hattempts (by rw [syncPeer, syncPeer, hround]) fun r _ hr hp => ⟨r, hround ▸ hr, hp, rfl, .rfl⟩

end Tells

/-- Without a bound peer before and after, there is nothing to get wrong. -/
theorem Tells.free (h : Adds (fun c => c.isQuiet = true) e e') (hblocks : e.chain.SameBlocks e'.chain)
    (hattempts : e'.attempts = e.attempts) (hfree : e.syncPeer = none) (hfree' : e'.syncPeer = none) : Tells e e' := by
  obtain ⟨new, hcommands, hquiet⟩ := h
  refine ⟨new, hcommands, fun said hsaid => hsaid.append hquiet hblocks hattempts (hfree'.trans hfree.symm) ?_⟩
  intro r p hr hp
  rw [syncPeer, hr, Option.bind_some, hp] at hfree'
  cases hfree'

theorem Onward.tells (h : Onward env e e') (hnone : e.round = none) : Tells e e' := by
  obtain ⟨new, hcommands, hheard⟩ := h.heard hnone
  refine ⟨new, hcommands, fun said hsaid => hheard said (by rw [hsaid.view]) fun _ => ?_⟩
  rw [hsaid.view, syncPeer, hnone, Option.bind_none]

theorem tells_drop (env : Outlook) (e : Engine) (offender : PeerId) : Tells e (e.drop env offender) := by
  refine ⟨_, commands_drop env e offender, fun said hsaid => .of_free ?_ rfl⟩
  rw [View.replay_append, hsaid.view]
  rfl

theorem tells_restartWithout (env : Outlook) (e : Engine) (offender : PeerId) : Tells e (e.restartWithout env offender) :=
  (tells_drop env e offender).trans ((restartWithout_onward env e offender).tells rfl)

theorem tells_offerUnconfirmed (env : Outlook) (e : Engine) (tx : Transaction) :
    Tells e (e.offerUnconfirmed env tx).1 := by
  obtain ⟨hframe, hround⟩ := frame_offerUnconfirmed env e tx
  exact .aside (adds_offerUnconfirmed (fun _ => ⟨rfl, fun _ => rfl⟩) env e tx) hframe.blocks hframe.attempts hround

theorem tells_holdBack {round : Round} (hround : e.round = some round) {bound : PeerId} {block : FilteredBlock}
    (hawaited : round.requests.isAwaitedBlock block.hash = true) : Tells e (e.holdBack bound block) := by
  obtain ⟨round', hround', hsync, hrequests⟩ := round_holdBack hround bound block
  have hframe := (roundOnly_holdBack e bound block).frame
  refine .idle (adds_holdBack (fun _ => ⟨rfl, fun _ => rfl⟩) e block) hframe.blocks hframe.attempts ?_ fun r p hr hp => ?_
  · rw [syncPeer, syncPeer, hround', hround, Option.bind_some, Option.bind_some, hsync]
  · cases hround'.symm.trans hr
    rw [hrequests, Requests.holdBack_of_awaited hawaited]
    exact ⟨round, hround, hsync.symm.trans hp, rfl, .rfl⟩

/-- **A block that is taken into a bulk round** has its peer asked for the transactions that are new. -/
theorem tells_recordBlock (env : Outlook) {round : Round} (hround : e.round = some round) {peer : PeerId}
    (hsync : round.syncPeer = some peer) {block : FilteredBlock}
    (hawaited : round.requests.isAwaitedBlock block.hash = true) (txids : List Digest) :
    Tells e (e.recordBlock env round peer block txids) := by
  have hframe := (roundOnly_recordBlock env e round peer block txids).frame
  have hround' := round_recordBlock env e round peer block txids
  obtain ⟨new, hcommands, hquiet, hblocks, htxs⟩ : ∃ new,
      (e.recordBlock env round peer block txids).commands = e.commands ++ new ∧ (∀ c ∈ new, c.isQuiet = true) ∧
      entriesFor .filteredBlock peer new = [] ∧ entriesFor .tx peer new = round.requests.newTxids txids := by
    simp only [recordBlock, Round.receiveBlock_eq, Requests.receiveBlock_of_awaited hawaited]
    split
    · rename_i hnothing
      refine ⟨[], (List.append_nil _).symm, fun _ h => absurd h List.not_mem_nil, rfl, ?_⟩
      exact (List.isEmpty_iff.1 hnothing).symm
    · exact ⟨_, rfl, fun _ h => List.mem_singleton.1 h ▸ rfl, entriesFor_txs peer _⟩
  refine ⟨new, hcommands, fun said hsaid => hsaid.append hquiet hframe.blocks hframe.attempts ?_ fun r p hr hp => ?_⟩
  · rw [syncPeer, syncPeer, hround', hround, Option.bind_some, Option.bind_some, syncPeer_receiveBlock]
  · cases hround'.symm.trans hr
    rw [syncPeer_receiveBlock] at hp
    cases hsync.symm.trans hp
    refine ⟨round, hround, hp, ?_, ?_⟩
    · rw [hblocks, List.append_nil, Round.receiveBlock_eq, Requests.requested_receiveBlock]
    · rw [htxs, Round.receiveBlock_eq, Requests.receiveBlock_of_awaited hawaited, List.append_assoc, List.append_assoc]
      exact List.perm_append_comm.append_left _

/-- **An offer that extends the round** has the bound peer asked for the blocks that are new. -/
theorem Offered.tells {peer : PeerId} (h : Offered e peer e') : Tells e e' := by
  cases h with
  | ignored => exact .refl e
  | requested message hfree => exact .free (.one rfl rfl) (.refl _) rfl hfree hfree
  | emptied _ =>
    refine ⟨_, rfl, fun said hsaid => .of_free ?_ rfl⟩
    rw [View.replay_append, hsaid.view]
    rfl
  | extended message hround hbound hbound' _ _ hrequests hmessage =>
    rename_i round round' unknown _ _
    subst hmessage
    have hblocks : entriesFor .filteredBlock peer [.send peer (.getData ((round.requests.track unknown).2.map
        .filteredBlock))] = round.requests.newBlocks unknown := (entriesFor_blocks peer _).1
    have htxs : entriesFor .tx peer [.send peer (.getData ((round.requests.track unknown).2.map
        .filteredBlock))] = [] := (entriesFor_blocks peer _).2
    refine ⟨_, rfl, fun said hsaid => hsaid.append (fun _ h => List.mem_singleton.1 h ▸ rfl) (.refl _) rfl ?_
      fun r p hr hp => ?_⟩
    · rw [syncPeer, syncPeer, hround]
      exact hbound'.trans hbound.symm
    · cases hr
      cases hbound'.symm.trans hp
      refine ⟨round, hround, hbound, ?_, ?_⟩
      · rw [hrequests, Requests.track_fst, hblocks]
      · rw [hrequests, Requests.track_fst, htxs, List.append_nil]

theorem Completion.tells (h : Completion env e e') : Tells e e' := by
  cases h with
  | unfinished _ => exact .refl e
  | refused _ _ hcommit =>
    rename_i round store cause _ _
    have hchain : (e.attempt round store (.error cause)).chain = e.chain := Store.commit_eq_error hcommit
    have hannounced : (e.attempt round store (.error cause)).announced = e.announced := by
      rw [announced, announced, hchain, attempt, List.any_append]
      simp [Attempt.isTaken]
    exact .silent rfl fun said hsaid => ⟨by rw [hannounced]; exact hsaid.view, hsaid.asked⟩
  | committed hround _ _ honward hidle =>
    rename_i round store _ _
    -- the round is closed, and whom the engine is bound to is only said by what follows
    obtain ⟨new, hcommands, hheard⟩ := honward.heard rfl
    refine ⟨[.announce store.chain.height] ++ new, by rw [hcommands, ← List.append_assoc]; rfl, fun said hsaid => ?_⟩
    have hheight : (View.replay (said ++ [.announce store.chain.height])).height =
        ((e.attempt round store (.ok ())).closeRound round).announced := by
      have htaken : (e.attempts ++ [(⟨round, .ok ()⟩ : Attempt)]).any Attempt.isTaken = true := by simp [Attempt.isTaken]
      rw [View.replay_append, announced]
      exact (if_pos htaken).symm
    rw [← List.append_assoc]
    refine hheard _ hheight fun hclosed => ?_
    rw [View.replay_append, hsaid.view, syncPeer, hround, Option.bind_some, hidle.1 hclosed]
    rfl

theorem tells_abandon (hfree : e.syncPeer = none) : Tells e { e with round := none } :=
  .free (.same rfl) (.refl _) rfl hfree rfl

/-- **What is said as an item is handled** fits. -/
theorem Handled.tells {peer : PeerId} {item : OrphanItem} (h : Handled env e peer item e') (hbooked : Booked e) :
    Tells e e' := by
  cases h with
  | dropped => exact .refl e
  | pooled _ _ => exact .aside (.same rfl) (.refl _) rfl rfl
  | rejected _ _ _ => exact tells_restartWithout env e peer
  | heldBack hround _ hawaited _ => exact tells_holdBack hround hawaited
  | recorded hround hsync _ hawaited _ hcompletion =>
    exact (tells_recordBlock env hround hsync hawaited _).trans hcompletion.tells
  | begun hnone _ _ hcompletion =>
    rename_i block txids _ _
    refine Tells.trans ?_ hcompletion.tells
    have hframe := (roundOnly_recordBlock env e (.tip block.hash peer env.now) peer block txids).frame
    refine .free (adds_recordBlock (fun _ => rfl) env e _ _ _) hframe.blocks hframe.attempts ?_ ?_
    · rw [syncPeer, hnone, Option.bind_none]
    · rw [syncPeer, round_recordBlock, Option.bind_some, syncPeer_receiveBlock]
      rfl
  | offered _ => exact tells_offerUnconfirmed env e _
  | fetched he₁ hround _ hawaited hcompletion =>
    rename_i tx e₁ round _
    have hround₁ : e₁.round = some round := (frame_of_fetched he₁).2.trans hround
    have hoffer : Tells e e₁ := by
      obtain rfl | ⟨-, rfl⟩ := he₁
      · exact .refl _
      · exact tells_offerUnconfirmed env e tx
    have hreceived : Tells e₁ { e₁ with round := some (round.receiveTx env.now tx) } := by
      refine .idle (.same rfl) (.refl _) rfl ?_ fun r p hr hp => ?_
      · rw [syncPeer, syncPeer, hround₁, Option.bind_some, Option.bind_some, syncPeer_receiveTx]
      · cases hr
        rw [syncPeer_receiveTx] at hp
        rw [requests_receiveTx, Requests.requested_receiveTx]
        exact ⟨round, hround₁, hp, rfl, (hbooked.round hround).txids_receiveTx_perm hawaited⟩
    exact (hoffer.trans hreceived).trans hcompletion.tells

theorem persistent_tells (env : Outlook) (before : Engine) :
    Persistent env (fun _ _ => True) fun e => Booked e ∧ Tells before e :=
  (stable_booked.invariant.persistent env).along (fun hbooked htells hhandled => htells.trans (hhandled.tells hbooked))
    (fun {e round hash block} _ htells hround _ => by
      refine htells.trans (.idle (.same rfl) (.refl _) rfl ?_ fun r p hr hp => ?_)
      · rw [syncPeer, syncPeer, hround]
        rfl
      · cases hr
        exact ⟨round, hround, hp, rfl, .rfl⟩)
    fun _ htells => htells.trans (.aside (.same rfl) (.refl _) rfl rfl)

/-! ## Calls and runs -/

theorem lasting_tells (env : Outlook) (before : Engine) :
    Lasting env (fun _ _ => True) fun e => Booked e ∧ Tells before e :=
  (stable_booked.invariant.lasting env).along (fun hbooked htells hhandled => htells.trans (hhandled.tells hbooked))
    (fun peer hashes _ htells => htells.trans (processOffer_offered env _ peer hashes).tells)
    (fun _ htells hcompletion => htells.trans hcompletion.tells)
    (fun offender htells => htells.trans (tells_restartWithout env _ offender))
    (fun htells hfree => htells.trans (tells_abandon hfree))
    (fun _ htells => htells.trans (.aside (.same rfl) (.refl _) rfl rfl))
    (fun htells hnone honward => htells.trans (honward.tells hnone))

theorem tells_call (hbooked : Booked e) (env : Outlook) (call : Call) : Tells e (e.call env call).1 :=
  have h : Booked e ∧ Tells e e := ⟨hbooked, .refl e⟩
  ((persistent_tells env e).call h ((lasting_tells env e).opening h fun _ _ _ => trivial)).2

/-- The commands that are taken away during a run. -/
def collected (e : Engine) : List Turn → List Command
  | [] => []
  | t :: turns => (match t with | .drain => e.commands | _ => []) ++ (e.turn t).collected turns

/-- All commands of a run. -/
def issued (e : Engine) (turns : List Turn) : List Command := e.collected turns ++ (e.run turns).commands

/-- **Throughout a run** everything fits that was said from its beginning on. -/
theorem heard_run : ∀ (turns : List Turn) {e : Engine} {said : List Command}, Booked e → Heard (said ++ e.commands) e →
    Heard (said ++ e.issued turns) (e.run turns)
  | [], _, _, _, h => h
  | t :: turns, e, said, hbooked, h => by
    have hbooked' : Booked (e.turn t) := stable_booked.invariant.turn hbooked fun _ _ _ _ => trivial
    have hstep (htells : Tells e (e.turn t)) : Heard (said ++ (e.turn t).issued turns) (e.run (t :: turns)) := by
      obtain ⟨new, hcommands, hheard⟩ := htells
      refine heard_run turns hbooked' ?_
      rw [hcommands, ← List.append_assoc]
      exact hheard _ h
    cases t with
    | call env c => exact hstep (tells_call hbooked env c)
    | drain =>
      have hemptied : Heard (said ++ e.commands ++ (e.turn .drain).commands) (e.turn .drain) :=
        h.append (fun _ hc => absurd hc List.not_mem_nil) (.refl _) rfl rfl fun r p hr hp =>
          ⟨r, hr, hp, .nothing (fun _ hc => absurd hc List.not_mem_nil) rfl .rfl⟩
      have hissued : e.issued (.drain :: turns) = e.commands ++ (e.turn .drain).issued turns :=
        List.append_assoc _ _ _
      rw [hissued, ← List.append_assoc]
      exact heard_run turns hbooked' hemptied
    | reload _ | outage _ => exact hstep (.aside (.same rfl) (.refl _) rfl rfl)
    | watch _ | close => exact hstep (.aside (.same rfl) ⟨rfl, rfl, rfl, rfl⟩ rfl rfl)
    | submit tx => exact hstep (.aside (.same rfl) (e.store.sameBlocks_commitUnconfirmed tx) rfl rfl)

theorem heard_issued {c : Chain} {e₀ : Engine} (hnew : IsNew c e₀) (turns : List Turn) :
    Heard (e₀.issued turns) (e₀.run turns) := by
  have hcommands : e₀.commands = [] := by
    obtain ⟨settings, store, filter, -, he⟩ := hnew
    obtain ⟨patience, -, rfl⟩ := Option.map_eq_some_iff.1 he
    rfl
  obtain ⟨-, hround, hattempts, -⟩ := hnew.eq
  have hstart : Heard ([] ++ e₀.commands) e₀ := by
    rw [List.nil_append, hcommands]
    refine .of_free ?_ (by rw [syncPeer, hround, Option.bind_none])
    rw [announced, hattempts]
    rfl
  exact heard_run turns (stable_booked.ofNew trivial hnew) hstart

/-- **The transport's view mirrors the engine.** After every turn of a run from a new engine, all commands so far,
replayed in order, end with the peer that the engine is bound to and, once a round has been committed, with the height
of its chain. -/
theorem IsNew.mirrored {c : Chain} {e₀ : Engine} (hnew : IsNew c e₀) (turns : List Turn) :
    (View.replay (e₀.issued turns)).syncPeer = (e₀.run turns).syncPeer ∧
      ((∃ a ∈ (e₀.run turns).attempts, a.result = .ok ()) →
        (View.replay (e₀.issued turns)).height = some (e₀.run turns).chain.height) := by
  rw [(heard_issued hnew turns).view]
  exact ⟨rfl, fun ⟨a, hmem, htaken⟩ => if_pos (List.any_eq_true.2 ⟨a, hmem, Attempt.isTaken_iff.2 htaken⟩)⟩

/-- What a peer was asked for is what the round tracks, each block and each transaction once. -/
structure AskedOnce (p : PeerId) (said : List Command) (r : Requests) : Prop where
  blocks : entriesFor .filteredBlock p said = r.requested
  nodup_blocks : (entriesFor .filteredBlock p said).Nodup
  txs : (entriesFor .tx p said).Perm (r.awaitedTxids ++ r.transactions.keys)
  nodup_txs : (entriesFor .tx p said).Nodup
  count_block {hash : Digest} : r.isAwaitedBlock hash = true → (entriesFor .filteredBlock p said).count hash = 1
  count_tx {txid : Digest} : r.isAwaitedTx txid = true → (entriesFor .tx p said).count txid = 1

/-- **Every item of a round is requested once.** Whenever a bulk round is on in a run from a new engine, its peer has
been asked, since it was bound, for the blocks that the round tracks, in order, and for the transactions that it awaits
or has. -/
theorem IsNew.requested_once {c : Chain} {e₀ : Engine} (hnew : IsNew c e₀) (turns : List Turn) {round : Round}
    {p : PeerId} (hround : (e₀.run turns).round = some round) (hbound : round.syncPeer = some p) :
    ∃ before after, e₀.issued turns = before ++ .bind (some p) :: after ∧ (∀ c ∈ after, ∀ peer, c ≠ .bind peer) ∧
      AskedOnce p after round.requests := by
  have hreachable : Reachable c (e₀.run turns) := ⟨e₀, turns, hnew, rfl⟩
  have hbooks := (stable_booked.reachable trivial hreachable).round hround
  obtain ⟨before, after, hissued, hsince, hblocks, htxs⟩ := (heard_issued hnew turns).asked hround hbound
  have hnodup : (entriesFor .filteredBlock p after).Nodup := hblocks ▸ hbooks.nodup_requested
  have hnodup' : (entriesFor .tx p after).Nodup := htxs.nodup_iff.2 hbooks.nodup_txids
  refine ⟨before, after, hissued, hsince, hblocks, hnodup, htxs, hnodup', fun hawaited => ?_, fun hawaited => ?_⟩
  · refine List.count_eq_one_of_mem hnodup ?_
    rw [hblocks, hbooks.mem_requested, Requests.isTracked_iff]
    exact Or.inl hawaited
  · refine List.count_eq_one_of_mem hnodup' (htxs.mem_iff.2 ?_)
    exact List.mem_append_left _ (Requests.isAwaitedTx_iff.1 hawaited)

end Engine

namespace Sample

/-- The peer offers a block and delivers it. What was said before has been taken away by then. -/
def offered : List Turn :=
  [.call outlook (.upkeep 0), .call outlook (.offer peer [.filteredBlock paying.hash]), .drain,
   .call outlook (.deliver peer (.block paying))]

/-- The transaction of the block completes the round. -/
def settled : List Turn := offered ++ [.call outlook (.deliver peer (.tx payment))]

theorem round_offered :
    ((engine.run offered).round.any fun r => r.syncPeer = some peer && r.requests.isAwaitedTx payment.txid) = true := by
  decide +kernel

theorem view_settled :
    (engine.run settled).syncPeer = some peer ∧ (engine.run settled).chain.height = 1 ∧
      ((engine.run settled).attempts.any Attempt.isTaken) = true := by
  decide +kernel

end Sample

namespace Engine

open Sample

/-- The next round is on with the same peer. -/
theorem mirrored_settled :
    IsNew (.ofGenesis genesis) engine ∧ (View.replay (engine.issued settled)).syncPeer = some peer ∧
      (View.replay (engine.issued settled)).height = some 1 := by
  obtain ⟨hpeer, hheight, htaken⟩ := view_settled
  obtain ⟨hbound, hannounced⟩ := isNew_engine.mirrored settled
  rw [hpeer] at hbound
  rw [hheight] at hannounced
  obtain ⟨a, hmem, ha⟩ := List.any_eq_true.1 htaken
  exact ⟨isNew_engine, hbound, hannounced ⟨a, hmem, Attempt.isTaken_iff.1 ha⟩⟩

theorem requested_once_offered :
    IsNew (.ofGenesis genesis) engine ∧ ∃ round, (engine.run offered).round = some round ∧
      round.syncPeer = some peer ∧ round.requests.isAwaitedTx payment.txid = true ∧
      ∃ before after, engine.issued offered = before ++ .bind (some peer) :: after ∧
        (∀ c ∈ after, ∀ p, c ≠ .bind p) ∧ AskedOnce peer after round.requests := by
  obtain ⟨round, hround, hfacts⟩ := (Option.any_eq_true _ _).1 round_offered
  simp only [Bool.and_eq_true, decide_eq_true_eq] at hfacts
  obtain ⟨hbound, hawaited⟩ := hfacts
  exact ⟨isNew_engine, round, hround, hbound, hawaited, isNew_engine.requested_once offered hround hbound⟩

end Engine
end LightClient
