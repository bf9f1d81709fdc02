import LightClient.Proofs.Engine.Penalty
/-!
# Progress and stalls

A round that has neither asked for anything new nor received anything for too long is given up by the upkeep, and its
peer is dropped. `Paced` says since when at the latest an unfinished round has made progress, and that the patience is
the same as ever. As long as the clock does not run backwards, every turn keeps it (`Paced.run`), so a peer that
delivers something that goes into its round is not dropped as stalled until its time is up
(`Reachable.dropped_without_progress`).

A block whose parent is missing is no such thing. It is held back, which is no progress, and the upkeep judges the round
by what came before (`Rested.drops_after_unready`).
-/
namespace LightClient
namespace Engine

variable {env : Outlook} {e e' : Engine} {round : Round} {peer : PeerId}

/-! ## What the upkeep drops -/

/-- The peer that the upkeep finds gone or stalling. -/
def condemned (env : Outlook) (e : Engine) (now : Nat) : Option PeerId :=
  e.syncPeer.filter fun bound => !isReachable env bound || e.round.any (e.isStalled now)

theorem condemned_eq_some_iff {now : Nat} :
    e.condemned env now = some peer ↔ ∃ round, e.round = some round ∧ round.syncPeer = some peer ∧
      (isReachable env peer = false ∨ e.isStalled now round = true) := by
  rw [condemned, Option.filter_eq_some_iff, syncPeer_eq_some_iff]
  constructor
  · rintro ⟨⟨round, hround, hbound⟩, hcause⟩
    rw [hround, Option.any_some, Bool.or_eq_true, Bool.not_eq_true'] at hcause
    exact ⟨round, hround, hbound, hcause⟩
  · rintro ⟨round, hround, hbound, hcause⟩
    refine ⟨⟨round, hround, hbound⟩, ?_⟩
    rw [hround, Option.any_some, Bool.or_eq_true, Bool.not_eq_true']
    exact hcause

theorem condemned_of_round (hround : e.round = some round) (hbound : round.syncPeer = some peer) (env : Outlook)
    (now : Nat) :
    e.condemned env now = if !isReachable env peer || e.isStalled now round then some peer else none := by
  have hsync : e.syncPeer = some peer := syncPeer_eq_some_iff.2 ⟨round, hround, hbound⟩
  rw [condemned, hsync, hround, Option.any_some, Option.filter_some]

theorem drops_checkRound (env : Outlook) (e : Engine) (now : Nat) :
    Drops (e.condemned env now).toList e (e.checkRound env now) := by
  obtain ⟨hreachable, hfresh, heq⟩ | ⟨round, bound, hround, hpeer, hlost, heq⟩ | ⟨round, hround, hpeer, -, heq⟩ :=
    checkRound_cases env e now
  · have hnobody : e.condemned env now = none := by
      rw [Option.eq_none_iff_forall_ne_some]
      intro bound hcondemned
      obtain ⟨round, hround, hpeer, hgone | hstalled⟩ := condemned_eq_some_iff.1 hcondemned
      · rw [hreachable bound (syncPeer_eq_some_iff.2 ⟨round, hround, hpeer⟩)] at hgone
        cases hgone
      · rw [hfresh round hround] at hstalled
        cases hstalled
    rw [hnobody, heq]
    exact drops_nil_iff.2 (.same rfl)
  · rw [condemned_eq_some_iff.2 ⟨round, hround, hpeer, hlost⟩, heq]
    exact drops_restartWithout env e bound
  · have hfree : e.syncPeer = none := by rw [syncPeer, hround, Option.bind_some, hpeer]
    rw [condemned, hfree, heq]
    exact drops_nil_iff.2 (.same rfl)

/-- **The upkeep drops the peer that it finds gone or stalling**, and nobody else. It checks for completion first. -/
theorem Rested.drops_upkeep (h : Rested e) (env : Outlook) (now : Nat) :
    Drops ((e.finishIfComplete env).1.condemned env now).toList e (e.call env (.upkeep now)).1 := by
  have hfinish := drops_nil_iff.2 (finishIfComplete_completion env e).spares
  have hresume : Spares ((e.finishIfComplete env).1.checkRound env now) (e.opening env (.upkeep now)) :=
    spares_resume env ((e.finishIfComplete env).1.checkRound env now) (.upkeep now)
  have hopening := (hfinish.trans (drops_checkRound env _ now)).spares hresume
  exact hopening.spares (resolveOrphans_spares env (h.sound_opening env (.upkeep now)))

/-- A round that begins is with a peer that is there. -/
theorem Completion.reachable (h : Completion env e e')
    (hreachable : ∀ bound, e.syncPeer = some bound → isReachable env bound = true) {bound : PeerId}
    (hbound : e'.syncPeer = some bound) : isReachable env bound = true := by
  cases h with
  | unfinished _ => exact hreachable bound hbound
  | refused _ _ _ => exact hreachable bound hbound
  | committed _ _ _ _ hnext => exact hnext.2.reachable hbound

/-- **An upkeep that finds nothing wrong** gives up no round. -/
theorem Rested.goesOn_upkeep (h : Rested e) {now : Nat}
    (hkept : (e.finishIfComplete env).1.checkRound env now = (e.finishIfComplete env).1) :
    GoesOn e (e.call env (.upkeep now)).1 := by
  have hopening : GoesOn e (e.opening env (.upkeep now)) := by
    refine (GoesOn.completion (finishIfComplete_completion env e)).trans ?_
    rw [opening, hkept]
    generalize (e.finishIfComplete env).1 = d
    cases hround : d.round with
    | none => exact .of_none hround (roundOnly_startSync env _ none).attempts
    | some round =>
      rw [startSync_of_round rfl]
      exact .same hround.symm rfl
  exact hopening.trans (resolveOrphans_goesOn env (h.sound_opening env (.upkeep now)))

/-! ## Pace -/

/-- An unfinished round has made progress at that time or later, and the patience is what it was. -/
structure Paced (since patience : Nat) (e : Engine) : Prop where
  patience : e.patience = patience
  progress {round : Round} : e.round = some round → round.requests.isFinished = false → since ≤ round.lastProgress

namespace Paced

variable {since patience : Nat}

theorem same (h : Paced since patience e) (hpatience : e'.patience = e.patience) (hround : e'.round = e.round) :
    Paced since patience e' :=
  ⟨hpatience.trans h.patience, fun hr => h.progress (hround.symm.trans hr)⟩

theorem of_none (hpatience : e.patience = patience) (hnone : e.round = none) : Paced since patience e := by
  refine ⟨hpatience, fun hr => ?_⟩
  rw [hnone] at hr
  cases hr

theorem of_round (hpatience : e.patience = patience) (hround : e.round = some round) (hsince : since ≤ round.lastProgress) :
    Paced since patience e := by
  refine ⟨hpatience, fun hr _ => ?_⟩
  cases hround.symm.trans hr
  exact hsince

/-- **A round that keeps its pace is not stalled** until its time is up. -/
theorem not_stalled (h : Paced since patience e) {now : Nat} (hnow : now - since ≤ patience) (hround : e.round = some round) :
    e.isStalled now round = false := by
  cases hfinished : round.requests.isFinished with
  | true => rw [isStalled, hfinished, Bool.not_true, Bool.false_and]
  | false =>
    have hprogress := h.progress hround hfinished
    rw [isStalled, hfinished, h.patience, Bool.not_false, Bool.true_and, decide_eq_false_iff_not]
    omega

theorem onward (hpatience : e.patience = patience) (hnone : e.round = none) (hnow : since ≤ env.now)
    (h : Onward env e e') : Paced since patience e' := by
  cases h with
  | idle => exact .of_none hpatience hnone
  | unbound => exact .of_none hpatience hnone
  | begun peer => exact .of_round hpatience rfl hnow

theorem restartWithout (h : Paced since patience e) (hnow : since ≤ env.now) (offender : PeerId) :
    Paced since patience (e.restartWithout env offender) :=
  onward (e := e.drop env offender) h.patience rfl hnow (restartWithout_onward env e offender)

theorem completion (h : Paced since patience e) (hnow : since ≤ env.now) (hcompletion : Completion env e e') :
    Paced since patience e' := by
  cases hcompletion with
  | unfinished _ => exact h
  | refused _ _ _ => exact h.same rfl rfl
  | @committed round store _ _ _ _ honward _ =>
    exact onward (e := (e.attempt round store (.ok ())).closeRound round) h.patience rfl hnow honward

/-- What is recorded now is progress. -/
theorem recordBlock (hpatience : e.patience = patience) (hnow : since ≤ env.now) (round : Round) (peer : PeerId)
    (block : FilteredBlock) (txids : List Digest) :
    Paced since patience (e.recordBlock env round peer block txids) := by
  obtain ⟨news, heq, -⟩ := recordBlock_eq env e round peer block txids
  rw [heq]
  exact .of_round hpatience rfl hnow

theorem receiveTx {tx : Transaction} (hawaited : round.requests.isAwaitedTx tx.txid = true) (now : Nat) :
    (round.receiveTx now tx).lastProgress = now := by
  rw [Round.receiveTx, Requests.receiveTx_of_awaited hawaited]

/-- Holding a block back is no progress. -/
theorem holdBack (h : Paced since patience e) (hround : e.round = some round) (bound : PeerId) (block : FilteredBlock) :
    Paced since patience (e.holdBack bound block) := by
  obtain ⟨round', news, heq, hround', -⟩ := holdBack_eq e bound block
  obtain ⟨locator, rfl⟩ := hround' round hround
  rw [heq]
  refine ⟨h.patience, fun hr hunfinished => ?_⟩
  cases hr
  rw [Requests.isFinished_holdBack] at hunfinished
  have hsince : since ≤ round.lastProgress := h.progress hround hunfinished
  exact hsince

theorem offerUnconfirmed (h : Paced since patience e) (env : Outlook) (tx : Transaction) :
    Paced since patience (e.offerUnconfirmed env tx).1 := by
  obtain ⟨falsePositives, filter, txCache, verdicts, news, heq, -⟩ := offerUnconfirmed_fst env e tx
  rw [heq]
  exact h.same rfl rfl

theorem handled (h : Paced since patience e) (hnow : since ≤ env.now) {item : OrphanItem}
    (hhandled : Handled env e peer item e') : Paced since patience e' := by
  cases hhandled with
  | dropped => exact h
  | pooled _ _ => exact h.same rfl rfl
  | rejected _ _ _ => exact h.restartWithout hnow peer
  | heldBack hround _ _ _ => exact h.holdBack hround peer _
  | recorded _ _ _ _ _ hcompletion | begun _ _ _ hcompletion =>
    exact (recordBlock h.patience hnow _ peer _ _).completion hnow hcompletion
  | offered _ => exact h.offerUnconfirmed env _
  | fetched he₁ _ _ hawaited hcompletion =>
    refine (Paced.of_round ?_ rfl ?_).completion hnow hcompletion
    · obtain rfl | ⟨-, rfl⟩ := he₁
      · exact h.patience
      · exact (h.offerUnconfirmed env _).patience
    · rw [receiveTx hawaited]
      exact hnow

theorem persistent (hnow : since ≤ env.now) (patience : Nat) :
    Persistent env (fun _ _ => True) (Paced since patience) where
  handled h _ hhandled := h.handled hnow hhandled
  held _ _ _ _ := trivial
  pooled _ _ := trivial
  release {_ round _ _} h hround _ := by
    refine ⟨h.patience, fun hr hunfinished => ?_⟩
    cases hr
    have hsince : since ≤ round.lastProgress := h.progress hround hunfinished
    exact hsince
  unpool _ h := h.same rfl rfl
  retain _ h := h.same rfl rfl

theorem processOffer (h : Paced since patience e) (hnow : since ≤ env.now) (peer : PeerId) (hashes : List Digest) :
    Paced since patience (e.processOffer env peer hashes) := by
  have hfetch (unknown : List Digest) : Paced since patience (e.fetchOffered peer unknown) := by
    simp only [fetchOffered]
    split
    · exact h
    · exact h.same rfl rfl
  simp only [Engine.processOffer]
  split
  · exact hfetch _
  split
  · exact hfetch _
  split
  · simp only [extendRound]
    split
    · exact .of_none h.patience rfl
    split
    · exact h
    · exact .of_round h.patience rfl hnow
  · exact h

theorem lasting (hnow : since ≤ env.now) (patience : Nat) :
    Lasting env (fun _ _ => True) (Paced since patience) where
  handled h _ hhandled := h.handled hnow hhandled
  processOffer peer hashes h := h.processOffer hnow peer hashes
  completion h hcompletion := h.completion hnow hcompletion
  restartWithout offender h := h.restartWithout hnow offender
  abandon h _ := .of_none h.patience rfl
  expire _ h := h.same rfl rfl
  onward h hnone honward := onward h.patience hnone hnow honward

theorem call (h : Paced since patience e) (hnow : since ≤ env.now) (call : Call) :
    Paced since patience (e.call env call).1 :=
  (persistent hnow patience).call h ((lasting hnow patience).opening h fun _ _ _ => trivial)

theorem turn (h : Paced since patience e) {t : Turn} (hclock : ∀ env call, t = .call env call → since ≤ env.now) :
    Paced since patience (e.turn t) := by
  cases t with
  | call env c => exact h.call (hclock env c rfl) c
  | drain | reload _ | watch _ | submit _ | outage _ | close => exact h.same rfl rfl

/-- **The pace is kept** as long as the clock does not run backwards. -/
theorem run : ∀ (turns : List Turn) {e : Engine}, Paced since patience e →
    (∀ env call, .call env call ∈ turns → since ≤ env.now) → Paced since patience (e.run turns)
  | [], _, h, _ => h
  | t :: turns, _, h, hclock =>
    run turns (h.turn fun env call ht => hclock env call (ht ▸ List.mem_cons_self))
      fun env call hmem => hclock env call (List.mem_cons_of_mem t hmem)

end Paced

/-! ## Deliveries -/

/-- **What goes into the round is progress.** -/
theorem paced_of_delivery (hround : e.round = some round) (hbound : round.syncPeer = some peer) {item : OrphanItem}
    (hawaited : e.awaits item = true) (hvalid : ∀ block, item = .block block → ∃ txids, Checked e.chain block txids)
    (hready : ∀ block, item = .block block → round.requests.isReady e.chain.knows block = true) (env : Outlook) :
    Paced env.now e.patience (e.call env (.deliver peer item)).1 := by
  rw [call_fst]
  refine (Paced.persistent (Nat.le_refl _) _).resolveOrphans ?_
  cases item with
  | block block =>
    obtain ⟨txids, hchecked⟩ := hvalid block rfl
    rw [awaits, isAwaitedBlock, hround, Option.any_some] at hawaited
    rw [opening, process, processBlock_of_bound env hround hbound hchecked hawaited, if_pos (hready block rfl)]
    exact (Paced.recordBlock rfl (Nat.le_refl _) round peer block txids).completion (Nat.le_refl _)
      (finishIfComplete_completion env _)
  | tx tx =>
    rw [awaits, isAwaitedTx, hround, Option.any_some] at hawaited
    rw [opening, process, processTx_of_bound env hround hbound, if_pos hawaited]
    have hreceived : Paced env.now e.patience { e with round := some (round.receiveTx env.now tx) } := by
      refine .of_round rfl rfl ?_
      rw [Paced.receiveTx hawaited]
    exact hreceived.completion (Nat.le_refl _) (finishIfComplete_completion env _)

/-- **An upkeep in time** does not drop a peer that is still there, and gives up no round of it. -/
theorem Rested.upkeep_of_paced (h : Rested e) {since patience : Nat} (hpaced : Paced since patience e)
    (hnow : since ≤ env.now) {at_ : Nat} (hat : at_ - since ≤ patience) (hreachable : isReachable env peer = true) :
    ∃ dropped, Drops dropped e (e.call env (.upkeep at_)).1 ∧ peer ∉ dropped ∧
      (e.syncPeer = some peer → dropped = [] ∧ GoesOn e (e.call env (.upkeep at_)).1) := by
  have hcompletion := finishIfComplete_completion env e
  have hfinished := hpaced.completion hnow hcompletion
  have hcondemned {bound : PeerId} (hbound : (e.finishIfComplete env).1.condemned env at_ = some bound) :
      isReachable env bound = false := by
    obtain ⟨round, hround, -, hcause⟩ := condemned_eq_some_iff.1 hbound
    refine hcause.resolve_right ?_
    rw [hfinished.not_stalled hat hround]
    exact Bool.false_ne_true
  refine ⟨_, h.drops_upkeep env at_, fun hmem => ?_, fun hsync => ?_⟩
  · rw [Option.mem_toList] at hmem
    rw [hcondemned hmem] at hreachable
    cases hreachable
  · have hthere {bound : PeerId} (hbound : (e.finishIfComplete env).1.syncPeer = some bound) :
        isReachable env bound = true :=
      hcompletion.reachable (fun bound hbound => by cases hsync.symm.trans hbound; exact hreachable) hbound
    refine ⟨?_, h.goesOn_upkeep (checkRound_eq_self (fun _ => hthere) fun _ => hfinished.not_stalled hat)⟩
    cases hnone : (e.finishIfComplete env).1.condemned env at_ with
    | none => rfl
    | some bound =>
      have hgone := hcondemned hnone
      obtain ⟨round, hround, hbound, -⟩ := condemned_eq_some_iff.1 hnone
      rw [hthere (syncPeer_eq_some_iff.2 ⟨round, hround, hbound⟩)] at hgone
      cases hgone

/-- **Holding a block back gives nothing else its turn**: the parent of the block is missing, and no other block's has
come. -/
theorem Quiet.holdBack (h : Quiet e) (hround : e.round = some round) {block : FilteredBlock}
    (hawaited : round.requests.isAwaitedBlock block.hash = true)
    (hunready : round.requests.isReady e.chain.knows block = false) (bound : PeerId) : Quiet (e.holdBack bound block) := by
  have hsame := roundOnly_holdBack e bound block
  have hchain : (e.holdBack bound block).chain = e.chain := congrArg Store.chain hsame.store
  obtain ⟨locator, hround'⟩ := exists_round_holdBack hround bound block
  rw [Requests.holdBack_of_awaited hawaited] at hround'
  refine ⟨fun ho hblock => ?_, fun {hash o} ho => ?_, fun hr hpeer hheld => ?_⟩
  · rw [hsame.orphans] at ho
    rw [hchain]
    exact h.unknown ho hblock
  · rw [hsame.orphans] at ho
    rw [hchain, Bool.eq_false_iff]
    intro husable
    refine Bool.eq_false_iff.1 (h.unusable ho) ?_
    cases hitem : o.item with
    | block b =>
      simp only [isUsable, hround', hitem, Bool.and_eq_true, Bool.not_eq_true'] at husable
      obtain ⟨⟨hpeer, hhash⟩, hfree⟩ := husable
      rw [Requests.isHeldBack, Table.contains_insert, Bool.or_eq_false_iff] at hfree
      simp only [isUsable, hround, hitem, Bool.and_eq_true, Bool.not_eq_true']
      exact ⟨⟨hpeer, hhash⟩, hfree.2⟩
    | tx tx =>
      simp only [isUsable, hround', hitem, Bool.and_eq_true] at husable
      simp only [isUsable, hround, hitem, Bool.and_eq_true]
      exact husable
  · cases hround'.symm.trans hr
    rw [hchain]
    obtain ⟨-, rfl⟩ | ⟨-, hold⟩ := Table.get?_insert_eq_some.1 hheld
    · exact hunready
    · have hstill : round.requests.isReady e.chain.knows _ = false := h.unready hround hpeer hold
      exact hstill

/-- **A block whose parent is missing** is held back, and that is all. -/
theorem Rested.call_of_unready (h : Rested e) (hround : e.round = some round) (hbound : round.syncPeer = some peer)
    {block : FilteredBlock} {txids : List Digest} (hchecked : Checked e.chain block txids)
    (hawaited : round.requests.isAwaitedBlock block.hash = true)
    (hunready : round.requests.isReady e.chain.knows block = false) (env : Outlook) :
    (e.call env (.deliver peer (.block block))).1 = e.holdBack peer block := by
  have hopening : e.opening env (.deliver peer (.block block)) = e.holdBack peer block := by
    rw [opening, process, processBlock_of_bound env hround hbound hchecked hawaited, hunready]
    rfl
  have hconsistent : (e.holdBack peer block).orphans.Consistent := by
    rw [(roundOnly_holdBack e peer block).orphans]
    exact h.sound.consistent
  rw [call_fst, hopening]
  exact (h.quiet.holdBack hround hawaited hunready peer).resolveOrphans hconsistent env

/-- **Holding a block back does not count**: the upkeep judges the round by what came before. -/
theorem Rested.drops_after_unready (h : Rested e) (hround : e.round = some round) (hbound : round.syncPeer = some peer)
    {block : FilteredBlock} {txids : List Digest} (hchecked : Checked e.chain block txids)
    (hawaited : round.requests.isAwaitedBlock block.hash = true)
    (hunready : round.requests.isReady e.chain.knows block = false) (env env' : Outlook) {at_ : Nat}
    (hreachable : isReachable env' peer = true) :
    Drops (if e.patience < at_ - round.lastProgress then [peer] else []) (e.call env (.deliver peer (.block block))).1
      ((e.call env (.deliver peer (.block block))).1.call env' (.upkeep at_)).1 := by
  have hrested := h.call env (.deliver peer (.block block))
  rw [h.call_of_unready hround hbound hchecked hawaited hunready env] at hrested ⊢
  obtain ⟨locator, hround'⟩ := exists_round_holdBack hround peer block
  have hunfinished : (round.requests.holdBack block).isFinished = false := by
    rw [Requests.isFinished_holdBack]
    exact Requests.isFinished_of_awaited hawaited
  have hsame : ((e.holdBack peer block).finishIfComplete env').1 = e.holdBack peer block := by
    rw [finishIfComplete_of_unfinished env' fun r hr => by cases hround'.symm.trans hr; exact hunfinished]
  have hpatience : (e.holdBack peer block).patience = e.patience := by
    obtain ⟨_, news, heq, -, -⟩ := holdBack_eq e peer block
    rw [heq]
  have hdrops := hrested.drops_upkeep env' at_
  rw [hsame, condemned_of_round hround' hbound, hreachable, isStalled, hunfinished, hpatience] at hdrops
  simp only [Bool.not_true, Bool.not_false, Bool.false_or, Bool.true_and, decide_eq_true_eq] at hdrops
  rw [apply_ite Option.toList] at hdrops
  exact hdrops

/-- **A peer that delivers is not dropped as stalled, unless it is for a block whose parent is missing.** Whatever else
the bound peer delivers that the round awaits, be it a transaction or a valid block, gives it its whole time again: in
every later state, an upkeep before that time is up does not drop the peer if it is still there, and gives up no round
of it. A valid block whose parent is missing gives it no time. The next upkeep drops the peer exactly if the round had
made no progress for too long before the block came. -/
theorem Reachable.dropped_without_progress {c : Chain} (he : Reachable c e) (hround : e.round = some round)
    (hbound : round.syncPeer = some peer) {item : OrphanItem} (hawaited : e.awaits item = true)
    (hvalid : ∀ block, item = .block block → ∃ txids, Checked e.chain block txids) (env : Outlook) :
    let e₁ := (e.call env (.deliver peer item)).1
    ((∀ block, item = .block block → round.requests.isReady e.chain.knows block = true) →
      ∀ turns, (∀ env' call, .call env' call ∈ turns → env.now ≤ env'.now) →
      ∀ env' at_, env.now ≤ env'.now → at_ - env.now ≤ e.patience → isReachable env' peer = true →
        ∃ dropped, Drops dropped (e₁.run turns) ((e₁.run turns).call env' (.upkeep at_)).1 ∧ peer ∉ dropped ∧
          ((e₁.run turns).syncPeer = some peer →
            dropped = [] ∧ GoesOn (e₁.run turns) ((e₁.run turns).call env' (.upkeep at_)).1)) ∧
    (∀ block, item = .block block → round.requests.isReady e.chain.knows block = false →
      ∀ env' at_, isReachable env' peer = true →
        Drops (if e.patience < at_ - round.lastProgress then [peer] else []) e₁ (e₁.call env' (.upkeep at_)).1) := by
  intro e₁
  refine ⟨fun hready turns hclock env' at_ hnow hat hreachable => ?_, ?_⟩
  · have hpaced := (paced_of_delivery hround hbound hawaited hvalid hready env).run turns hclock
    have hrested : Rested (e₁.run turns) := (he.run (.call env (.deliver peer item) :: turns)).rested
    exact hrested.upkeep_of_paced hpaced hnow hat hreachable
  · rintro block rfl hunready env' at_ hreachable
    obtain ⟨txids, hchecked⟩ := hvalid block rfl
    rw [awaits, isAwaitedBlock, hround, Option.any_some] at hawaited
    exact he.rested.drops_after_unready hround hbound hchecked hawaited hunready env env' hreachable

end Engine

namespace Sample

/-- The peer offers two blocks, the second on top of the first. -/
def paired : List Turn := crossed.take 2

def first : FilteredBlock := child genesisHash 4

def second : FilteredBlock := child first.hash 2

/-- The same peer, later. -/
def later (now : Nat) : Outlook := { outlook with now }

theorem round_paired :
    ((engine.run paired).round.any fun r =>
      r.syncPeer = some peer && r.lastProgress = 0 && r.requests.isReady (engine.run paired).chain.knows first &&
        !r.requests.isReady (engine.run paired).chain.knows second) = true ∧
      (engine.run paired).patience = 45000 ∧
      ∀ b ∈ [first, second], (engine.run paired).awaits (.block b) = true ∧ (engine.run paired).chain.knows b.hash = false ∧
        b.header.meetsTarget = true ∧ b.provedTxids = .ok [] := by
  decide +kernel

end Sample

namespace Engine

open Sample

/-- Either block comes 30 seconds after the offer, and the upkeep 20 seconds later. After the first block it drops
nobody, after the second one it drops the peer. -/
theorem dropped_without_progress_paired :
    Reachable (.ofGenesis genesis) (engine.run paired) ∧ ∃ round, (engine.run paired).round = some round ∧
      round.syncPeer = some peer ∧
      (let e₁ := ((engine.run paired).call (later 30000) (.deliver peer (.block first))).1
        ∃ dropped, Drops dropped e₁ (e₁.call (later 50000) (.upkeep 50000)).1 ∧ peer ∉ dropped) ∧
      let e₁ := ((engine.run paired).call (later 30000) (.deliver peer (.block second))).1
      Drops [peer] e₁ (e₁.call (later 50000) (.upkeep 50000)).1 := by
  have hreachable : Reachable (.ofGenesis genesis) (engine.run paired) := ⟨engine, paired, isNew_engine, rfl⟩
  obtain ⟨hany, hpatience, hblocks⟩ := round_paired
  obtain ⟨round, hround, hfacts⟩ := (Option.any_eq_true _ _).1 hany
  simp only [Bool.and_eq_true, decide_eq_true_eq, Bool.not_eq_true'] at hfacts
  obtain ⟨⟨⟨hbound, hprogress⟩, hready⟩, hunready⟩ := hfacts
  have hvalid {b : FilteredBlock} (hb : b ∈ [first, second]) (block : FilteredBlock)
      (hblock : OrphanItem.block b = .block block) : ∃ txids, Checked (engine.run paired).chain block txids := by
    cases hblock
    obtain ⟨-, hunknown, hwork, hproof⟩ := hblocks b hb
    exact ⟨[], hunknown, hwork, hproof⟩
  have hmem : first ∈ [first, second] := List.mem_cons_self
  have hmem' : second ∈ [first, second] := List.mem_cons_of_mem first List.mem_cons_self
  obtain ⟨hspared, -⟩ := hreachable.dropped_without_progress hround hbound (hblocks first hmem).1 (hvalid hmem)
    (later 30000)
  obtain ⟨-, hdropped⟩ := hreachable.dropped_without_progress hround hbound (hblocks second hmem').1 (hvalid hmem')
    (later 30000)
  refine ⟨hreachable, round, hround, hbound, ?_, ?_⟩
  · have hnil (e : Engine) : e.run [] = e := rfl
    obtain ⟨dropped, hdrops, hnot, -⟩ := hspared (fun block hblock => by cases hblock; exact hready) []
      (fun _ _ h => absurd h List.not_mem_nil) (later 50000) 50000 (by decide) (by rw [hpatience]; decide) rfl
    rw [hnil] at hdrops
    exact ⟨dropped, hdrops, hnot⟩
  · have hdrops := hdropped second rfl hunready (later 50000) 50000 rfl
    rw [hpatience, hprogress] at hdrops
    exact hdrops

end Engine
end LightClient
