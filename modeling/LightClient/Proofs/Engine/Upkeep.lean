import LightClient.Proofs.Engine.Progress
/-!
# What the upkeep leaves

After an upkeep there is nothing for another one to do (`upkeep_of_upkept`): a round that is finished is one that the
chain refuses, any other keeps its pace, a bulk round is with a peer that is there, without a round nobody is ahead of
us, and nothing has to be forgotten (`Upkept`). Some of this holds before the items that were waiting get their turn,
and every step of that turn (`Feeds`) keeps it, for a step gives up no round, and whatever it takes into one is progress.

So of what the upkeep leaves, a second one at the same time changes nothing but the record of the attempts, where it
notes that a finished round was refused once more (`Reachable.upkeep_settles`). This takes a disk that works: if the
refusal was due to a full disk, the second upkeep may find room.
-/
namespace LightClient
namespace Engine

variable {env : Outlook} {e e' : Engine} {peer : PeerId} {item : OrphanItem}

/-! ## Feeding -/

/-- **What survives the handling of every item** survives every step of the turn of what was waiting. -/
theorem Persistent.feeds {P : Engine → Prop} (h : Persistent env (fun _ _ => True) P) (hP : P e) (hfeeds : Feeds env e e') :
    P e' := by
  cases hfeeds with
  | released hround hbound hrelease =>
    obtain ⟨hash, hheld, -, rfl⟩ := Requests.releaseReady?_eq_some hrelease
    exact h.handled (h.release hP hround hheld) trivial (processBlock_handled env _ _ _)
  | used ho _ => exact h.useOrphan hP _
  | forgotten => exact h.retain _ hP

/-- **What the opening of a call ensures and every step keeps** holds after the call. -/
theorem Rested.call_induction {P : Engine → Prop} (h : Rested e) {call : Call} (hcall : call.isVoid = false)
    (hopening : P (e.opening env call)) (hstep : ∀ {a b : Engine}, P a → Feeds env a b → P b) : P (e.call env call).1 := by
  have hturn := resolveOrphans_feeds env (h.sound_opening env call)
  rw [call_fst, hcall, if_neg Bool.false_ne_true]
  generalize (e.opening env call).resolveOrphans env = e' at hturn ⊢
  induction hturn with
  | refl => exact hopening
  | tail _ hfeeds ih => exact hstep ih hfeeds

/-! ## The next peer -/

theorem Pursues.of_round {round : Round} (hround : e.round = some round)
    (hreachable : ∀ bound, round.syncPeer = some bound → isReachable env bound = true) : Pursues env e where
  behind hnone := by
    rw [hround] at hnone
    cases hnone
  reachable hbound := by
    rw [syncPeer, hround, Option.bind_some] at hbound
    exact hreachable _ hbound

theorem Pursues.completion (h : Pursues env e) (hcompletion : Completion env e e') : Pursues env e' := by
  cases hcompletion with
  | unfinished _ => exact h
  | @refused round store cause _ _ hcommit =>
    refine h.congr rfl ?_
    have hchain : (e.attempt round store (.error cause)).chain = e.chain := Store.commit_eq_error hcommit
    rw [hchain]
  | committed _ _ _ _ hnext => exact hnext.2

theorem Handled.pursues (h : Handled env e peer item e') (hwelcome : e.Welcome peer) (hpursues : Pursues env e) :
    Pursues env e' := by
  have hsync {round : Round} (hround : e.round = some round) (bound : PeerId) (hbound : round.syncPeer = some bound) :
      isReachable env bound = true := hpursues.reachable (syncPeer_eq_some_iff.2 ⟨round, hround, hbound⟩)
  cases h with
  | dropped => exact hpursues
  | pooled _ _ => exact hpursues.congr rfl rfl
  | rejected hbound hne hawaited =>
    rw [hwelcome.not_rejected hbound hne] at hawaited
    cases hawaited
  | heldBack hround _ _ _ =>
    obtain ⟨round', hround', hsame, -⟩ := round_holdBack hround peer _
    exact .of_round hround' fun bound hbound => hsync hround bound (hsame.symm.trans hbound)
  | recorded hround _ _ _ _ hcompletion =>
    refine (Pursues.of_round (round_recordBlock env e _ peer _ _) fun bound hbound => ?_).completion hcompletion
    rw [syncPeer_receiveBlock] at hbound
    exact hsync hround bound hbound
  | begun _ _ _ hcompletion =>
    refine (Pursues.of_round (round_recordBlock env e _ peer _ _) fun bound hbound => ?_).completion hcompletion
    rw [syncPeer_receiveBlock] at hbound
    cases hbound
  | offered _ =>
    obtain ⟨hframe, hround⟩ := frame_offerUnconfirmed env e _
    exact hpursues.congr hround (congrArg (·.length - 1) hframe.blocks.main)
  | fetched he₁ hround _ _ hcompletion =>
    refine (Pursues.of_round rfl fun bound hbound => ?_).completion hcompletion
    exact hsync hround bound ((syncPeer_receiveTx _ _ _).symm.trans hbound)

theorem Feeds.pursues (h : Feeds env e e') (hpursues : Pursues env e) : Pursues env e' := by
  cases h with
  | @released round bound block requests hround hbound _ =>
    have hreleased : Pursues env { e with round := some { round with requests } } :=
      .of_round rfl fun p hp => hpursues.reachable (syncPeer_eq_some_iff.2 ⟨round, hround, hp⟩)
    exact (processBlock_handled env _ bound block).pursues (welcome_of_bound rfl hbound) hreleased
  | used ho hwelcome =>
    rw [useOrphan_of_get? ho]
    exact (process_handled env _ _ _).pursues hwelcome (hpursues.congr rfl rfl)
  | forgotten => exact hpursues.congr rfl rfl

theorem restartWithout_reachable (env : Outlook) (e : Engine) (offender : PeerId) {bound : PeerId}
    (hbound : (e.restartWithout env offender).syncPeer = some bound) : isReachable env bound = true := by
  rw [restartWithout_eq] at hbound
  split at hbound
  · rename_i peer hselect
    obtain ⟨q, hq, rfl⟩ := PeerPolicy.exists_candidate_of_select hselect
    cases hbound
    exact isReachable_of_mem_candidates hq
  · cases hbound

/-- **The review leaves no round with a peer that is gone.** -/
theorem checkRound_reachable (env : Outlook) (e : Engine) (now : Nat) {bound : PeerId}
    (hbound : (e.checkRound env now).syncPeer = some bound) : isReachable env bound = true := by
  obtain ⟨hreachable, -, heq⟩ | ⟨-, offender, -, -, -, heq⟩ | ⟨-, -, -, -, heq⟩ := checkRound_cases env e now
  · rw [heq] at hbound
    exact hreachable bound hbound
  · rw [heq] at hbound
    exact restartWithout_reachable env e offender hbound
  · rw [heq] at hbound
    cases hbound

/-! ## Refusals -/

/-- A finished round is one that the chain does not take. -/
def Refuses (e : Engine) : Prop :=
  ∀ round, e.round = some round → round.requests.isFinished = true →
    ∃ cause, e.chain.commit round.requests.batch = .error cause

theorem Refuses.of_unfinished (h : ∀ round, e.round = some round → round.requests.isFinished = false) : Refuses e := by
  intro round hround hfinished
  rw [h round hround] at hfinished
  cases hfinished

theorem Refuses.of_fresh (h : ∀ round, e.round = some round → round.requests = .empty) : Refuses e :=
  .of_unfinished fun round hround => by rw [h round hround]; rfl

theorem Refuses.same (h : Refuses e) (hround : e'.round = e.round) (hchain : e'.chain = e.chain) : Refuses e' := by
  intro round hr hfinished
  rw [hchain]
  exact h round (hround.symm.trans hr) hfinished

theorem Refuses.reviewed (h : Refuses e) (hreviewed : Reviewed env e e') : Refuses e' := by
  cases hreviewed with
  | kept => exact h
  | lost _ => exact .of_fresh fun _ hr => (restartWithout_onward env e _).fresh rfl hr
  | abandoned _ => exact .of_unfinished fun _ hr => by cases hr

theorem Refuses.startSync (h : Refuses e) (env : Outlook) (prefer : Option PeerId) :
    Refuses (e.startSync env prefer).1 := by
  cases hround : e.round with
  | none => exact .of_fresh fun _ hr => (startSync_onward env e prefer).fresh hround hr
  | some round =>
    rw [startSync_of_round (by rw [hround]; rfl)]
    exact h

/-- **With a disk that works, only the chain itself refuses a round.** -/
theorem Completion.refuses (h : Completion env e e') (hdisk : e.store.outages = 0) : Refuses e' := by
  cases h with
  | unfinished hnone => exact .of_unfinished hnone
  | refused hround _ hcommit =>
    obtain ⟨rfl, hrefused⟩ := Store.commit_of_disk hdisk hcommit
    intro r hr _
    cases hround.symm.trans hr
    exact ⟨_, hrefused⟩
  | committed _ _ _ honward _ => exact .of_fresh fun _ hr => honward.fresh rfl hr

theorem Handled.refuses (h : Handled env e peer item e') (hdisk : e.store.outages = 0) (hrefuses : Refuses e) :
    Refuses e' := by
  cases h with
  | dropped => exact hrefuses
  | pooled _ _ => exact hrefuses.same rfl rfl
  | rejected _ _ _ => exact .of_fresh fun _ hr => (restartWithout_onward env e peer).fresh rfl hr
  | heldBack hround _ hawaited _ =>
    obtain ⟨round', hround', -, hrequests⟩ := round_holdBack hround peer _
    refine .of_unfinished fun r hr => ?_
    cases hround'.symm.trans hr
    rw [hrequests, Requests.isFinished_holdBack]
    exact Requests.isFinished_of_awaited hawaited
  | recorded _ _ _ _ _ hcompletion | begun _ _ _ hcompletion =>
    exact hcompletion.refuses (by rw [(roundOnly_recordBlock env e _ peer _ _).store]; exact hdisk)
  | @offered tx _ =>
    obtain ⟨hframe, hround⟩ := frame_offerUnconfirmed env e tx
    intro r hr hfinished
    refine hframe.blocks.refuses ?_ (hrefuses r (hround.symm.trans hr) hfinished)
    rw [chain, store_offerUnconfirmed]
    exact e.store.isClosed_commitUnconfirmed tx
  | fetched he₁ _ _ _ hcompletion =>
    refine hcompletion.refuses ?_
    obtain rfl | ⟨-, rfl⟩ := he₁
    · exact hdisk
    · exact (congrArg Store.outages (store_offerUnconfirmed env e _)).trans
        ((e.store.outages_commitUnconfirmed _).trans hdisk)

theorem Feeds.refuses (h : Feeds env e e') (hdisk : e.store.outages = 0) (hrefuses : Refuses e) (hbooked : Booked e) :
    Refuses e' := by
  cases h with
  | @released round bound block requests hround hbound hrelease =>
    obtain ⟨hash, hheld, -, rfl⟩ := Requests.releaseReady?_eq_some hrelease
    refine (processBlock_handled env _ bound block).refuses hdisk (.of_unfinished fun r hr => ?_)
    -- the block that is released is still awaited
    have hawaited := ((hbooked.round hround).heldBack hheld).2
    cases hr
    exact Requests.isFinished_of_awaited hawaited
  | used ho _ =>
    rw [useOrphan_of_get? ho]
    exact (process_handled env _ _ _).refuses hdisk (hrefuses.same rfl rfl)
  | forgotten => exact hrefuses.same rfl rfl

/-! ## Nothing to forget -/

theorem Completion.disk (h : Completion env e e') (hdisk : e.store.outages = 0) : e'.store.outages = 0 := by
  cases h with
  | unfinished _ => exact hdisk
  | refused _ _ hcommit =>
    obtain ⟨rfl, -⟩ := Store.commit_of_disk hdisk hcommit
    exact hdisk
  | @committed round _ _ _ _ hcommit honward _ =>
    have houtages := e.store.outages_commit round.requests.batch
    rw [hcommit, hdisk] at houtages
    rw [honward.roundOnly.store]
    exact houtages

/-- The disk works, no orphan has waited too long, and every fault that is remembered still counts. -/
structure Trim (env : Outlook) (e : Engine) : Prop where
  disk : e.store.outages = 0
  young {hash : Digest} {o : Orphan} : e.orphans.get? hash = some o → env.now - o.received < e.orphans.lifetime
  policy : e.policy.prune env.now = e.policy

namespace Trim

theorem same (h : Trim env e) (hdisk : e'.store.outages = e.store.outages) (horphans : e'.orphans = e.orphans)
    (hpolicy : e'.policy = e.policy) : Trim env e' where
  disk := hdisk.trans h.disk
  young ho := by
    rw [horphans] at ho ⊢
    exact h.young ho
  policy := by
    rw [hpolicy]
    exact h.policy

theorem of_roundOnly (h : Trim env e) (hsame : RoundOnly e e') (hpolicy : e'.policy = e.policy) : Trim env e' :=
  h.same (congrArg Store.outages hsame.store) hsame.orphans hpolicy

theorem expire (env : Outlook) (hdisk : e.store.outages = 0) : Trim env (e.expire env env.now) where
  disk := hdisk
  young ho := by
    obtain ⟨-, hyoung⟩ := Option.filter_eq_some_iff.1 ((Orphans.get?_retain _ _ _).symm.trans ho)
    exact of_decide_eq_true hyoung
  policy := PeerPolicy.prune_prune e.policy env.now

theorem onward (h : Trim env e) (honward : Onward env e e') : Trim env e' := by
  refine h.of_roundOnly honward.roundOnly ?_
  cases honward with
  | idle | unbound | begun _ => rfl

theorem completion (h : Trim env e) (hcompletion : Completion env e e') : Trim env e' := by
  refine h.same ((hcompletion.disk h.disk).trans h.disk.symm) hcompletion.orphans ?_
  cases hcompletion with
  | unfinished _ | refused _ _ _ => rfl
  | committed _ _ _ honward _ =>
    cases honward with
    | idle | unbound | begun _ => rfl

theorem recordBlock (h : Trim env e) (round : Round) (peer : PeerId) (block : FilteredBlock) (txids : List Digest) :
    Trim env (e.recordBlock env round peer block txids) := by
  obtain ⟨news, heq, -⟩ := recordBlock_eq env e round peer block txids
  rw [heq]
  exact h.same rfl rfl rfl

theorem offerUnconfirmed (h : Trim env e) (tx : Transaction) : Trim env (e.offerUnconfirmed env tx).1 := by
  obtain ⟨falsePositives, filter, txCache, verdicts, news, heq, -⟩ := offerUnconfirmed_fst env e tx
  rw [heq]
  exact h.same (e.store.outages_commitUnconfirmed tx) rfl rfl

/-- An item that is pooled now has not waited too long, if anything ever waits. -/
theorem addOrphan (h : Trim env e) (hlifetime : 0 < e.orphans.lifetime) (hash : Digest) (item : OrphanItem) (peer : PeerId) :
    Trim env (e.addOrphan env hash item peer) where
  disk := h.disk
  young ho := by
    rw [Engine.addOrphan] at ho ⊢
    simp only [Orphans.lifetime_insert]
    obtain hold | ⟨-, rfl⟩ := Orphans.get?_of_get?_insert ho
    · exact h.young hold
    · rw [Nat.sub_self]
      exact hlifetime
  policy := h.policy

theorem handled (h : Trim env e) (hhandled : Handled env e peer item e') (hwelcome : e.Welcome peer)
    (hlifetime : e.awaits item = false → 0 < e.orphans.lifetime) : Trim env e' := by
  cases hhandled with
  | dropped => exact h
  | pooled hnot _ => exact h.addOrphan (hlifetime hnot) _ _ _
  | rejected hbound hne hawaited =>
    rw [hwelcome.not_rejected hbound hne] at hawaited
    cases hawaited
  | @heldBack block _ _ _ _ _ =>
    obtain ⟨round, news, heq, -, -⟩ := holdBack_eq e peer block
    rw [heq]
    exact h.same rfl rfl rfl
  | recorded _ _ _ _ _ hcompletion | begun _ _ _ hcompletion => exact (h.recordBlock _ peer _ _).completion hcompletion
  | offered _ => exact h.offerUnconfirmed _
  | fetched he₁ _ _ _ hcompletion =>
    refine Trim.completion ?_ hcompletion
    obtain rfl | ⟨-, rfl⟩ := he₁
    · exact ⟨h.disk, h.young, h.policy⟩
    · exact (h.offerUnconfirmed _).of_roundOnly ⟨rfl, rfl, rfl, rfl, rfl⟩ rfl

theorem feeds (h : Trim env e) (hfeeds : Feeds env e e') (hbooked : Booked e) : Trim env e' := by
  cases hfeeds with
  | @released round bound block requests hround hbound hrelease =>
    obtain ⟨hash, hheld, -, rfl⟩ := Requests.releaseReady?_eq_some hrelease
    have hreleased : Trim env { e with round := some { round with requests :=
        { round.requests with heldBack := round.requests.heldBack.erase hash } } } := ⟨h.disk, h.young, h.policy⟩
    refine hreleased.handled (processBlock_handled env _ bound block) (welcome_of_bound rfl hbound) fun hnot => ?_
    -- what is held back is awaited, so it does not go back to the pool
    have hawaited : round.requests.isAwaitedBlock block.hash = true := by
      obtain ⟨rfl, hawaited⟩ := (hbooked.round hround).heldBack hheld
      exact hawaited
    exact absurd (hawaited.symm.trans hnot) (by decide)
  | @used hash o ho hwelcome =>
    rw [useOrphan_of_get? ho]
    have hout : Trim env { e with orphans := e.orphans.erase hash } := by
      refine ⟨h.disk, fun hx => ?_, h.policy⟩
      simp only [Orphans.lifetime_erase]
      exact h.young (Orphans.get?_of_get?_erase hx)
    refine hout.handled (process_handled env _ _ _) hwelcome fun _ => ?_
    simp only [Orphans.lifetime_erase]
    exact Nat.lt_of_le_of_lt (Nat.zero_le _) (h.young ho)
  | forgotten => exact ⟨h.disk, fun ho => h.young (Orphans.get?_of_get?_retain ho), h.policy⟩

end Trim

/-! ## The upkeep -/

theorem opening_upkeep (env : Outlook) (e : Engine) (now : Nat) :
    e.opening env (.upkeep now) =
      ((((e.finishIfComplete env).1.checkRound env now).expire env now).startSync env none).1 := rfl

theorem Pursues.startSync (h : ∀ bound, e.syncPeer = some bound → isReachable env bound = true)
    (prefer : Option PeerId) : Pursues env (e.startSync env prefer).1 := by
  cases hround : e.round with
  | none => exact startSync_pursues env hround prefer
  | some round =>
    rw [startSync_of_round (by rw [hround]; rfl)]
    exact .of_round hround fun bound hbound => h bound (syncPeer_eq_some_iff.2 ⟨round, hround, hbound⟩)

theorem Rested.pursues_upkeep (h : Rested e) (env : Outlook) (now : Nat) :
    Pursues env (e.call env (.upkeep now)).1 := by
  refine h.call_induction rfl ?_ fun hpursues hfeeds => hfeeds.pursues hpursues
  have hreviewed (bound : PeerId)
      (hbound : (((e.finishIfComplete env).1.checkRound env now).expire env now).syncPeer = some bound) :
      isReachable env bound = true := checkRound_reachable env (e.finishIfComplete env).1 now hbound
  rw [opening_upkeep]
  exact .startSync hreviewed none

/-- **The review leaves no round that is stalled.** -/
theorem checkRound_paced (env : Outlook) (e : Engine) (now : Nat) (hnow : now ≤ env.now) :
    Paced (now - e.patience) e.patience (e.checkRound env now) := by
  obtain ⟨-, hfresh, heq⟩ | ⟨-, offender, -, -, -, heq⟩ | ⟨-, -, -, -, heq⟩ := checkRound_cases env e now
  · rw [heq]
    refine ⟨rfl, fun hround hunfinished => ?_⟩
    have hnot := hfresh _ hround
    rw [isStalled, hunfinished, Bool.not_false, Bool.true_and, decide_eq_false_iff_not] at hnot
    omega
  · rw [heq]
    have hsince : now - e.patience ≤ env.now := Nat.le_trans (Nat.sub_le _ _) hnow
    exact Paced.onward (e := e.drop env offender) rfl rfl hsince (restartWithout_onward env e offender)
  · rw [heq]
    exact .of_none rfl rfl

theorem paced_upkeep (env : Outlook) (e : Engine) {now : Nat} (hnow : now ≤ env.now) :
    Paced (now - e.patience) e.patience (e.call env (.upkeep now)).1 := by
  have hsince : now - e.patience ≤ env.now := Nat.le_trans (Nat.sub_le _ _) hnow
  have hpatience : (e.finishIfComplete env).1.patience = e.patience := by
    have hany : Paced 0 e.patience e := ⟨rfl, fun _ _ => Nat.zero_le _⟩
    exact (hany.completion (Nat.zero_le _) (finishIfComplete_completion env e)).patience
  have hreviewed := checkRound_paced env (e.finishIfComplete env).1 now hnow
  rw [hpatience] at hreviewed
  have hexpired : Paced (now - e.patience) e.patience (((e.finishIfComplete env).1.checkRound env now).expire env now) :=
    hreviewed.same rfl rfl
  rw [call_fst, opening_upkeep]
  exact (Paced.persistent hsince _).resolveOrphans ((Paced.lasting hsince _).startSync hexpired none)

theorem Rested.steady_upkeep (h : Rested e) (env : Outlook) (hdisk : e.store.outages = 0) :
    Refuses (e.call env (.upkeep env.now)).1 ∧ Trim env (e.call env (.upkeep env.now)).1 := by
  have hpersistent := stable_booked.invariant.persistent env
  suffices hsteady : Booked (e.call env (.upkeep env.now)).1 ∧ Refuses (e.call env (.upkeep env.now)).1 ∧
      Trim env (e.call env (.upkeep env.now)).1 from hsteady.2
  refine h.call_induction (P := fun e => Booked e ∧ Refuses e ∧ Trim env e) rfl ⟨?_, ?_, ?_⟩
    fun ⟨hbooked, hrefuses, htrim⟩ hfeeds => ⟨hpersistent.feeds hbooked hfeeds,
      hfeeds.refuses htrim.disk hrefuses hbooked, htrim.feeds hfeeds hbooked⟩
  · exact stable_booked.invariant.opening h.booked env fun _ _ _ => trivial
  · have hreviewed := ((finishIfComplete_completion env e).refuses hdisk).reviewed
      (checkRound_reviewed env (e.finishIfComplete env).1 env.now)
    have hexpired : Refuses (((e.finishIfComplete env).1.checkRound env env.now).expire env env.now) :=
      hreviewed.same rfl rfl
    rw [opening_upkeep]
    exact hexpired.startSync env none
  · have hdisk' : ((e.finishIfComplete env).1.checkRound env env.now).store.outages = 0 := by
      rw [(checkRound_reviewed env (e.finishIfComplete env).1 env.now).roundOnly.store]
      exact (finishIfComplete_completion env e).disk hdisk
    rw [opening_upkeep]
    exact (Trim.expire env hdisk').onward (startSync_onward env _ none)

/-! ### Once more -/

/-- What an upkeep leaves. -/
structure Upkept (env : Outlook) (e : Engine) : Prop where
  pursues : Pursues env e
  paced : Paced (env.now - e.patience) e.patience e
  refuses : Refuses e
  trim : Trim env e

theorem Rested.upkept (h : Rested e) (env : Outlook) (hdisk : e.store.outages = 0) :
    Upkept env (e.call env (.upkeep env.now)).1 := by
  obtain ⟨hrefuses, htrim⟩ := h.steady_upkeep env hdisk
  have hpaced := paced_upkeep env e (Nat.le_refl env.now)
  refine ⟨h.pursues_upkeep env env.now, ?_, hrefuses, htrim⟩
  rw [hpaced.patience]
  exact hpaced

/-- The chain refuses a finished round once more, and that is all. -/
theorem finishIfComplete_of_refuses (env : Outlook) (hrefuses : Refuses e) (hdisk : e.store.outages = 0) :
    ∃ late, (e.finishIfComplete env).1 = { e with attempts := e.attempts ++ late } ∧
      ∀ a ∈ late, e.round = some a.round ∧ a.round.requests.isFinished = true := by
  have hcompletion := finishIfComplete_completion env e
  generalize (e.finishIfComplete env).1 = e' at hcompletion
  cases hcompletion with
  | unfinished _ => exact ⟨[], by rw [List.append_nil], fun _ hmem => absurd hmem List.not_mem_nil⟩
  | refused hround hfinished hcommit =>
    obtain ⟨rfl, -⟩ := Store.commit_of_disk hdisk hcommit
    refine ⟨[_], rfl, fun a hmem => ?_⟩
    cases List.mem_singleton.1 hmem
    exact ⟨hround, hfinished⟩
  | committed hround hfinished hcommit _ _ =>
    obtain ⟨events, hcommitted⟩ := Store.commit_eq_ok hcommit
    obtain ⟨cause, hrefused⟩ := hrefuses _ hround hfinished
    cases hcommitted.symm.trans hrefused

theorem Trim.expire_eq_self (h : Trim env e) (hpool : e.orphans.Consistent) : e.expire env env.now = e := by
  have horphans : e.orphans.expire env.now = e.orphans :=
    hpool.retain_eq_self fun _ _ ho => decide_eq_true (h.young ho)
  rw [Engine.expire, horphans, h.policy]

theorem Pursues.startSync_eq_self (h : Pursues env e) (prefer : Option PeerId) : e.startSync env prefer = (e, false) := by
  cases hround : e.round with
  | none => exact startSync_of_behind (h.behind hround)
  | some round => exact startSync_of_round (by rw [hround]; rfl)

/-- **There is nothing for another upkeep to do.** -/
theorem upkeep_of_upkept (h : Rested e) (hupkept : Upkept env e) :
    ∃ late, (e.call env (.upkeep env.now)).1 = { e with attempts := e.attempts ++ late } ∧
      ∀ a ∈ late, e.round = some a.round ∧ a.round.requests.isFinished = true := by
  obtain ⟨late, hfinish, hlate⟩ := finishIfComplete_of_refuses env hupkept.refuses hupkept.trim.disk
  refine ⟨late, ?_, hlate⟩
  generalize e.attempts ++ late = attempts at hfinish ⊢
  have hquiet : Quiet { e with attempts } := h.quiet.congr (.refl _) rfl rfl
  have hpursues : Pursues env { e with attempts } := hupkept.pursues.congr rfl rfl
  have hpaced : Paced (env.now - e.patience) e.patience { e with attempts } := hupkept.paced.same rfl rfl
  have htrim : Trim env { e with attempts } := hupkept.trim.same rfl rfl rfl
  have hcheck : ({ e with attempts } : Engine).checkRound env env.now = { e with attempts } :=
    checkRound_eq_self (fun _ => hpursues.reachable) fun _ hround => hpaced.not_stalled (by omega) hround
  rw [call_fst, opening_upkeep, hfinish, hcheck, htrim.expire_eq_self h.sound.consistent,
    hpursues.startSync_eq_self]
  exact hquiet.resolveOrphans h.sound.consistent env

/-- **The upkeep leaves the engine settled.** In every reachable state and for every time at which the upkeep is called,
it leaves no round only if none of the established peers is above the chain, a bulk round only with an established peer,
and an unfinished round only if that made progress within the time allowed. If the disk works, a second upkeep at the
same time changes nothing and gives no command; it only adds to the record of the attempts when it tries a refused round
again. -/
theorem Reachable.upkeep_settles {c : Chain} (he : Reachable c e) (env : Outlook) :
    let e₁ := (e.call env (.upkeep env.now)).1
    (e₁.round = none → ∀ p ∈ env.peers, p.isEstablished = true → p.height ≤ e₁.chain.height) ∧
    (∀ bound, e₁.syncPeer = some bound → ∃ p ∈ env.peers, p.id = bound ∧ p.isEstablished = true) ∧
    (∀ round, e₁.round = some round → round.requests.isFinished = false →
      env.now - round.lastProgress ≤ e₁.patience) ∧
    (e.store.outages = 0 → ∃ late, (e₁.call env (.upkeep env.now)).1 = { e₁ with attempts := e₁.attempts ++ late } ∧
      ∀ a ∈ late, e₁.round = some a.round ∧ a.round.requests.isFinished = true) := by
  intro e₁
  have hpursues := he.rested.pursues_upkeep env env.now
  have hpaced := paced_upkeep env e (Nat.le_refl env.now)
  refine ⟨fun hnone p hp hestablished => ?_, fun bound hbound => ?_, fun round hround hunfinished => ?_, fun hdisk => ?_⟩
  · by_contra hahead
    have hcandidate : p ∈ PeerPolicy.candidates env.peers e₁.chain.height none :=
      PeerPolicy.mem_candidates.2 ⟨hp, hestablished, Nat.lt_of_not_le hahead, by simp⟩
    rw [hpursues.behind hnone] at hcandidate
    cases hcandidate
  · obtain ⟨p, hp, hfound⟩ := List.any_eq_true.1 (hpursues.reachable hbound)
    rw [Bool.and_eq_true, decide_eq_true_eq] at hfound
    exact ⟨p, hp, hfound⟩
  · have hprogress := hpaced.progress hround hunfinished
    have hpatience : e₁.patience = e.patience := hpaced.patience
    omega
  · exact upkeep_of_upkept (he.rested.call env _) (he.rested.upkept env hdisk)

end Engine

namespace Sample

theorem upkeep_fork :
    (engine.run fork).store.outages = 0 ∧
      (((engine.run fork).call outlook (.upkeep outlook.now)).1.round.any fun r =>
        r.syncPeer = some peer && r.requests.isFinished) = true := by
  decide +kernel

end Sample

namespace Engine

open Sample

/-- The finished round that forks stays with its peer, who is still there. The second upkeep tries it again. -/
theorem upkeep_settles_fork :
    Reachable (.ofGenesis genesis) (engine.run fork) ∧ (engine.run fork).store.outages = 0 ∧
      let e₁ := ((engine.run fork).call outlook (.upkeep outlook.now)).1
      (∃ round, e₁.round = some round ∧ round.syncPeer = some peer ∧ round.requests.isFinished = true) ∧
        (∃ p ∈ outlook.peers, p.id = peer ∧ p.isEstablished = true) ∧
        ∃ late, (e₁.call outlook (.upkeep outlook.now)).1 = { e₁ with attempts := e₁.attempts ++ late } := by
  have hreachable : Reachable (.ofGenesis genesis) (engine.run fork) := ⟨engine, fork, isNew_engine, rfl⟩
  obtain ⟨hdisk, hany⟩ := upkeep_fork
  obtain ⟨round, hround, hfacts⟩ := (Option.any_eq_true _ _).1 hany
  simp only [Bool.and_eq_true, decide_eq_true_eq] at hfacts
  obtain ⟨hbound, hfinished⟩ := hfacts
  obtain ⟨-, hpresent, -, hsettled⟩ := hreachable.upkeep_settles outlook
  obtain ⟨late, hsame, -⟩ := hsettled hdisk
  exact ⟨hreachable, hdisk, ⟨round, hround, hbound, hfinished⟩,
    hpresent peer (syncPeer_eq_some_iff.2 ⟨round, hround, hbound⟩), late, hsame⟩

end Engine
end LightClient
