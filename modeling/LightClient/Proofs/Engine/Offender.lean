import Mathlib.Data.List.Basic
import Mathlib.Logic.Relation
import LightClient.Proofs.Engine.Quiescence
/-!
# What follows when a peer is dropped

A call drops one peer at most, and it does so before the items that were waiting get their turn (`opening_drop`). Those
are never held against the peer that delivered them (`resolveOrphans_spares`): what can be used while a round is bound
comes from the bound peer, and a round that begins meanwhile asks for nothing (`Welcome`).

The round that begins in place of the old one is with another peer than the one that was dropped, if another one is
ahead of us. Then that is the last word. If there is no other, no round begins at that point. But the upkeep goes on to
choose once more, and this time the offender is a candidate like any other: it is bound again in the call that drops it
(`Reachable.drop_offender`). Other calls stay without a round, for the transactions that were waiting begin none
(`persistent_idle`), and only a block on the tip does.
-/
namespace LightClient

/-- The command binds the peer, or sends something to it alone. -/
def Command.isFor (p : PeerId) : Command → Bool
  | .bind bound => bound = some p
  | .send peer _ => peer = p
  | .broadcast _ | .disconnect _ | .announce _ => false

namespace Engine

open Relation (ReflTransGen)

/-! ## Calls that drop nobody -/

/-- The commands since `e` are all of one kind. -/
def Adds (kind : Command → Prop) (e e' : Engine) : Prop :=
  ∃ commands, e'.commands = e.commands ++ commands ∧ ∀ c ∈ commands, kind c

namespace Adds

variable {kind : Command → Prop} {e e₁ e' : Engine}

theorem same (h : e'.commands = e.commands) : Adds kind e e' :=
  ⟨[], by rw [h, List.append_nil], fun _ hmem => absurd hmem List.not_mem_nil⟩

theorem one {c : Command} (h : e'.commands = e.commands ++ [c]) (hc : kind c) : Adds kind e e' :=
  ⟨[c], h, fun _ hmem => List.mem_singleton.1 hmem ▸ hc⟩

theorem trans (h : Adds kind e e₁) (h' : Adds kind e₁ e') : Adds kind e e' := by
  obtain ⟨first, hfirst, hkind⟩ := h
  obtain ⟨second, hsecond, hkind'⟩ := h'
  refine ⟨first ++ second, by rw [hsecond, hfirst, List.append_assoc], fun c hmem => ?_⟩
  exact (List.mem_append.1 hmem).elim (hkind c) (hkind' c)

end Adds

/-- The commands since `e` drop nobody. -/
abbrev Spares (e e' : Engine) : Prop := Adds (fun c => ∀ peer, c ≠ .disconnect peer) e e'

theorem Adds.not_drop {e e' : Engine} (h : Spares e e') {before after : List Command} {p : PeerId} :
    e'.commands ≠ e.commands ++ before ++ .disconnect p :: after := by
  obtain ⟨commands, hcommands, hspared⟩ := h
  intro hdrop
  rw [hcommands, List.append_assoc, List.append_cancel_left_eq] at hdrop
  refine hspared (.disconnect p) ?_ p rfl
  rw [hdrop]
  exact List.mem_append_right _ List.mem_cons_self

theorem commands_beginRound (env : Outlook) (e : Engine) (peer : PeerId) :
    (e.beginRound env peer).commands =
      e.commands ++ [.bind (some peer), .send peer (.getBlocks e.chain.locator Digest.zero)] := by
  simp [beginRound, askForBlocks, send, command, chain]

theorem Onward.spares {env : Outlook} {e e' : Engine} (h : Onward env e e') : Spares e e' := by
  cases h with
  | idle => exact .same rfl
  | unbound => exact .one rfl fun _ h => by cases h
  | begun peer => exact ⟨_, commands_beginRound env e peer, by simp⟩

theorem adds_holdBack {kind : Command → Prop} {bound : PeerId}
    (hkind : ∀ locator, kind (.send bound (.getBlocks locator Digest.zero))) (e : Engine) (block : FilteredBlock) :
    Adds kind e (e.holdBack bound block) := by
  obtain ⟨round, news, heq, -, hnews⟩ := holdBack_eq e bound block
  rw [heq]
  refine ⟨news, rfl, fun c hc => ?_⟩
  obtain ⟨locator, rfl⟩ := hnews c hc
  exact hkind locator

theorem spares_holdBack (e : Engine) (bound : PeerId) (block : FilteredBlock) : Spares e (e.holdBack bound block) :=
  adds_holdBack (fun _ _ h => by cases h) e block

theorem adds_recordBlock {kind : Command → Prop} {peer : PeerId}
    (hkind : ∀ txids : List Digest, kind (.send peer (.getData (txids.map .tx)))) (env : Outlook) (e : Engine)
    (round : Round) (block : FilteredBlock) (txids : List Digest) :
    Adds kind e (e.recordBlock env round peer block txids) := by
  obtain ⟨news, heq, hnews⟩ := recordBlock_eq env e round peer block txids
  rw [heq]
  refine ⟨news, rfl, fun c hc => ?_⟩
  obtain ⟨wanted, rfl⟩ := hnews c hc
  exact hkind wanted

theorem spares_recordBlock (env : Outlook) (e : Engine) (round : Round) (peer : PeerId) (block : FilteredBlock)
    (txids : List Digest) : Spares e (e.recordBlock env round peer block txids) :=
  adds_recordBlock (fun _ _ h => by cases h) env e round block txids

theorem adds_offerUnconfirmed {kind : Command → Prop} (hkind : ∀ message, kind (.broadcast message)) (env : Outlook)
    (e : Engine) (tx : Transaction) : Adds kind e (e.offerUnconfirmed env tx).1 := by
  obtain ⟨falsePositives, filter, txCache, verdicts, news, heq, hnews⟩ := offerUnconfirmed_fst env e tx
  rw [heq]
  refine ⟨news, rfl, fun c hc => ?_⟩
  obtain ⟨message, rfl⟩ := hnews c hc
  exact hkind message

theorem spares_offerUnconfirmed (env : Outlook) (e : Engine) (tx : Transaction) :
    Spares e (e.offerUnconfirmed env tx).1 := adds_offerUnconfirmed (fun _ _ h => by cases h) env e tx

theorem Offered.spares {e e' : Engine} {peer : PeerId} (h : Offered e peer e') : Spares e e' := by
  cases h with
  | ignored => exact .same rfl
  | requested _ _ | emptied _ | extended _ _ _ _ _ _ _ _ => exact .one rfl fun _ h => by cases h

theorem Completion.spares {env : Outlook} {e e' : Engine} (h : Completion env e e') : Spares e e' := by
  cases h with
  | unfinished _ => exact .same rfl
  | refused _ _ _ => exact .same rfl
  | committed _ _ _ honward _ =>
    refine Adds.trans ?_ honward.spares
    exact .one rfl fun _ h => by cases h

/-- Only a peer that delivers what was asked of another one is dropped. -/
theorem Handled.spares {env : Outlook} {e e' : Engine} {peer : PeerId} {item : OrphanItem}
    (h : Handled env e peer item e') : Spares e e' ∨ e' = e.restartWithout env peer ∧ e.awaits item = true ∧
      ∃ bound, e.syncPeer = some bound ∧ peer ≠ bound := by
  cases h with
  | dropped => exact Or.inl (.same rfl)
  | pooled _ _ => exact Or.inl (.same rfl)
  | rejected hsync hne hawaited => exact Or.inr ⟨rfl, hawaited, _, hsync, hne⟩
  | heldBack _ _ _ _ => exact Or.inl (spares_holdBack e peer _)
  | recorded _ _ _ _ _ hcompletion | begun _ _ _ hcompletion =>
    exact Or.inl ((spares_recordBlock env e _ peer _ _).trans hcompletion.spares)
  | offered _ => exact Or.inl (spares_offerUnconfirmed env e _)
  | fetched he₁ _ _ _ hcompletion =>
    refine Or.inl (Adds.trans ?_ hcompletion.spares)
    obtain rfl | ⟨-, rfl⟩ := he₁
    · exact .same rfl
    · exact spares_offerUnconfirmed env e _

/-! ## Items that were waiting -/

/-- Nothing can be held against the peer: the round is bound to it or to nobody, or it asks for nothing. -/
def Welcome (e : Engine) (peer : PeerId) : Prop :=
  ∀ round bound, e.round = some round → round.syncPeer = some bound → peer = bound ∨ round.requests = .empty

theorem not_awaits_of_empty {e : Engine} {round : Round} (hround : e.round = some round)
    (hempty : round.requests = .empty) (item : OrphanItem) : e.awaits item = false := by
  cases item with
  | block block =>
    rw [awaits, isAwaitedBlock, hround, Option.any_some, hempty]
    rfl
  | tx tx =>
    rw [awaits, isAwaitedTx, hround, Option.any_some, hempty]
    rfl

/-- A welcome peer is never the wrong one. -/
theorem Welcome.not_rejected {e : Engine} {peer bound : PeerId} {item : OrphanItem} (h : e.Welcome peer)
    (hsync : e.syncPeer = some bound) (hne : peer ≠ bound) : e.awaits item = false := by
  obtain ⟨round, hround, hbound⟩ := syncPeer_eq_some_iff.1 hsync
  exact not_awaits_of_empty hround ((h round bound hround hbound).resolve_left hne) item

theorem Handled.spares_of_welcome {env : Outlook} {e e' : Engine} {peer : PeerId} {item : OrphanItem}
    (h : Handled env e peer item e') (hwelcome : e.Welcome peer) : Spares e e' := by
  refine h.spares.resolve_right ?_
  rintro ⟨-, hawaited, bound, hsync, hne⟩
  rw [hwelcome.not_rejected hsync hne] at hawaited
  cases hawaited

theorem Completion.welcome {env : Outlook} {e e' : Engine} {peer : PeerId} (h : Completion env e e')
    (hwelcome : e.Welcome peer) : e'.Welcome peer := by
  intro round bound hround hbound
  rcases h.round_cases hround with hkept | hfresh
  · exact hwelcome round bound hkept hbound
  · exact Or.inr hfresh

/-- **A peer stays welcome**, whatever is handled: as long as the round is the same, it is bound to the same peer, and a
new one asks for nothing. -/
theorem Handled.welcome {env : Outlook} {e e' : Engine} {sender peer : PeerId} {item : OrphanItem}
    (h : Handled env e sender item e') (hwelcome : e.Welcome peer) : e'.Welcome peer := by
  -- a round that awaits something is bound to the peer itself
  have hown {round : Round} {bound : PeerId} (hround : e.round = some round) (hawaited : e.awaits item = true)
      (hbound : round.syncPeer = some bound) : peer = bound := by
    refine (hwelcome round bound hround hbound).resolve_right fun hempty => ?_
    rw [not_awaits_of_empty hround hempty] at hawaited
    cases hawaited
  cases h with
  | dropped => exact hwelcome
  | pooled _ _ => exact hwelcome
  | rejected _ _ _ => exact fun _ _ hround _ => Or.inr ((restartWithout_onward env e sender).fresh rfl hround)
  | heldBack hround _ hawaited _ =>
    intro round bound hround₁ hbound
    obtain ⟨round', hround', hsame, -⟩ := round_holdBack hround sender _
    cases hround'.symm.trans hround₁
    refine Or.inl (hown hround ?_ (hsame.symm.trans hbound))
    rw [awaits, isAwaitedBlock, hround, Option.any_some, hawaited]
  | recorded hround hsync _ hawaited _ hcompletion =>
    refine hcompletion.welcome fun round bound hround₁ hbound => ?_
    rw [round_recordBlock, Option.some.injEq] at hround₁
    rw [← hround₁, syncPeer_receiveBlock] at hbound
    refine Or.inl (hown hround ?_ hbound)
    rw [awaits, isAwaitedBlock, hround, Option.any_some, hawaited]
  | begun _ _ _ hcompletion =>
    -- a tip round is bound to nobody
    refine hcompletion.welcome fun round bound hround₁ hbound => ?_
    rw [round_recordBlock, Option.some.injEq] at hround₁
    rw [← hround₁, syncPeer_receiveBlock] at hbound
    cases hbound
  | offered _ =>
    intro round bound hround
    rw [(frame_offerUnconfirmed env e _).2] at hround
    exact hwelcome round bound hround
  | fetched _ hround _ hawaited hcompletion =>
    refine hcompletion.welcome fun round bound hround₁ hbound => ?_
    rw [Option.some.injEq] at hround₁
    rw [← hround₁, syncPeer_receiveTx] at hbound
    refine Or.inl (hown hround ?_ hbound)
    rw [awaits, isAwaitedTx, hround, Option.any_some, hawaited]

/-- The peers of the given entries are welcome. -/
def Hosts (e : Engine) (hashes : List Digest) : Prop :=
  ∀ hash ∈ hashes, ∀ o, e.orphans.get? hash = some o → e.Welcome o.peer

theorem hosts_usableOrphans {e : Engine} (h : e.orphans.Consistent) : e.Hosts e.usableOrphans := by
  intro hash hmem o ho round bound hround hbound
  obtain ⟨o', ho', husable⟩ := (mem_usableOrphans h).1 hmem
  cases ho.symm.trans ho'
  left
  cases hitem : o.item with
  | block block =>
    simp only [isUsable, hround, hitem, Bool.and_eq_true, decide_eq_true_eq, hbound, Option.some.injEq] at husable
    exact husable.1.1.symm
  | tx tx =>
    simp only [isUsable, hround, hitem, Bool.and_eq_true, hbound, Option.all_some, decide_eq_true_eq] at husable
    exact husable.2.symm

/-- An orphan that is pooled again keeps its peer. -/
theorem useOrphan_hosts (env : Outlook) {e : Engine} {hashes : List Digest} (h : e.Hosts hashes) {hash : Digest}
    (hmem : hash ∈ hashes) {o : Orphan} (ho : e.orphans.get? hash = some o) :
    (e.useOrphan env hash).Hosts hashes := by
  rw [useOrphan_of_get? ho]
  have hhandled := process_handled env { e with orphans := e.orphans.erase hash } o.peer o.item
  intro x hx a ha
  obtain hsame | ⟨-, -, -, hpooled⟩ := hhandled.orphans
  · rw [hsame] at ha
    exact hhandled.welcome (h x hx a (Orphans.get?_of_get?_erase ha))
  · rw [hpooled] at ha
    obtain hkept | ⟨-, rfl⟩ := Orphans.get?_of_get?_insert ha
    · exact hhandled.welcome (h x hx a (Orphans.get?_of_get?_erase hkept))
    · exact hhandled.welcome (h hash hmem o ho)

/-- One step of the turn of what was waiting: the bound peer's block is released, an orphan is used, of which nothing
can be held against its peer, or the pool forgets what the chain has by now. -/
inductive Feeds (env : Outlook) (e : Engine) : Engine → Prop where
  | released {round bound block requests} : e.round = some round → round.syncPeer = some bound →
      round.requests.releaseReady? e.chain.knows = some (block, requests) →
      Feeds env e ({ e with round := some { round with requests } }.processBlock env bound block).1
  | used {hash o} : e.orphans.get? hash = some o → e.Welcome o.peer → Feeds env e (e.useOrphan env hash)
  | forgotten : Feeds env e e.forgetKnown

theorem releaseHeldBack_feeds (env : Outlook) : ∀ (fuel : Nat) (e : Engine),
    ReflTransGen (Feeds env) e (e.releaseHeldBack env fuel)
  | 0, _ => .refl
  | fuel + 1, e => by
    unfold releaseHeldBack
    split
    · exact .refl
    rename_i round hround
    split
    · exact .refl
    rename_i bound hbound
    split
    · exact .refl
    · rename_i block requests hrelease
      exact .head (.released hround hbound hrelease) (releaseHeldBack_feeds env fuel _)

theorem settle_feeds (env : Outlook) (e : Engine) : ReflTransGen (Feeds env) e (e.settle env) :=
  (releaseHeldBack_feeds env e.heldCount e).tail .forgotten

theorem foldl_useOrphan_feeds (env : Outlook) {hashes : List Digest} : ∀ (rest : List Digest) {e : Engine},
    (∀ hash ∈ rest, hash ∈ hashes) → e.Hosts hashes → ReflTransGen (Feeds env) e (rest.foldl (useOrphan env) e)
  | [], _, _, _ => .refl
  | hash :: rest, e, hsub, h => by
    have hmem := hsub hash List.mem_cons_self
    have hsub' (x : Digest) (hx : x ∈ rest) : x ∈ hashes := hsub x (List.mem_cons_of_mem hash hx)
    rw [List.foldl_cons]
    cases ho : e.orphans.get? hash with
    | none =>
      rw [useOrphan, ho]
      exact foldl_useOrphan_feeds env rest hsub' h
    | some o =>
      exact .head (.used ho (h hash hmem o ho)) (foldl_useOrphan_feeds env rest hsub' (useOrphan_hosts env h hmem ho))

theorem resolvePasses_feeds (env : Outlook) : ∀ (passes : Nat) {e : Engine}, e.orphans.Sound →
    ReflTransGen (Feeds env) e (e.resolvePasses env passes)
  | 0, _, _ => .refl
  | passes + 1, e, hsound => by
    have hpersistent := persistent_sound env
    have hsettled : (e.settle env).orphans.Sound := hpersistent.settle hsound
    simp only [resolvePasses]
    split
    · exact settle_feeds env e
    · exact ((settle_feeds env e).trans
        (foldl_useOrphan_feeds env _ (fun _ h => h) (hosts_usableOrphans hsettled.consistent))).trans
        (resolvePasses_feeds env passes (hpersistent.foldl_useOrphan _ hsettled))

/-- **The turn of what was waiting, step by step.** -/
theorem resolveOrphans_feeds (env : Outlook) {e : Engine} (hsound : e.orphans.Sound) :
    ReflTransGen (Feeds env) e (e.resolveOrphans env) := resolvePasses_feeds env _ hsound

/-- The peer that a round is bound to is welcome, whatever the round asks for. -/
theorem welcome_of_bound {e : Engine} {round : Round} {bound : PeerId} (hround : e.round = some round)
    (hbound : round.syncPeer = some bound) : e.Welcome bound := by
  intro r p hr hp
  cases hround.symm.trans hr
  exact Or.inl (Option.some.inj (hbound.symm.trans hp))

theorem Feeds.spares {env : Outlook} {e e' : Engine} (h : Feeds env e e') : Spares e e' := by
  cases h with
  | released _ hbound _ => exact (processBlock_handled env _ _ _).spares_of_welcome (welcome_of_bound rfl hbound)
  | used ho hwelcome =>
    rw [useOrphan_of_get? ho]
    exact (process_handled env _ _ _).spares_of_welcome hwelcome
  | forgotten => exact .same rfl

/-- **Items that were waiting are held against nobody.** -/
theorem resolveOrphans_spares (env : Outlook) {e : Engine} (hsound : e.orphans.Sound) :
    Spares e (e.resolveOrphans env) :=
  (resolveOrphans_feeds env hsound).trans_induction_on (fun _ => .same rfl) Feeds.spares fun _ _ => .trans

/-! ## The call that drops a peer -/

/-- The engine when a call may drop a peer. The upkeep checks for completion first. -/
def atDrop (env : Outlook) (e : Engine) : Call → Engine
  | .upkeep _ => (e.finishIfComplete env).1
  | _ => e

/-- What is left of the opening of a call that dropped a peer. -/
def resume (env : Outlook) (e : Engine) : Call → Engine
  | .upkeep at_ => ({ e with orphans := e.orphans.expire env.now, policy := e.policy.prune at_ }.startSync env none).1
  | _ => e

theorem spares_atDrop (env : Outlook) (e : Engine) (call : Call) : Spares e (e.atDrop env call) := by
  cases call with
  | upkeep at_ => exact (finishIfComplete_completion env e).spares
  | deliver _ _ | offer _ _ | lack _ _ => exact .same rfl

theorem spares_resume (env : Outlook) (e : Engine) (call : Call) : Spares e (e.resume env call) := by
  cases call with
  | upkeep at_ =>
    obtain ⟨commands, hcommands⟩ := (startSync_onward env { e with
      orphans := e.orphans.expire env.now, policy := e.policy.prune at_ } none).spares
    exact ⟨commands, hcommands⟩
  | deliver _ _ | offer _ _ | lack _ _ => exact .same rfl

/-- **A call drops one peer at most.** -/
theorem opening_drop (env : Outlook) (e : Engine) (call : Call) : Spares e (e.opening env call) ∨
    ∃ offender, e.opening env call = ((e.atDrop env call).restartWithout env offender).resume env call := by
  cases call with
  | deliver peer item =>
    exact (process_handled env e peer item).spares.imp_right fun h => ⟨peer, h.1⟩
  | offer peer items => exact Or.inl (processOffer_offered env e peer _).spares
  | lack peer items => exact Or.inr ⟨peer, rfl⟩
  | upkeep at_ =>
    have hopening : e.opening env (.upkeep at_) =
        ((e.atDrop env (.upkeep at_)).checkRound env at_).resume env (.upkeep at_) := rfl
    have hspares := spares_atDrop env e (.upkeep at_)
    have hreviewed := checkRound_reviewed env (e.atDrop env (.upkeep at_)) at_
    rw [hopening]
    generalize (e.atDrop env (.upkeep at_)).checkRound env at_ = r at hreviewed
    cases hreviewed with
    | kept => exact Or.inl (hspares.trans (spares_resume env _ _))
    | lost _ => exact Or.inr ⟨_, rfl⟩
    | abandoned _ => exact Or.inl ((hspares.trans (.same rfl)).trans (spares_resume env _ _))

theorem commands_drop (env : Outlook) (e : Engine) (offender : PeerId) :
    (e.drop env offender).commands = e.commands ++ [.disconnect offender, .bind none] := by
  simp [drop, command]

/-- **The peer that a call drops is the one that its opening dropped**, and what comes after is not held against anybody
else. -/
theorem drop_unique {env : Outlook} {e : Engine} {call : Call} (hsound : (e.opening env call).orphans.Sound)
    {before after : List Command} {p : PeerId}
    (hdrop : (e.call env call).1.commands = e.commands ++ before ++ .disconnect p :: after) :
    (e.call env call).1 = (e.opening env call).resolveOrphans env ∧
      e.opening env call = ((e.atDrop env call).restartWithout env p).resume env call ∧
      ∃ post, (e.call env call).1.commands = ((e.atDrop env call).drop env p).commands ++ post ∧
        after = .bind none :: post := by
  cases hvoid : call.isVoid with
  | true =>
    rw [call_fst, hvoid] at hdrop
    exact absurd hdrop (Adds.same rfl).not_drop
  | false =>
    have hcall : (e.call env call).1 = (e.opening env call).resolveOrphans env := by
      rw [call_fst, hvoid]
      rfl
    rw [hcall] at hdrop ⊢
    have hresolve := resolveOrphans_spares env hsound
    rcases opening_drop env e call with hspares | ⟨offender, hopening⟩
    · exact absurd hdrop (hspares.trans hresolve).not_drop
    · obtain ⟨pre, hpre, hspared⟩ := spares_atDrop env e call
      rw [hopening] at hresolve
      obtain ⟨post, hpost, hspared'⟩ :=
        ((restartWithout_onward env (e.atDrop env call) offender).spares.trans (spares_resume env _ call)).trans hresolve
      rw [← hopening] at hpost
      have hsplit : pre ++ .disconnect offender :: .bind none :: post = before ++ .disconnect p :: after := by
        rw [hpost, commands_drop, hpre] at hdrop
        simpa using hdrop
      have hbefore : Command.disconnect p ∉ pre := fun hmem => hspared _ hmem p rfl
      have hafter : Command.disconnect p ∉ Command.bind none :: post := by
        simpa using fun hmem => hspared' _ hmem p rfl
      obtain ⟨-, hp, rfl⟩ := (List.append_cons_inj_of_notMem hbefore hafter).1 hsplit
      cases hp
      exact ⟨rfl, hopening, post, hpost, rfl⟩

/-! ### Without anything to use -/

theorem settle_of_idle (env : Outlook) {e : Engine} (hheld : e.heldCount = 0) : e.settle env = e.forgetKnown := by
  have hreleased : e.resolveHeldBack env = e.releaseHeldBack env e.heldCount := rfl
  rw [settle, hreleased, hheld]
  rfl

theorem resolveOrphans_of_idle (env : Outlook) {e : Engine} (hheld : e.heldCount = 0)
    (husable : e.forgetKnown.usableOrphans = []) : e.resolveOrphans env = e.forgetKnown := by
  simp only [resolveOrphans, resolvePasses, settle_of_idle env hheld, husable]

theorem not_isUsable_of_bulk {e : Engine} {q : PeerId} {locator : List Digest} {now : Nat}
    (hround : e.round = some (.bulk q locator now)) (tip hash : Digest) (o : Orphan) :
    e.isUsable tip hash o = false := by
  obtain ⟨item, peer, received⟩ := o
  cases item <;> simp [isUsable, hround, Round.bulk, Requests.empty, Requests.isAwaitedBlock, Requests.isAwaitedTx]

/-- A bulk round that asks for nothing uses nothing. -/
theorem resolveOrphans_of_bulk (env : Outlook) {e : Engine} {q : PeerId} {locator : List Digest} {now : Nat}
    (hround : e.round = some (.bulk q locator now)) :
    (e.resolveOrphans env).syncPeer = some q ∧ (e.resolveOrphans env).commands = e.commands := by
  have husable : e.forgetKnown.usableOrphans = [] := by
    rw [usableOrphans, List.map_eq_nil_iff, List.filter_eq_nil_iff]
    rintro ⟨hash, o⟩ -
    rw [not_isUsable_of_bulk (e := e.forgetKnown) hround]
    exact Bool.false_ne_true
  rw [resolveOrphans_of_idle env (by rw [heldCount_of_round hround]; rfl) husable, forgetKnown, syncPeer, hround]
  exact ⟨rfl, rfl⟩

theorem resume_of_round (env : Outlook) {e : Engine} (hround : e.round.isSome = true) (call : Call) :
    (e.resume env call).round = e.round ∧ (e.resume env call).commands = e.commands := by
  cases call with
  | upkeep at_ =>
    rw [resume, startSync_of_round]
    · exact ⟨rfl, rfl⟩
    · exact hround
  | deliver _ _ | offer _ _ | lack _ _ => exact ⟨rfl, rfl⟩

theorem resume_of_select (env : Outlook) {e : Engine} {at_ : Nat} {q : PeerId} (hnone : e.round = none)
    (hselect : (e.policy.prune at_).select env.peers e.chain.height none none env.now = some q) :
    (e.resume env (.upkeep at_)).round = some (.bulk q e.chain.locator env.now) := by
  unfold chain at hselect
  simp only [resume, startSync, hnone, Option.isSome_none, Bool.false_eq_true, if_false, chain, hselect]
  rfl

/-! ### The three ends -/

theorem bound_of_rival {env : Outlook} {e : Engine} {call : Call} {p : PeerId}
    (hopening : e.opening env call = ((e.atDrop env call).restartWithout env p).resume env call)
    (hrival : PeerPolicy.candidates env.peers (e.atDrop env call).chain.height (some p) ≠ []) :
    ∃ q locator, q ≠ p ∧ ((e.opening env call).resolveOrphans env).syncPeer = some q ∧
      ((e.opening env call).resolveOrphans env).commands =
        ((e.atDrop env call).drop env p).commands ++ [.bind (some q), .send q (.getBlocks locator Digest.zero)] := by
  generalize e.atDrop env call = d at *
  obtain ⟨q, hselect⟩ := Option.ne_none_iff_exists'.1 fun h =>
    hrival (PeerPolicy.select_eq_none_iff (p := (d.drop env p).policy).1 h)
  obtain ⟨peer, hpeer, rfl⟩ := PeerPolicy.exists_candidate_of_select hselect
  have hrestart : d.restartWithout env p = (d.drop env p).beginRound env peer.id := by
    rw [restartWithout_eq, hselect]
  rw [hrestart] at hopening
  obtain ⟨hround, hcommands⟩ := resume_of_round env (e := (d.drop env p).beginRound env peer.id) rfl call
  rw [← hopening] at hround hcommands
  obtain ⟨hsync, hsame⟩ := resolveOrphans_of_bulk env hround
  rw [hcommands, commands_beginRound] at hsame
  have hne : some peer.id ≠ some p := (PeerPolicy.mem_candidates.1 hpeer).2.2.2
  exact ⟨peer.id, _, fun h => hne (by rw [h]), hsync, hsame⟩

/-- The second choice of the upkeep does not exclude the offender. -/
theorem bound_again {env : Outlook} {e : Engine} {at_ : Nat} {p : PeerId}
    (hopening : e.opening env (.upkeep at_) =
      ((e.atDrop env (.upkeep at_)).restartWithout env p).resume env (.upkeep at_))
    (hnorival : PeerPolicy.candidates env.peers (e.atDrop env (.upkeep at_)).chain.height (some p) = [])
    (hahead : PeerPolicy.candidates env.peers (e.atDrop env (.upkeep at_)).chain.height none ≠ []) :
    ((e.opening env (.upkeep at_)).resolveOrphans env).syncPeer = some p := by
  generalize e.atDrop env (.upkeep at_) = d at *
  have hrestart : d.restartWithout env p = d.drop env p := by
    rw [restartWithout_eq, PeerPolicy.select_eq_none_iff.2 hnorival]
  obtain ⟨q, hselect⟩ := Option.ne_none_iff_exists'.1 fun h =>
    hahead (PeerPolicy.select_eq_none_iff (p := (d.drop env p).policy.prune at_).1 h)
  obtain ⟨peer, hpeer, rfl⟩ := PeerPolicy.exists_candidate_of_select hselect
  have hsame : peer.id = p := by
    by_contra hne
    obtain ⟨hmem, hestablished, hheight, -⟩ := PeerPolicy.mem_candidates.1 hpeer
    have hrival := PeerPolicy.mem_candidates.2 ⟨hmem, hestablished, hheight, fun h => hne (Option.some.inj h)⟩
    rw [hnorival] at hrival
    cases hrival
  rw [hrestart] at hopening
  have hround := resume_of_select env (e := d.drop env p) rfl hselect
  rw [← hopening] at hround
  rw [(resolveOrphans_of_bulk env hround).1, hsame]

/-- There is no round and no pooled block to begin one for, and nothing was meant for a single peer since `start`. -/
structure Idle (start : Engine) (tip : Digest) (e : Engine) : Prop where
  round : e.round = none
  hash_tip : e.chain.tip.hash = tip
  offTip {hash : Digest} {o : Orphan} {block : FilteredBlock} : e.orphans.get? hash = some o → o.item = .block block →
    block.previous ≠ tip
  undirected : Adds (fun c => ∀ q, c.isFor q = false) start e

/-- **The engine stays idle** while it uses the transactions that were waiting. -/
theorem persistent_idle (env : Outlook) (start : Engine) (tip : Digest) :
    Persistent env (fun _ item => ∀ block, item = .block block → block.previous ≠ tip) (Idle start tip) where
  handled {e e' peer item} h hgiven hhandled := by
    cases hhandled with
    | dropped => exact h
    | pooled _ _ =>
      refine ⟨h.round, h.hash_tip, fun ho hblock => ?_, h.undirected⟩
      obtain hold | ⟨-, rfl⟩ := Orphans.get?_of_get?_insert ho
      · exact h.offTip hold hblock
      · exact hgiven _ hblock
    | rejected hsync _ _ =>
      rw [syncPeer, h.round] at hsync
      cases hsync
    | heldBack hround _ _ _ | recorded hround _ _ _ _ _ | fetched _ hround _ _ _ =>
      rw [h.round] at hround
      cases hround
    | begun _ _ hparent _ => exact absurd (hparent.trans h.hash_tip) (hgiven _ rfl)
    | offered _ =>
      obtain ⟨hframe, hround⟩ := frame_offerUnconfirmed env e _
      refine ⟨hround.trans h.round, ?_, fun ho => ?_, h.undirected.trans (adds_offerUnconfirmed (fun _ _ => rfl) env e _)⟩
      · rw [hframe.blocks.tip, h.hash_tip]
      · rw [hframe.orphans] at ho
        exact h.offTip ho
  held h hround := by
    rw [h.round] at hround
    cases hround
  pooled h ho _ hblock := h.offTip ho hblock
  release h hround := by
    rw [h.round] at hround
    cases hround
  unpool _ h := ⟨h.round, h.hash_tip, fun ho => h.offTip (Orphans.get?_of_get?_erase ho), h.undirected⟩
  retain _ h := ⟨h.round, h.hash_tip, fun ho => h.offTip (Orphans.get?_of_get?_retain ho), h.undirected⟩

theorem Idle.resume {env : Outlook} {start e : Engine} {tip : Digest} (h : Idle start tip e) {call : Call}
    (hbehind : ∀ at_, call = .upkeep at_ → PeerPolicy.candidates env.peers e.chain.height none = []) :
    Idle start tip (e.resume env call) := by
  cases call with
  | deliver _ _ | offer _ _ | lack _ _ => exact h
  | upkeep at_ =>
    rw [Engine.resume, startSync_of_behind]
    · exact ⟨h.round, h.hash_tip, fun ho => h.offTip (Orphans.get?_of_get?_retain ho), h.undirected⟩
    · exact hbehind at_ rfl

/-- **What follows when a peer is dropped**, in every reachable state. The heights are compared as they are by then.

If another peer is ahead of us, the call ends bound to another one, and nothing is meant for the offender any more. If
there is none, the upkeep binds the offender again when it is ahead of us itself, however it failed. Else nothing is
meant for anybody any more and the call ends unbound, unless a pooled block lies on the tip. That one is handled as if
it came just now, and when it is committed the next peer is chosen, again without a look at the offence. -/
theorem Reachable.drop_offender {c : Chain} {e : Engine} (he : Reachable c e) (env : Outlook) (call : Call)
    {before after : List Command} {p : PeerId}
    (hdrop : (e.call env call).1.commands = e.commands ++ before ++ .disconnect p :: after) :
    let d := e.atDrop env call
    let ahead (exclude : Option PeerId) := PeerPolicy.candidates env.peers d.chain.height exclude
    (ahead (some p) ≠ [] →
      (∃ q, q ≠ p ∧ (e.call env call).1.syncPeer = some q) ∧ ∀ c ∈ after, c.isFor p = false) ∧
    (ahead (some p) = [] →
      (∀ at_, call = .upkeep at_ → ahead none ≠ [] → (e.call env call).1.syncPeer = some p) ∧
      ((∀ at_, call = .upkeep at_ → ahead none = []) →
        (∀ hash o block, d.orphans.get? hash = some o → o.item = .block block →
          block.previous ≠ d.chain.tip.hash) →
        (e.call env call).1.syncPeer = none ∧ ∀ c ∈ after, ∀ q, c.isFor q = false)) := by
  intro d ahead
  obtain ⟨hcall, hopening, post, hpost, rfl⟩ := drop_unique (he.rested.sound_opening env call) hdrop
  rw [hcall] at hpost ⊢
  refine ⟨fun hrival => ?_, fun hnorival => ⟨?_, fun hbehind hoff => ?_⟩⟩
  · obtain ⟨q, locator, hne, hsync, hcommands⟩ := bound_of_rival hopening hrival
    rw [hcommands, List.append_cancel_left_eq] at hpost
    subst hpost
    refine ⟨⟨q, hne, hsync⟩, ?_⟩
    simp [Command.isFor, hne]
  · rintro at_ rfl hahead
    exact bound_again hopening hnorival hahead
  · have hrestart : d.restartWithout env p = d.drop env p := by
      rw [restartWithout_eq, PeerPolicy.select_eq_none_iff.2 hnorival]
    have hdropped : Idle (d.drop env p) d.chain.tip.hash (d.drop env p) :=
      ⟨rfl, rfl, fun ho hblock => hoff _ _ _ ho hblock, .same rfl⟩
    have hidle := (persistent_idle env _ _).resolveOrphans (hdropped.resume hbehind)
    rw [← hrestart, ← hopening] at hidle
    obtain ⟨commands, hcommands, hundirected⟩ := hidle.undirected
    rw [hrestart, hpost, List.append_cancel_left_eq] at hcommands
    refine ⟨by rw [syncPeer, hidle.round, Option.bind_none], ?_⟩
    rw [hcommands, List.forall_mem_cons]
    exact ⟨fun _ => rfl, hundirected⟩

end Engine

namespace Sample

/-- The only peer is bound, and answers nothing. -/
def stalled : Engine := engine.run [.call outlook (.upkeep 0)]

/-- The peer is dropped, and then asked again. -/
theorem commands_stalled :
    (stalled.call outlook (.upkeep 1000000)).1.commands = stalled.commands ++ [] ++ .disconnect peer ::
      [.bind none, .bind (some peer), .send peer (.getBlocks [genesisHash] .zero)] := by
  decide +kernel

end Sample

namespace Engine

open Sample

theorem drop_offender_stalled :
    Reachable (.ofGenesis genesis) stalled ∧ stalled.syncPeer = some peer ∧
      (stalled.call outlook (.upkeep 1000000)).1.syncPeer = some peer := by
  have hreachable : Reachable (.ofGenesis genesis) stalled := ⟨engine, _, isNew_engine, rfl⟩
  have hdrop := hreachable.drop_offender outlook (.upkeep 1000000) commands_stalled
  exact ⟨hreachable, by decide +kernel, (hdrop.2 (by decide +kernel)).1 _ rfl (by decide +kernel)⟩

end Engine
end LightClient
