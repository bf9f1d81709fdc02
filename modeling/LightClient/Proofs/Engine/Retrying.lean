import LightClient.Proofs.Chain.Histories
import LightClient.Proofs.Engine.Offender
import LightClient.Proofs.Engine.Orderly
/-!
# A refused round is kept and tried again

A round that the chain refused is finished and stays. It awaits nothing any more, so no delivery touches it
(`Handled.of_finished`) and nothing that was waiting can be used (`resolveOrphans_of_finished`). What could end it are a
peer that lacks something, the bound peer with something new to offer, and an upkeep that finds the bound peer gone;
`Bears` excludes these. Each upkeep hands the round to the chain again, and as long as the chain refuses it, it is the
same round (`kept_of_waits`).

Once the chain takes the round, what was waiting gets its turn in the same call. No peer is asked for blocks there that
could answer in time, so all that can still be committed are single blocks on the tip (`Perched`): the chain only
grows, and none of the round's blocks is asked for again (`Past`).
-/
namespace LightClient

open Chain

/-- **A batch whose blocks all lie on the tip** is put there, and nothing is rolled back. -/
theorem Chain.prefix_of_commit {c c' : Chain} {batch : List ConfirmedBlock} {events : List ChainEvent}
    (hwf : c.WellFormed) (hcommit : c.commit batch = .ok (c', events))
    (htip : ∀ b ∈ batch, b.block.previous = c.tip.hash) : c.main <+: c'.main := by
  obtain ⟨-, first, rest, hbatch, -, -, below, above, hmain, habove, hresult⟩ := commit_eq_ok_iff.1 hcommit
  have hparent : first.block.previous = c.tip.hash := htip first (by rw [hbatch]; exact List.mem_cons_self)
  have hkept : c.main.take (below.length + 1) = c.main := by
    rcases List.eq_nil_or_concat above with rfl | ⟨init, last, rfl⟩
    · rw [hmain, List.take_of_length_le (by simp)]
    · -- the last block of the main chain is the tip, and the parent occurs only once
      have hlast := hwf.tip_at.1
      rw [List.concat_eq_append] at hmain habove
      rw [hmain, ← List.cons_append, ← List.append_assoc, List.getLast?_concat, Option.some.injEq, ← hparent] at hlast
      exact absurd (by simp [hlast]) habove
  have hc' : c' = (c.reorganise (below.length + 1) batch).1 := by rw [hresult]
  rw [hc', main_reorganise, hkept]
  exact List.prefix_append _ _

theorem Chain.mem_main_of_commit {c c' : Chain} {batch : List ConfirmedBlock} {events : List ChainEvent}
    (hcommit : c.commit batch = .ok (c', events)) {hash : Digest} (hmem : hash ∈ batch.map fun b => b.block.hash) :
    hash ∈ c'.main := by
  obtain ⟨-, _, _, -, -, -, below, _, -, -, hresult⟩ := commit_eq_ok_iff.1 hcommit
  have hc' : c' = (c.reorganise (below.length + 1) batch).1 := by rw [hresult]
  rw [hc', main_reorganise]
  exact List.mem_append_right _ hmem

/-- All that a finished round asked for is in its batch. -/
theorem Requests.RestsOn.mem_batch {r : Requests} {c : Chain} (h : r.RestsOn c) (hfinished : r.isFinished = true)
    {hash : Digest} (hmem : hash ∈ r.requested) : hash ∈ r.batch.map fun b => b.block.hash := by
  obtain ⟨a, ha⟩ := Table.contains_eq_true.1 (h.consistent.hasBlock_of_finished hfinished hmem)
  rw [hashes_batch h.consistent h.forest]
  exact List.mem_map_of_mem ((mem_ordered h.consistent h.forest (x := (hash, a))).2 ha)

namespace Turn

def isUpkeep : Turn → Bool
  | .call _ (.upkeep _) => true
  | _ => false

end Turn

namespace Engine

/-! ## A finished round -/

variable {env : Outlook} {e e' : Engine} {round : Round}

theorem not_awaits_of_finished (hround : e.round = some round) (hfinished : round.requests.isFinished = true)
    (item : OrphanItem) : e.awaits item = false := by
  cases item with
  | block block =>
    rw [awaits, isAwaitedBlock, hround, Option.any_some, (Requests.not_awaited_of_finished hfinished _).1]
  | tx tx => rw [awaits, isAwaitedTx, hround, Option.any_some, (Requests.not_awaited_of_finished hfinished _).2]

/-- **A finished round is left alone** by whatever is delivered. -/
theorem Handled.of_finished {peer : PeerId} {item : OrphanItem} (h : Handled env e peer item e')
    (hround : e.round = some round) (hfinished : round.requests.isFinished = true) :
    e'.round = some round ∧ e'.attempts = e.attempts := by
  have hblocks (hash : Digest) := (Requests.not_awaited_of_finished hfinished hash).1
  have htxs (txid : Digest) := (Requests.not_awaited_of_finished hfinished txid).2
  cases h with
  | dropped => exact ⟨hround, rfl⟩
  | pooled _ _ => exact ⟨hround, rfl⟩
  | rejected _ _ hawaited =>
    rw [not_awaits_of_finished hround hfinished] at hawaited
    cases hawaited
  | heldBack hround' _ hawaited _ | recorded hround' _ _ hawaited _ _ =>
    cases hround.symm.trans hround'
    rw [hblocks] at hawaited
    cases hawaited
  | begun hnone _ _ _ =>
    rw [hround] at hnone
    cases hnone
  | offered _ =>
    obtain ⟨hframe, hsame⟩ := frame_offerUnconfirmed env e _
    exact ⟨hsame.trans hround, hframe.attempts⟩
  | fetched _ hround' _ hawaited _ =>
    cases hround.symm.trans hround'
    rw [htxs] at hawaited
    cases hawaited

theorem persistent_finished (env : Outlook) (hfinished : round.requests.isFinished = true) (attempts : List Attempt) :
    Persistent env (fun _ _ => True) fun e => Booked e ∧ e.round = some round ∧ e.attempts = attempts :=
  (stable_booked.invariant.persistent env).along
    (fun _ ⟨hround, hattempts⟩ hhandled => hattempts ▸ hhandled.of_finished hround hfinished)
    (fun {e round' hash block} hbooked ⟨hround, _⟩ hround' hheld => by
      -- a block held back is still awaited
      cases hround.symm.trans hround'
      have hawaited := ((hbooked.round hround).heldBack hheld).2
      rw [(Requests.not_awaited_of_finished hfinished _).1] at hawaited
      cases hawaited)
    fun _ h => h

theorem resolveOrphans_of_finished (env : Outlook) (hbooked : Booked e) (hround : e.round = some round)
    (hfinished : round.requests.isFinished = true) :
    (e.resolveOrphans env).round = some round ∧ (e.resolveOrphans env).attempts = e.attempts :=
  ((persistent_finished env hfinished e.attempts).resolveOrphans ⟨hbooked, hround, rfl⟩).2

/-! ## Waiting -/

/-- The turn gives no reason to give up the finished round: nobody lacks what was asked for, the bound peer offers
nothing new, and an upkeep finds the bound peer connected while the chain refuses the round. -/
def Bears (round : Round) (e : Engine) : Turn → Prop
  | .call _ (.lack _ _) => False
  | .call _ (.offer peer items) => round.syncPeer = some peer → ∀ item ∈ items, item.isBlock = true →
      e.chain.knows item.hash = true ∨ round.requests.isTracked item.hash = true
  | .call env (.upkeep _) => (∀ bound, round.syncPeer = some bound → isReachable env bound = true) ∧
      ∀ store, e.store.commit round.requests.batch ≠ (store, .ok ())
  | _ => True

def Waits (round : Round) : Engine → List Turn → Prop
  | _, [] => True
  | e, t :: turns => Bears round e t ∧ Waits round (e.turn t) turns

/-- The round is still there, and has been refused so many times since. -/
structure Kept (round : Round) (e : Engine) (count : Nat) (e' : Engine) : Prop where
  held : e'.round = some round
  refusals : ∃ causes : List ChainError, causes.length = count ∧
    e'.attempts = e.attempts ++ causes.map fun cause => ⟨round, .error cause⟩

theorem Kept.none (hround : e'.round = some round) (hattempts : e'.attempts = e.attempts) : Kept round e 0 e' :=
  ⟨hround, [], rfl, by rw [hattempts, List.map_nil, List.append_nil]⟩

theorem Kept.trans {e₁ : Engine} {count count' : Nat} (h : Kept round e count e₁) (h' : Kept round e₁ count' e') :
    Kept round e (count + count') e' := by
  obtain ⟨causes, rfl, hcauses⟩ := h.refusals
  obtain ⟨causes', rfl, hcauses'⟩ := h'.refusals
  exact ⟨h'.held, causes ++ causes', List.length_append, by rw [hcauses', hcauses, List.map_append, List.append_assoc]⟩

/-- The bound peer offers what is known or was asked for already. -/
theorem round_processOffer_of_finished (env : Outlook) (hround : e.round = some round)
    (hfinished : round.requests.isFinished = true) {peer : PeerId} {hashes : List Digest}
    (hold : round.syncPeer = some peer → ∀ hash ∈ hashes,
      e.chain.knows hash = true ∨ round.requests.isTracked hash = true) :
    (e.processOffer env peer hashes).round = some round := by
  have hfetch (unknown : List Digest) : (e.fetchOffered peer unknown).round = some round := by
    simp only [fetchOffered]
    split
    · exact hround
    · exact hround
  simp only [processOffer, hround]
  split
  · exact hfetch _
  rename_i bound hbound
  split
  · rename_i heq
    subst heq
    have hnew : (round.requests.track (hashes.filter (!e.chain.knows ·))).2 = [] := by
      refine List.eq_nil_iff_forall_not_mem.2 fun hash hmem => ?_
      obtain ⟨hoffered, htracked⟩ := (Requests.mem_newBlocks _ _ _).1 hmem
      obtain ⟨hmem, hunknown⟩ := List.mem_filter.1 hoffered
      rcases hold hbound hash hmem with hknown | hasked
      · rw [hknown] at hunknown
        cases hunknown
      · rw [hasked] at htracked
        cases htracked
    have hasks : round.requests.isEmpty = false := by
      rw [Requests.isEmpty, List.isEmpty_eq_false_iff]
      exact (Requests.isFinished_iff.1 hfinished).1
    simp only [extendRound, hasks, Bool.and_false, Bool.false_eq_true, if_false, hnew, List.isEmpty_nil, if_true]
    exact hround
  · exact hround

theorem checkRound_of_finished (hround : e.round = some round) (hfinished : round.requests.isFinished = true)
    (hreachable : ∀ bound, round.syncPeer = some bound → isReachable env bound = true) (now : Nat) :
    e.checkRound env now = e := by
  refine checkRound_eq_self (fun bound hbound => ?_) fun r hr => ?_
  · rw [syncPeer, hround, Option.bind_some] at hbound
    exact hreachable bound hbound
  · cases hround.symm.trans hr
    rw [isStalled, hfinished, Bool.not_true, Bool.false_and]

theorem finishIfComplete_of_refused (env : Outlook) (hround : e.round = some round)
    (hfinished : round.requests.isFinished = true)
    (hrefused : ∀ store, e.store.commit round.requests.batch ≠ (store, .ok ())) :
    Kept round e 1 (e.finishIfComplete env).1 := by
  have hcompletion := finishIfComplete_completion env e
  generalize (e.finishIfComplete env).1 = e' at hcompletion
  cases hcompletion with
  | unfinished hnone =>
    rw [hnone round hround] at hfinished
    cases hfinished
  | refused hround' _ _ =>
    cases hround.symm.trans hround'
    exact ⟨hround, [_], rfl, rfl⟩
  | committed hround' _ hcommit _ _ =>
    cases hround.symm.trans hround'
    exact absurd hcommit (hrefused _)

/-- **One turn of waiting** leaves the round as it is, and an upkeep is refused once. -/
theorem kept_of_bears (hbooked : Booked e) (hround : e.round = some round) (hfinished : round.requests.isFinished = true)
    {t : Turn} (hbears : Bears round e t) : Kept round e (if t.isUpkeep then 1 else 0) (e.turn t) := by
  have hcall {env : Outlook} {c : Call} {count : Nat} (hopening : Kept round e count (e.opening env c))
      (hvoid : c.isVoid = true → count = 0) : Kept round e count (e.call env c).1 := by
    rw [call_fst]
    split
    · rename_i hnothing
      rw [hvoid hnothing]
      exact .none hround rfl
    · have hbooked' : Booked (e.opening env c) := stable_booked.invariant.opening hbooked env fun _ _ _ => trivial
      obtain ⟨hsame, hattempts⟩ := resolveOrphans_of_finished env hbooked' hopening.held hfinished
      exact hopening.trans (.none hsame hattempts)
  cases t with
  | call env c =>
    cases c with
    | deliver peer item =>
      obtain ⟨hsame, hattempts⟩ := (process_handled env e peer item).of_finished hround hfinished
      exact hcall (.none hsame hattempts) fun _ => rfl
    | offer peer items =>
      refine hcall (.none (round_processOffer_of_finished env hround hfinished fun hbound hash hmem => ?_)
        (processOffer_offered env e peer _).roundOnly.attempts) fun _ => rfl
      obtain ⟨item, hitem, rfl⟩ := List.mem_map.1 hmem
      obtain ⟨hitem, hblock⟩ := List.mem_filter.1 hitem
      exact hbears hbound item hitem hblock
    | lack peer items => exact hbears.elim
    | upkeep at_ =>
      obtain ⟨hreachable, hrefused⟩ := hbears
      have hkept := finishIfComplete_of_refused env hround hfinished hrefused
      have hidle : e.opening env (.upkeep at_) =
          { (e.finishIfComplete env).1 with
            orphans := (e.finishIfComplete env).1.orphans.expire env.now
            policy := (e.finishIfComplete env).1.policy.prune at_ } := by
        simp only [opening, checkRound_of_finished hkept.held hfinished hreachable]
        rw [startSync_of_round]
        simp only [hkept.held, Option.isSome_some]
      have hopening : Kept round e 1 (e.opening env (.upkeep at_)) := by
        rw [hidle]
        exact ⟨hkept.held, hkept.refusals⟩
      exact hcall hopening fun hvoid => by cases hvoid
  | drain | reload _ | watch _ | submit _ | outage _ | close => exact .none hround rfl

theorem kept_of_waits : ∀ (turns : List Turn) {e : Engine}, Booked e → e.round = some round →
    round.requests.isFinished = true → Waits round e turns → Kept round e (turns.countP Turn.isUpkeep) (e.run turns)
  | [], _, _, hround, _, _ => .none hround rfl
  | t :: turns, e, hbooked, hround, hfinished, hwaits => by
    obtain ⟨hbears, hwaits⟩ := hwaits
    have hkept := kept_of_bears hbooked hround hfinished hbears
    have hbooked' : Booked (e.turn t) := stable_booked.invariant.turn hbooked fun _ _ _ _ => trivial
    rw [List.countP_cons, Nat.add_comm]
    exact hkept.trans (kept_of_waits turns hbooked' hkept.held hfinished hwaits)

/-! ## After the round -/

/-- The round of a single block on the tip that was not there before. -/
structure Perched (c : Chain) (r : Round) : Prop where
  free : r.syncPeer = none
  alone : ∃ hash, r.requests.requested = [hash] ∧ c.knows hash = false
  onTip {hash : Digest} {a : Arrival} : r.requests.blocks.get? hash = some a → a.block.previous = c.tip.hash

namespace Perched

variable {c : Chain} {r : Round}

theorem congr (h : Perched c r) {c' : Chain} (hsame : c.SameBlocks c') : Perched c' r where
  free := h.free
  alone := by
    obtain ⟨hash, hrequested, hunknown⟩ := h.alone
    exact ⟨hash, hrequested, (hsame.knows hash).trans hunknown⟩
  onTip ha := by
    rw [hsame.tip]
    exact h.onTip ha

-- `hash` has to be a variable here, or `rfl` would compute the hash of the block
theorem tip {block : FilteredBlock} {hash : Digest} (hhash : block.hash = hash) (hunknown : c.knows hash = false)
    (hparent : block.previous = c.tip.hash) (peer : PeerId) (now : Nat) (txids : List Digest) :
    Perched c ((Round.tip hash peer now).receiveBlock now block txids).1 where
  free := rfl
  alone := by
    refine ⟨hash, ?_, hunknown⟩
    rw [Round.receiveBlock_eq, Requests.requested_receiveBlock]
    rfl
  onTip ha := by
    have hawaited : (Requests.ofHashes [hash]).isAwaitedBlock block.hash = true := by
      rw [hhash]
      exact Requests.isAwaitedBlock_iff.2 List.mem_cons_self
    rw [Round.receiveBlock_eq] at ha
    simp only [Round.tip, Requests.receiveBlock_of_awaited hawaited] at ha
    obtain ⟨-, rfl⟩ | ⟨-, hold⟩ := Table.get?_insert_eq_some.1 ha
    · exact hparent
    · cases hold

theorem receiveTx (h : Perched c r) (now : Nat) (tx : Transaction) : Perched c (r.receiveTx now tx) where
  free := (syncPeer_receiveTx r now tx).trans h.free
  alone := by
    rw [requests_receiveTx, Requests.requested_receiveTx]
    exact h.alone
  onTip ha := by
    rw [requests_receiveTx, Requests.blocks_receiveTx] at ha
    exact h.onTip ha

/-- **The chain grows** by what such a round asks for. -/
theorem prefix_of_commit (h : Perched c r) (hwf : c.WellFormed) {c' : Chain} {events : List ChainEvent}
    (hcommit : c.commit r.requests.batch = .ok (c', events)) : c.main <+: c'.main := by
  refine Chain.prefix_of_commit hwf hcommit fun b hb => ?_
  obtain ⟨x, hx, rfl⟩ := List.mem_map.1 hb
  exact h.onTip (Requests.get?_of_mem_ordered hx)

end Perched

/-- What has become of the engine since the chain of a store came about: it has grown at most, by blocks that were not
in it, one at a time. -/
structure Past (store : Store) (attempts : List Attempt) (e : Engine) : Prop where
  grown : store.chain.main <+: e.chain.main
  round {r : Round} : e.round = some r → r.requests = .empty ∨ Perched e.chain r
  attempts : ∃ more, e.attempts = attempts ++ more ∧
    ∀ a ∈ more, ∃ hash, a.round.requests.requested = [hash] ∧ hash ∉ store.chain.main

namespace Past

variable {store : Store} {attempts : List Attempt}

theorem same (h : Past store attempts e) (hblocks : e.chain.SameBlocks e'.chain) (hround : e'.round = e.round)
    (hattempts : e'.attempts = e.attempts) : Past store attempts e' where
  grown := by
    rw [hblocks.main]
    exact h.grown
  round hr := (h.round (hround.symm.trans hr)).imp_right (Perched.congr · hblocks)
  attempts := by
    rw [hattempts]
    exact h.attempts

/-- A round that awaits or finishes something is that of a block on the tip. -/
theorem perched (h : Past store attempts e) {r : Round} (hround : e.round = some r) (hr : r.requests ≠ .empty) :
    Perched e.chain r := (h.round hround).resolve_left hr

theorem attempt (h : Past store attempts e) (hwf : e.chain.WellFormed) {r : Round} (hr : Perched e.chain r)
    (result : Except ChainError Unit) : ∃ more, e.attempts ++ [⟨r, result⟩] = attempts ++ more ∧
      ∀ a ∈ more, ∃ hash, a.round.requests.requested = [hash] ∧ hash ∉ store.chain.main := by
  obtain ⟨more, hmore, hall⟩ := h.attempts
  refine ⟨more ++ [⟨r, result⟩], by rw [hmore, List.append_assoc], fun a ha => ?_⟩
  rcases List.mem_append.1 ha with ha | ha
  · exact hall a ha
  obtain ⟨hash, hrequested, hunknown⟩ := hr.alone
  rw [List.mem_singleton.1 ha]
  refine ⟨hash, hrequested, fun hmem => ?_⟩
  rw [(hwf.knows_iff hash).2 (h.grown.subset hmem)] at hunknown
  cases hunknown

theorem completion (h : Past store attempts e) (hwf : e.chain.WellFormed) (hcompletion : Completion env e e') :
    Past store attempts e' := by
  have hperched {r : Round} (hround : e.round = some r) (hfinished : r.requests.isFinished = true) :
      Perched e.chain r := h.perched hround fun hempty => by
    rw [hempty] at hfinished
    cases hfinished
  cases hcompletion with
  | unfinished _ => exact h
  | refused hround hfinished hcommit =>
    rename_i r store' cause
    have hr := hperched hround hfinished
    have hchain : (e.attempt r store' (.error cause)).chain = e.chain := Store.commit_eq_error hcommit
    refine ⟨?_, fun hround' => ?_, h.attempt hwf hr _⟩
    · rw [hchain]
      exact h.grown
    · rw [hchain]
      exact h.round hround'
  | committed hround hfinished hcommit honward _ =>
    rename_i r store' _
    have hr := hperched hround hfinished
    obtain ⟨events, hcommit⟩ := Store.commit_eq_ok hcommit
    have hgrown := hr.prefix_of_commit hwf hcommit
    have hsame := honward.roundOnly
    refine ⟨?_, fun hround' => Or.inl (honward.fresh rfl hround'), ?_⟩
    · rw [chain, hsame.store]
      exact h.grown.trans hgrown
    · rw [hsame.attempts]
      exact h.attempt hwf hr _

end Past

/-- **What is handled after the round** can only put a single block on the tip. -/
theorem Handled.past {peer : PeerId} {item : OrphanItem} (h : Handled env e peer item e') {store : Store}
    {attempts : List Attempt} (hwf : e.chain.WellFormed) (hpast : Past store attempts e) : Past store attempts e' := by
  -- a round bound to a peer asks for nothing
  have hbulk {r : Round} {bound : PeerId} (hround : e.round = some r) (hbound : r.syncPeer = some bound) :
      r.requests = .empty := by
    refine (hpast.round hround).resolve_right fun hperched => ?_
    rw [hperched.free] at hbound
    cases hbound
  cases h with
  | dropped => exact hpast
  | pooled _ _ => exact hpast.same (.refl _) rfl rfl
  | rejected hsync _ hawaited =>
    obtain ⟨r, hround, hbound⟩ := syncPeer_eq_some_iff.1 hsync
    rw [not_awaits_of_empty hround (hbulk hround hbound)] at hawaited
    cases hawaited
  | heldBack hround hbound hawaited _ | recorded hround hbound _ hawaited _ _ =>
    rw [hbulk hround hbound] at hawaited
    cases hawaited
  | begun hnone hchecked hparent hcompletion =>
    rename_i block txids
    have hframe := (roundOnly_recordBlock env e (.tip block.hash peer env.now) peer block txids).frame
    refine Past.completion ?_ (hwf.congr hframe.blocks) hcompletion
    refine ⟨?_, fun hround => Or.inr ?_, ?_⟩
    · rw [hframe.blocks.main]
      exact hpast.grown
    · rw [round_recordBlock, Option.some.injEq] at hround
      rw [← hround]
      exact (Perched.tip rfl hchecked.unknown hparent peer env.now txids).congr hframe.blocks
    · rw [hframe.attempts]
      exact hpast.attempts
  | offered _ =>
    obtain ⟨hframe, hround⟩ := frame_offerUnconfirmed env e _
    exact hpast.same hframe.blocks hround hframe.attempts
  | fetched he₁ hround _ hawaited hcompletion =>
    rename_i tx e₁ r _
    obtain ⟨hframe, hsame⟩ := frame_of_fetched he₁
    have hround₁ := hsame.trans hround
    have hpast₁ : Past store attempts e₁ := hpast.same hframe.blocks hsame hframe.attempts
    have hperched : Perched e₁.chain r := hpast₁.perched hround₁ fun hempty => by
      rw [hempty] at hawaited
      cases hawaited
    have hreceived : Past store attempts { e₁ with round := some (r.receiveTx env.now tx) } :=
      ⟨hpast₁.grown, fun hr => Or.inr (Option.some.inj hr ▸ hperched.receiveTx env.now tx), hpast₁.attempts⟩
    exact hreceived.completion (hwf.congr hframe.blocks) hcompletion

theorem persistent_past (env : Outlook) (store : Store) (attempts : List Attempt) :
    Persistent env (fun _ _ => True) fun e => Orderly e ∧ Past store attempts e :=
  (stable_orderly.invariant.persistent env).along
    (fun horderly hpast hhandled => hhandled.past horderly.chain hpast)
    (fun {e round hash block} _ hpast hround hheld => by
      have hperched := hpast.perched hround fun hempty => by
        rw [hempty] at hheld
        cases hheld
      refine ⟨hpast.grown, fun hround' => Or.inr ?_, hpast.attempts⟩
      cases hround'
      exact ⟨hperched.free, hperched.alone, hperched.onTip⟩)
    fun _ hpast => hpast.same (.refl _) rfl rfl

theorem Past.of_fresh {store : Store} {attempts : List Attempt} (hchain : e.chain = store.chain)
    (hattempts : e.attempts = attempts) (hfresh : ∀ r, e.round = some r → r.requests = .empty) :
    Past store attempts e where
  grown := ⟨[], by rw [hchain, List.append_nil]⟩
  round hr := Or.inl (hfresh _ hr)
  attempts := ⟨[], by rw [hattempts, List.append_nil], fun _ h => absurd h List.not_mem_nil⟩

theorem Reviewed.fresh (h : Reviewed env e e') (hfresh : ∀ r, e.round = some r → r.requests = .empty) {r : Round}
    (hr : e'.round = some r) : r.requests = .empty := by
  cases h with
  | kept => exact hfresh r hr
  | lost _ => exact (restartWithout_onward env e _).fresh rfl hr
  | abandoned _ => cases hr

theorem fresh_startSync (hfresh : ∀ r, e.round = some r → r.requests = .empty) {prefer : Option PeerId} {r : Round}
    (hr : (e.startSync env prefer).1.round = some r) : r.requests = .empty := by
  cases hround : e.round with
  | none => exact (startSync_onward env e prefer).fresh hround hr
  | some _ =>
    rw [startSync_of_round (by rw [hround]; rfl)] at hr
    exact hfresh r hr

/-- **The upkeep at which the chain takes the round**, before what was waiting gets its turn. -/
theorem opening_of_commit (hround : e.round = some round) (hfinished : round.requests.isFinished = true)
    {store : Store} (hcommit : e.store.commit round.requests.batch = (store, .ok ())) (env : Outlook) (at_ : Nat) :
    (e.call env (.upkeep at_)).2 = .ok () ∧
      Past store (e.attempts ++ [⟨round, .ok ()⟩]) (e.opening env (.upkeep at_)) := by
  obtain ⟨events, hchain⟩ := Store.commit_eq_ok hcommit
  obtain ⟨hanswer, hstore, -, hattempts, hfresh⟩ :=
    finishIfComplete_of_commit env hround hfinished (Store.outages_of_commit hcommit) hchain
  have hreviewed := checkRound_reviewed env (e.finishIfComplete env).1 at_
  have hsame := hreviewed.roundOnly
  have hopening : e.opening env (.upkeep at_) =
      ((((e.finishIfComplete env).1.checkRound env at_).expire env at_).startSync env none).1 := rfl
  have hsame' := roundOnly_startSync env (((e.finishIfComplete env).1.checkRound env at_).expire env at_) none
  rw [hopening]
  have hexpired (r : Round) (hr : (((e.finishIfComplete env).1.checkRound env at_).expire env at_).round = some r) :
      r.requests = .empty := hreviewed.fresh hfresh hr
  refine ⟨hanswer, .of_fresh ?_ (hsame'.attempts.trans (hsame.attempts.trans hattempts)) fun _ =>
    fresh_startSync hexpired⟩
  rw [chain, hsame'.store, expire, hsame.store]
  exact hstore

/-! ## The retry -/

/-- The call commits the round, once, and none of its blocks is asked for again; they stand on the chain. -/
structure Taken (round : Round) (store : Store) (e : Engine) (outcome : Engine × Except Fault Unit) : Prop where
  answer : outcome.2 = .ok ()
  once : ∃ more, outcome.1.attempts = e.attempts ++ ⟨round, .ok ()⟩ :: more ∧
    ∀ a ∈ more, a.round.requests.requested.Disjoint round.requests.requested
  stands : store.chain.main <+: outcome.1.chain.main
  cleared {r : Round} : outcome.1.round = some r → r.requests.requested.Disjoint round.requests.requested

theorem taken_of_commit (horderly : Orderly e) (hround : e.round = some round)
    (hfinished : round.requests.isFinished = true) {store : Store}
    (hcommit : e.store.commit round.requests.batch = (store, .ok ())) (env : Outlook) (at_ : Nat) :
    Taken round store e (e.call env (.upkeep at_)) := by
  obtain ⟨hanswer, hopening⟩ := opening_of_commit hround hfinished hcommit env at_
  have horderly' : Orderly (e.opening env (.upkeep at_)) := stable_orderly.invariant.opening horderly env fun _ _ _ => trivial
  obtain ⟨hdone, hpast⟩ : Orderly (e.call env (.upkeep at_)).1 ∧
      Past store (e.attempts ++ [⟨round, .ok ()⟩]) (e.call env (.upkeep at_)).1 := by
    rw [call_fst]
    exact (persistent_past env store _).resolveOrphans ⟨horderly', hopening⟩
  have hstands {hash : Digest} (hmem : hash ∈ round.requests.requested) : hash ∈ store.chain.main := by
    obtain ⟨events, hchain⟩ := Store.commit_eq_ok hcommit
    exact mem_main_of_commit hchain ((horderly.round hround).mem_batch hfinished hmem)
  have hother {requested : List Digest} {hash : Digest} (hrequested : requested = [hash])
      (hnot : hash ∉ store.chain.main) : requested.Disjoint round.requests.requested := by
    rw [hrequested, List.singleton_disjoint]
    exact fun hmem => hnot (hstands hmem)
  obtain ⟨more, hmore, hall⟩ := hpast.attempts
  refine ⟨hanswer, ⟨more, by rw [hmore, List.append_assoc]; rfl, fun a ha => ?_⟩, hpast.grown, fun hr => ?_⟩
  · obtain ⟨hash, hrequested, hnot⟩ := hall a ha
    exact hother hrequested hnot
  · rcases hpast.round hr with hempty | hperched
    · rw [hempty]
      exact List.disjoint_nil_left _
    · obtain ⟨hash, hrequested, hunknown⟩ := hperched.alone
      refine hother hrequested fun hmem => ?_
      rw [(hdone.chain.knows_iff hash).2 (hpast.grown.subset hmem)] at hunknown
      cases hunknown

/-- **A refused round loses nothing and is tried again.** In every reachable state that holds a finished round, which is
there only because the chain refused it (`Acted`), and however long the wait, the round stays just as it is and each
upkeep hands it to the chain again. The first upkeep at which the chain takes it commits it once, and clears it. -/
theorem Reachable.retried {c : Chain} (hc : c.Reachable) (he : Reachable c e) (hround : e.round = some round)
    (hfinished : round.requests.isFinished = true) {turns : List Turn} (hwaits : Waits round e turns) :
    Kept round e (turns.countP Turn.isUpkeep) (e.run turns) ∧
      ∀ env at_ store, (e.run turns).store.commit round.requests.batch = (store, .ok ()) →
        Taken round store (e.run turns) ((e.run turns).call env (.upkeep at_)) := by
  have hbooked : Booked e := stable_booked.reachable trivial he
  have hkept := kept_of_waits turns hbooked hround hfinished hwaits
  exact ⟨hkept, fun env at_ store hcommit =>
    taken_of_commit ((he.run turns).orderly hc) hkept.held hfinished hcommit env at_⟩

end Engine

namespace Sample

/-- The disk is full when the block arrives that finishes the round. -/
def refused : List Turn :=
  [.call outlook (.upkeep 0), .call outlook (.offer peer [.filteredBlock (child genesisHash 4).hash]), .outage 2,
   .call outlook (.deliver peer (.block (child genesisHash 4)))]

/-- A transaction that nobody asked for. -/
def overheard : Turn := .call outlook (.deliver ⟨2⟩ (.tx payment))

/-- The peer offers the block again. -/
def again : Turn := .call outlook (.offer peer [.filteredBlock (child genesisHash 4).hash])

def meanwhile : List Turn := [overheard, .drain, again, .call outlook (.upkeep 1)]

theorem round_refused :
    ((engine.run refused).round.any fun r =>
      r.syncPeer = some peer && r.requests.isFinished && r.requests.isTracked (child genesisHash 4).hash &&
        (((engine.run refused).run meanwhile).store.commit r.requests.batch).2.toOption.isSome) = true ∧
      ((((engine.run refused).turn overheard).turn .drain).turn again).store.outages = 1 := by
  decide +kernel

end Sample

namespace Engine

open Sample

/-- The disk is full once more when the upkeep comes, and not the next time. -/
theorem retried_refused :
    Chain.Reachable (.ofGenesis genesis) ∧ Reachable (.ofGenesis genesis) (engine.run refused) ∧ ∃ round store,
      (engine.run refused).round = some round ∧ round.requests.isFinished = true ∧
      Waits round (engine.run refused) meanwhile ∧
      ((engine.run refused).run meanwhile).store.commit round.requests.batch = (store, .ok ()) ∧
      Kept round (engine.run refused) 1 ((engine.run refused).run meanwhile) ∧
      Taken round store ((engine.run refused).run meanwhile)
        (((engine.run refused).run meanwhile).call outlook (.upkeep 2)) := by
  obtain ⟨round, hround, hfacts⟩ := (Option.any_eq_true _ _).1 round_refused.1
  simp only [Bool.and_eq_true, decide_eq_true_eq] at hfacts
  obtain ⟨⟨⟨hbound, hfinished⟩, htracked⟩, haccepted⟩ := hfacts
  have hreachable : Reachable (.ofGenesis genesis) (engine.run refused) := ⟨engine, refused, isNew_engine, rfl⟩
  have hwaits : Waits round (engine.run refused) meanwhile := by
    refine ⟨trivial, trivial, fun _ item hitem _ => Or.inr ?_, ⟨fun bound hsome => ?_, fun store hcommit => ?_⟩, trivial⟩
    · rw [List.mem_singleton.1 hitem]
      exact htracked
    · cases hbound.symm.trans hsome
      rfl
    · exact absurd ((Store.outages_of_commit hcommit).symm.trans round_refused.2) (by decide)
  obtain ⟨store, hcommit⟩ : ∃ store, ((engine.run refused).run meanwhile).store.commit round.requests.batch =
      (store, .ok ()) := by
    generalize ((engine.run refused).run meanwhile).store.commit round.requests.batch = outcome at haccepted
    obtain ⟨store, _ | _⟩ := outcome
    · cases haccepted
    · exact ⟨store, rfl⟩
  obtain ⟨hkept, htaken⟩ := hreachable.retried (.genesis genesis) hround hfinished hwaits
  exact ⟨.genesis genesis, hreachable, round, store, hround, hfinished, hwaits, hcommit, hkept, htaken _ _ _ hcommit⟩

end Engine
end LightClient
