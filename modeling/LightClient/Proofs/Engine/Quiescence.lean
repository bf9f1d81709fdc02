import LightClient.Proofs.Engine.Moves
/-!
# After a call there is nothing left to use

At the end of a call the engine releases blocks held back and uses orphans, pass by pass, until a pass finds none to
use. Both loops run on a budget. `Released` and `Settled` are the same loops without one: they say that the loop ends by
itself, and `Settled` counts the passes. The budget is never what ends a loop (`releaseHeldBack_released`,
`resolvePasses_settled`):

- a release takes a block for good out of those held back, for it is awaited and its parent is here, so it is neither
  pooled nor held back again;
- a pass takes at least one orphan for good out of the pool. The first one that can be used is not pooled again
  (`size_useOrphan_lt`); those after it may be, since by then the round can be another one, but only in their own place.

So nothing usable is left after any call (`Quiet`), nor at any time between two calls.
-/
namespace LightClient
namespace Engine

/-- No orphan is known to the chain or can be used, and no block is held back whose parent is here. -/
structure Quiet (e : Engine) : Prop where
  unknown {hash : Digest} {o : Orphan} : e.orphans.get? hash = some o → o.item.isBlock = true →
    e.chain.knows hash = false
  unusable {hash : Digest} {o : Orphan} : e.orphans.get? hash = some o → e.isUsable e.chain.tip.hash hash o = false
  unready {round : Round} {bound : PeerId} {hash : Digest} {block : FilteredBlock} : e.round = some round →
    round.syncPeer = some bound → round.requests.heldBack.get? hash = some block →
    round.requests.isReady e.chain.knows block = false

theorem Quiet.congr {e e' : Engine} (h : Quiet e) (hsame : e.chain.SameBlocks e'.chain) (hround : e'.round = e.round)
    (horphans : e'.orphans = e.orphans) : Quiet e' := by
  have hknows : e'.chain.knows = e.chain.knows := funext hsame.knows
  refine ⟨fun ho hblock => ?_, fun ho => ?_, fun hr hbound hheld => ?_⟩
  · rw [horphans] at ho
    rw [hknows]
    exact h.unknown ho hblock
  · rw [horphans] at ho
    rw [hsame.tip, isUsable, hround]
    exact h.unusable ho
  · rw [hknows]
    exact h.unready (hround.symm.trans hr) hbound hheld

/-- The release of blocks for as long as there is one to release. -/
inductive Released (env : Outlook) : Engine → Engine → Prop where
  | done {e} : (∀ round bound, e.round = some round → round.syncPeer = some bound →
      round.requests.releaseReady? e.chain.knows = none) → Released env e e
  | next {e e' round bound block requests} : e.round = some round → round.syncPeer = some bound →
      round.requests.releaseReady? e.chain.knows = some (block, requests) →
      Released env ({ e with round := some { round with requests } }.processBlock env bound block).1 e' →
      Released env e e'

/-- The pool loses the blocks that the chain knows. -/
def forgetKnown (e : Engine) : Engine :=
  { e with orphans := e.orphans.retain fun hash o => !(o.item.isBlock && e.chain.knows hash) }

/-- At most so many passes, of which the last one finds nothing to use. -/
inductive Settled (env : Outlook) : (passes : Nat) → Engine → Engine → Prop where
  | last {passes e e₁} : Released env e e₁ → e₁.forgetKnown.usableOrphans = [] →
      Settled env (passes + 1) e e₁.forgetKnown
  | more {passes e e₁ e'} : Released env e e₁ → e₁.forgetKnown.usableOrphans ≠ [] →
      Settled env passes (e₁.forgetKnown.usableOrphans.foldl (useOrphan env) e₁.forgetKnown) e' →
      Settled env (passes + 1) e e'

/-! ## Releases -/

def heldCount (e : Engine) : Nat := (e.round.map (·.requests.heldBack.size)).getD 0

theorem heldCount_of_round {e : Engine} {round : Round} (h : e.round = some round) :
    e.heldCount = round.requests.heldBack.size := by
  rw [heldCount, h]
  rfl

theorem heldCount_le {e : Engine} {n : Nat}
    (h : ∀ round, e.round = some round → round.requests.heldBack.size ≤ n) : e.heldCount ≤ n := by
  cases hround : e.round with
  | none =>
    rw [heldCount, hround]
    exact Nat.zero_le n
  | some round =>
    rw [heldCount_of_round hround]
    exact h round hround

/-- **A block whose parent is here** is dropped or taken into the round when its own peer delivers it. -/
theorem Handled.of_ready {env : Outlook} {e e' : Engine} {round : Round} {peer : PeerId} {block : FilteredBlock}
    (h : Handled env e peer (.block block) e') (hround : e.round = some round) (hbound : round.syncPeer = some peer)
    (hawaited : round.requests.isAwaitedBlock block.hash = true)
    (hready : round.requests.isReady e.chain.knows block = true) :
    e'.orphans = e.orphans ∧ e'.heldCount ≤ e.heldCount := by
  cases h with
  | dropped => exact ⟨rfl, Nat.le_refl _⟩
  | pooled hnot _ =>
    rw [awaits, isAwaitedBlock, hround, Option.any_some, hawaited] at hnot
    cases hnot
  | rejected hsync hne _ =>
    rw [syncPeer, hround, Option.bind_some, hbound, Option.some.injEq] at hsync
    exact absurd hsync hne
  | heldBack hround' _ _ hnot =>
    cases hround.symm.trans hround'
    rw [hready] at hnot
    cases hnot
  | recorded hround' _ _ _ _ hcompletion =>
    cases hround.symm.trans hround'
    refine ⟨hcompletion.orphans.trans (roundOnly_recordBlock env e _ peer _ _).orphans, heldCount_le fun r hr => ?_⟩
    rw [heldCount_of_round hround]
    obtain hkept | hfresh := hcompletion.round_cases hr
    · rw [round_recordBlock, Option.some.injEq] at hkept
      subst hkept
      exact Requests.size_heldBack_receiveBlock_le round.requests block _
    · rw [hfresh]
      exact Nat.zero_le _
  | begun hnone _ _ _ =>
    rw [hround] at hnone
    cases hnone

/-- **A release** leaves the pool alone, and one block fewer is held back. -/
theorem release_step (env : Outlook) {e : Engine} (hbooked : Booked e) {round : Round} {bound : PeerId}
    {block : FilteredBlock} {requests : Requests} (hround : e.round = some round) (hbound : round.syncPeer = some bound)
    (hrelease : round.requests.releaseReady? e.chain.knows = some (block, requests)) :
    ({ e with round := some { round with requests } }.processBlock env bound block).1.orphans = e.orphans ∧
      ({ e with round := some { round with requests } }.processBlock env bound block).1.heldCount < e.heldCount := by
  obtain ⟨hash, hheld, hready, rfl⟩ := Requests.releaseReady?_eq_some hrelease
  obtain ⟨rfl, hawaited⟩ := (hbooked.round hround).heldBack hheld
  obtain ⟨horphans, hcount⟩ :=
    (processBlock_handled env _ bound block).of_ready (e := { e with round := some { round with requests :=
      { round.requests with heldBack := round.requests.heldBack.erase block.hash } } }) rfl hbound hawaited hready
  refine ⟨horphans, Nat.lt_of_le_of_lt hcount ?_⟩
  rw [heldCount_of_round rfl, heldCount_of_round hround, ← Table.size_erase (Table.contains_of_get? hheld)]
  exact Nat.lt_succ_self _

/-- **The number of blocks held back is budget enough**, and the pool is left alone. -/
theorem releaseHeldBack_released (env : Outlook) : ∀ (fuel : Nat) {e : Engine}, Booked e → e.heldCount ≤ fuel →
    Released env e (e.releaseHeldBack env fuel) ∧ (e.releaseHeldBack env fuel).orphans = e.orphans
  | 0, e, _, hfuel => by
    refine ⟨.done fun round bound hround _ => ?_, rfl⟩
    rw [heldCount_of_round hround, Nat.le_zero] at hfuel
    cases hrelease : round.requests.releaseReady? e.chain.knows with
    | none => rfl
    | some released =>
      obtain ⟨hash, hheld, -⟩ := Requests.releaseReady?_eq_some hrelease
      rw [Table.get?_of_size_eq_zero hfuel] at hheld
      cases hheld
  | fuel + 1, e, hbooked, hfuel => by
    unfold releaseHeldBack
    split
    · rename_i hnone
      refine ⟨.done fun round _ hround _ => ?_, rfl⟩
      rw [hnone] at hround
      cases hround
    rename_i round hround
    split
    · rename_i hfree
      refine ⟨.done fun round' bound hround' hbound => ?_, rfl⟩
      cases hround.symm.trans hround'
      rw [hfree] at hbound
      cases hbound
    rename_i bound hbound
    split
    · rename_i hnone
      refine ⟨.done fun round' _ hround' _ => ?_, rfl⟩
      cases hround.symm.trans hround'
      exact hnone
    rename_i block requests hrelease
    obtain ⟨horphans, hcount⟩ := release_step env hbooked hround hbound hrelease
    have hbooked' : Booked ({ e with round := some { round with requests } }.processBlock env bound block).1 := by
      have hpersistent := stable_booked.invariant.persistent env
      obtain ⟨hash, hheld, -, rfl⟩ := Requests.releaseReady?_eq_some hrelease
      exact hpersistent.handled (hpersistent.release hbooked hround hheld) trivial (processBlock_handled env _ bound block)
    obtain ⟨hreleased, hrest⟩ := releaseHeldBack_released env fuel hbooked' (by omega)
    exact ⟨.next hround hbound hrelease hreleased, hrest.trans horphans⟩

theorem Released.unready {env : Outlook} {e e' : Engine} (h : Released env e e') {round : Round} {bound : PeerId}
    {hash : Digest} {block : FilteredBlock} (hround : e'.round = some round) (hbound : round.syncPeer = some bound)
    (hheld : round.requests.heldBack.get? hash = some block) :
    round.requests.isReady e'.chain.knows block = false := by
  induction h with
  | done hnone => exact Requests.releaseReady?_eq_none (hnone round bound hround hbound) hheld
  | next _ _ _ _ ih => exact ih hround

/-! ## Passes -/

theorem Handled.sound {env : Outlook} {e e' : Engine} {peer : PeerId} {item : OrphanItem}
    (h : Handled env e peer item e') (hsound : e.orphans.Sound) : e'.orphans.Sound := by
  obtain hsame | ⟨-, -, -, hpooled⟩ := h.orphans
  · rw [hsame]
    exact hsound
  · rw [hpooled]
    exact hsound.insert item peer env.now

theorem persistent_sound (env : Outlook) : Persistent env (fun _ _ => True) fun e => e.orphans.Sound where
  handled hsound _ h := h.sound hsound
  held _ _ _ _ := trivial
  pooled _ _ := trivial
  release hsound _ _ := hsound
  unpool hash hsound := hsound.erase hash
  retain keep hsound := hsound.retain keep

/-- An orphan that is pooled again takes up no more room than it did. -/
theorem size_useOrphan_le (env : Outlook) (e : Engine) (hash : Digest) :
    (e.useOrphan env hash).orphans.size ≤ e.orphans.size := by
  cases ho : e.orphans.get? hash with
  | none => rw [useOrphan, ho]
  | some o =>
    have herase := Orphans.size_erase (Table.contains_of_get? ho)
    rw [useOrphan_of_get? ho, ← herase]
    obtain hsame | ⟨-, -, -, hpooled⟩ :=
      (process_handled env { e with orphans := e.orphans.erase hash } o.peer o.item).orphans
    · rw [hsame]
      exact Nat.le_succ _
    · rw [hpooled]
      exact Orphans.size_insert_le _ _ _ _ _

theorem size_foldl_useOrphan_le (env : Outlook) : ∀ (hashes : List Digest) (e : Engine),
    (hashes.foldl (useOrphan env) e).orphans.size ≤ e.orphans.size
  | [], _ => Nat.le_refl _
  | hash :: hashes, e =>
    Nat.le_trans (size_foldl_useOrphan_le env hashes (e.useOrphan env hash)) (size_useOrphan_le env e hash)

/-- **An orphan that can be used is used up.** With a round it is awaited from its peer, without one a block lies on the
tip, so there is no reason to pool it again. -/
theorem size_useOrphan_lt (env : Outlook) {e : Engine} (hsound : e.orphans.Sound) {hash : Digest} {o : Orphan}
    (ho : e.orphans.get? hash = some o) (husable : e.isUsable e.chain.tip.hash hash o = true) :
    (e.useOrphan env hash).orphans.size < e.orphans.size := by
  have herase := Orphans.size_erase (Table.contains_of_get? ho)
  have hhash := hsound.hash_item ho
  obtain hsame | ⟨hnot, -, hidle, -⟩ :=
    (process_handled env { e with orphans := e.orphans.erase hash } o.peer o.item).orphans
  · rw [useOrphan_of_get? ho, hsame, ← herase]
    exact Nat.lt_succ_self _
  · exfalso
    cases hround : e.round with
    | none =>
      obtain ⟨block, hblock, htip⟩ := hidle (by rw [syncPeer, hround]; rfl)
      rw [isUsable, hround, hblock] at husable
      exact htip hround (of_decide_eq_true husable)
    | some round =>
      cases hitem : o.item with
      | block block =>
        rw [hitem, awaits, isAwaitedBlock, hround, Option.any_some] at hnot
        rw [hitem] at hhash
        simp only [isUsable, hround, hitem, Bool.and_eq_true] at husable
        rw [← hhash] at husable
        exact Bool.false_ne_true (hnot.symm.trans husable.1.2)
      | tx tx =>
        rw [hitem, awaits, isAwaitedTx, hround, Option.any_some] at hnot
        rw [hitem] at hhash
        simp only [isUsable, hround, hitem, Bool.and_eq_true] at husable
        rw [← hhash] at husable
        exact Bool.false_ne_true (hnot.symm.trans husable.1)

theorem mem_usableOrphans {e : Engine} (h : e.orphans.Consistent) {hash : Digest} :
    hash ∈ e.usableOrphans ↔ ∃ o, e.orphans.get? hash = some o ∧ e.isUsable e.chain.tip.hash hash o = true := by
  simp only [usableOrphans, List.mem_map, List.mem_filter]
  constructor
  · rintro ⟨⟨x, o⟩, ⟨hmem, husable⟩, rfl⟩
    exact ⟨o, h.mem_toList.1 hmem, husable⟩
  · rintro ⟨o, ho, husable⟩
    exact ⟨(hash, o), ⟨h.mem_toList.2 ho, husable⟩, rfl⟩

theorem nodup_usableOrphans {e : Engine} (h : e.orphans.Consistent) : e.usableOrphans.Nodup :=
  h.nodup_toList.sublist (List.filter_sublist.map _)

/-- **A pass that finds something to use** leaves fewer orphans. -/
theorem size_pass_lt (env : Outlook) {e : Engine} (hsound : e.orphans.Sound) (hne : e.usableOrphans ≠ []) :
    (e.usableOrphans.foldl (useOrphan env) e).orphans.size < e.orphans.size := by
  obtain ⟨hash, rest, hcons⟩ := List.exists_cons_of_ne_nil hne
  obtain ⟨o, ho, husable⟩ := (mem_usableOrphans hsound.consistent).1 (hcons ▸ List.mem_cons_self)
  rw [hcons, List.foldl_cons]
  exact Nat.lt_of_le_of_lt (size_foldl_useOrphan_le env rest _) (size_useOrphan_lt env hsound ho husable)

/-- **One pass more than there are orphans is budget enough.** -/
theorem resolvePasses_settled (env : Outlook) : ∀ (passes : Nat) {e : Engine}, Booked e → e.orphans.Sound →
    e.orphans.size < passes → Settled env passes e (e.resolvePasses env passes)
  | 0, _, _, _, hsize => absurd hsize (Nat.not_lt_zero _)
  | passes + 1, e, hbooked, hsound, hsize => by
    obtain ⟨hreleased, horphans⟩ := releaseHeldBack_released env e.heldCount hbooked (Nat.le_refl _)
    have hsettled : (e.settle env).orphans.Sound := (persistent_sound env).settle hsound
    have hle : (e.settle env).orphans.size ≤ e.orphans.size := by
      rw [← horphans]
      exact List.length_filter_le _ _
    simp only [resolvePasses]
    split
    · rename_i hnone
      exact .last hreleased hnone
    · rename_i hsome
      refine .more hreleased hsome (resolvePasses_settled env passes ?_ ?_ ?_)
      · have hpersistent := stable_booked.invariant.persistent env
        exact hpersistent.foldl_useOrphan _ (hpersistent.settle hbooked)
      · exact (persistent_sound env).foldl_useOrphan _ hsettled
      · exact Nat.lt_of_lt_of_le (size_pass_lt env hsettled hsome) (Nat.le_trans hle (Nat.le_of_lt_succ hsize))

theorem Settled.quiet {env : Outlook} {passes : Nat} {e e' : Engine} (h : Settled env passes e e')
    (hsound : e'.orphans.Sound) : Quiet e' := by
  induction h with
  | last hreleased hnone =>
    refine ⟨fun ho hblock => ?_, fun ho => ?_, hreleased.unready⟩
    · rw [forgetKnown, Orphans.get?_retain, Option.filter_eq_some_iff] at ho
      obtain ⟨-, hkept⟩ := ho
      rw [hblock, Bool.true_and, Bool.not_eq_true'] at hkept
      exact hkept
    · rw [Bool.eq_false_iff]
      intro husable
      have hmem := (mem_usableOrphans hsound.consistent).2 ⟨_, ho, husable⟩
      rw [hnone] at hmem
      cases hmem
  | more _ _ _ ih => exact ih hsound

/-! ### Nothing to do -/

theorem forgetKnown_eq_self {e : Engine} (hpool : e.orphans.Consistent)
    (hunknown : ∀ hash o, e.orphans.get? hash = some o → o.item.isBlock = true → e.chain.knows hash = false) :
    e.forgetKnown = e := by
  rw [forgetKnown, hpool.retain_eq_self fun hash o ho => ?_]
  cases hblock : o.item.isBlock with
  | false => rfl
  | true => rw [hunknown hash o ho hblock]; rfl

namespace Quiet

variable {e : Engine} (h : Quiet e)
include h

theorem releaseHeldBack (env : Outlook) : ∀ (fuel : Nat), e.releaseHeldBack env fuel = e
  | 0 => rfl
  | fuel + 1 => by
    unfold Engine.releaseHeldBack
    split
    · rfl
    rename_i round hround
    split
    · rfl
    rename_i bound hbound
    split
    · rfl
    rename_i block requests hrelease
    obtain ⟨hash, hheld, hready, -⟩ := Requests.releaseReady?_eq_some hrelease
    rw [h.unready hround hbound hheld] at hready
    cases hready

/-- **Where nothing can be used, nothing happens** at the end of a call. -/
theorem resolveOrphans (hpool : e.orphans.Consistent) (env : Outlook) : e.resolveOrphans env = e := by
  have hnone : e.usableOrphans = [] := by
    rw [List.eq_nil_iff_forall_not_mem]
    intro hash hmem
    obtain ⟨o, ho, husable⟩ := (mem_usableOrphans hpool).1 hmem
    rw [h.unusable ho] at husable
    cases husable
  have hsettle : e.settle env = e := by
    rw [settle, resolveHeldBack, h.releaseHeldBack]
    exact forgetKnown_eq_self hpool fun _ _ => h.unknown
  simp only [Engine.resolveOrphans, resolvePasses, hsettle, hnone]

end Quiet

/-! ## Calls -/

/-- What holds between two calls. -/
structure Rested (e : Engine) : Prop where
  booked : Booked e
  sound : e.orphans.Sound
  quiet : Quiet e

namespace Rested

theorem ofNew {c : Chain} {e : Engine} (h : IsNew c e) : Rested e := by
  have hbooked := stable_booked.ofNew trivial h
  obtain ⟨settings, store, filter, hchain, he⟩ := h
  obtain ⟨patience, -, rfl⟩ := Option.map_eq_some_iff.1 he
  refine ⟨hbooked, .ofCapacity _ _, ⟨fun ho => ?_, fun ho => ?_, fun hround => ?_⟩⟩
  · cases ho
  · cases ho
  · cases hround

variable {e : Engine} (h : Rested e)
include h

theorem sound_opening (env : Outlook) (call : Call) : (e.opening env call).orphans.Sound := by
  cases call with
  | deliver peer item => exact (process_handled env e peer item).sound h.sound
  | offer peer items =>
    rw [Engine.opening, (processOffer_offered env e peer _).roundOnly.orphans]
    exact h.sound
  | lack peer items =>
    rw [Engine.opening, (roundOnly_restartWithout env e peer).orphans]
    exact h.sound
  | upkeep at_ =>
    rw [Engine.opening, (roundOnly_startSync _ _ _).orphans]
    refine Orphans.Sound.retain ?_ _
    rw [(checkRound_reviewed env _ at_).roundOnly.orphans, (finishIfComplete_completion env e).orphans]
    exact h.sound

theorem settled (env : Outlook) {call : Call} (hcall : call.isVoid = false) :
    Settled env ((e.opening env call).orphans.capacity + 1) (e.opening env call) (e.call env call).1 := by
  have hbooked : Booked (e.opening env call) := stable_booked.invariant.opening h.booked env fun _ _ _ => trivial
  have hsound := h.sound_opening env call
  rw [call_fst, hcall]
  exact resolvePasses_settled env _ hbooked hsound (Nat.lt_succ_of_le hsound.size_le)

theorem call (env : Outlook) (call : Call) : Rested (e.call env call).1 := by
  cases hvoid : call.isVoid with
  | true =>
    rw [call_fst, hvoid]
    exact h
  | false =>
    have hsound : (e.call env call).1.orphans.Sound := by
      rw [call_fst, hvoid]
      exact (persistent_sound env).resolveOrphans (h.sound_opening env call)
    exact ⟨stable_booked.invariant.call h.booked env fun _ _ _ => trivial, hsound, (h.settled env hvoid).quiet hsound⟩

theorem turn (t : Turn) : Rested (e.turn t) := by
  have hrest {store : Store} {filter : AddressFilter} {commands : List Command} {verdicts : Table Digest Bool}
      (hsame : e.chain.SameBlocks store.chain) : Rested { e with store, filter, commands, verdicts } :=
    ⟨stable_booked.same h.booked hsame rfl, h.sound, h.quiet.congr hsame rfl rfl⟩
  cases t with
  | call env c => exact h.call env c
  | drain => exact hrest (.refl _)
  | reload filter => exact hrest (.refl _)
  | watch address => exact hrest ⟨rfl, rfl, rfl, rfl⟩
  | submit tx => exact hrest (e.store.sameBlocks_commitUnconfirmed tx)
  | outage count => exact hrest (.refl _)
  | close => exact hrest ⟨rfl, rfl, rfl, rfl⟩

end Rested

theorem Reachable.rested {c : Chain} {e : Engine} (he : Reachable c e) : Rested e := by
  obtain ⟨e₀, turns, hnew, rfl⟩ := he
  exact run_induction (P := fun _ e => Rested e) (.ofNew hnew) (fun _ _ t h => h.turn t) turns

/-- **The orphans come to rest.** In every reachable state and for every call, the passes at the end find nothing more
to use before they run out, every release in between ends by itself, and nothing usable is left. An offer without a
block is passed over. -/
theorem Reachable.quiescent {c : Chain} {e : Engine} (he : Reachable c e) (env : Outlook) (call : Call) :
    Quiet (e.call env call).1 ∧
      (call.isVoid = false →
        Settled env ((e.opening env call).orphans.capacity + 1) (e.opening env call) (e.call env call).1) :=
  ⟨(he.rested.call env call).quiet, he.rested.settled env⟩

end Engine

namespace Sample

/-- A transaction that nobody asked for comes in the middle of a bulk round. -/
def stray : List Turn := [.call outlook (.upkeep 0), .call outlook (.deliver peer (.tx payment))]

/-- The round is given up, and no other peer can take its place. -/
def givenUp : Engine := ((engine.run stray).call outlook (.lack peer [])).1

theorem orphans_stray : (engine.run stray).orphans.size = 1 ∧ givenUp.orphans.size = 0 := by decide +kernel

end Sample

namespace Engine

open Sample

/-- The transaction waits for the end of the round, and is used then. -/
theorem quiescent_stray :
    Reachable (.ofGenesis genesis) (engine.run stray) ∧ (engine.run stray).orphans.size = 1 ∧
      givenUp.orphans.size = 0 ∧ Quiet givenUp ∧
      Settled outlook (((engine.run stray).opening outlook (.lack peer [])).orphans.capacity + 1)
        ((engine.run stray).opening outlook (.lack peer [])) givenUp := by
  have hreachable : Reachable (.ofGenesis genesis) (engine.run stray) := ⟨engine, stray, isNew_engine, rfl⟩
  obtain ⟨hquiet, hsettled⟩ := hreachable.quiescent outlook (.lack peer [])
  exact ⟨hreachable, orphans_stray.1, orphans_stray.2, hquiet, hsettled rfl⟩

end Engine
end LightClient
