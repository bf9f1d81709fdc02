import LightClient.Proofs.Engine.Moves
/-!
# Blocks that wait were checked

A block is held back, or put into the pool, only after the checks. Its work and its proof stay what they are, and what a
round awaits stays unknown to the chain as long as the round lasts. So a block that is held back passes the checks again
when it is let go (`Poised`), in every state in which the engine begins to let go of blocks (`AtRelease.poised`).
-/
namespace LightClient

/-- The block passed the checks that do not look at the chain. -/
def FilteredBlock.Vetted (block : FilteredBlock) : Prop :=
  block.header.meetsTarget = true ∧ ∃ txids, block.provedTxids = .ok txids

def OrphanItem.Vetted : OrphanItem → Prop
  | .block b => b.Vetted
  | .tx _ => True

namespace Engine

/-! ## The checks -/

/-- What the checks answer for a block: the transactions that its proof names, or nothing if they refuse it. -/
def vet (c : Chain) (block : FilteredBlock) : Option (List Digest) :=
  if c.knows block.hash then none
  else
    match block.header.checkWork, block.provedTxids with
    | .ok (), .ok txids => some txids
    | _, _ => none

theorem vet_eq_some_iff {c : Chain} {block : FilteredBlock} {txids : List Digest} :
    vet c block = some txids ↔ Checked c block txids := by
  constructor
  · intro h
    rw [vet] at h
    split at h
    · cases h
    rename_i hknown
    split at h
    · rename_i hwork hproof
      cases h
      exact ⟨Bool.eq_false_iff.2 hknown, checkWork_eq_ok_iff.1 hwork, hproof⟩
    · cases h
  · rintro ⟨hunknown, hwork, hproof⟩
    rw [vet, hunknown, checkWork_eq_ok_iff.2 hwork, hproof]
    rfl

/-- A block that the checks refuse is dropped. -/
theorem processBlock_of_vet_eq_none (env : Outlook) {e : Engine} {block : FilteredBlock} (h : vet e.chain block = none)
    (peer : PeerId) : (e.processBlock env peer block).1 = e := by
  simp only [processBlock]
  split
  · rfl
  rename_i hknown
  split
  · rfl
  · rfl
  · rename_i txids hwork hproof
    have hvet := vet_eq_some_iff.2 ⟨Bool.eq_false_iff.2 hknown, checkWork_eq_ok_iff.1 hwork, hproof⟩
    rw [h] at hvet
    cases hvet

/-! ## What waits -/

/-- The blocks that wait, in the round and in the pool, were checked. -/
structure Vetted (e : Engine) : Prop where
  held {round : Round} {hash : Digest} {block : FilteredBlock} : e.round = some round →
    round.requests.heldBack.get? hash = some block → block.Vetted
  pooled {hash : Digest} {o : Orphan} : e.orphans.get? hash = some o → o.item.Vetted

theorem RequestMove.vetted {c : Chain} {bound : Option PeerId} {r r' : Requests}
    (h : RequestMove (fun _ item => item.Vetted) c bound r r')
    (hr : ∀ hash block, r.heldBack.get? hash = some block → block.Vetted) {hash : Digest} {block : FilteredBlock}
    (hheld : r'.heldBack.get? hash = some block) : block.Vetted := by
  cases h with
  | ask _ =>
    rw [Requests.track_fst] at hheld
    exact hr hash block hheld
  | @hold _ new _ hgiven =>
    cases hawaited : r.isAwaitedBlock new.hash with
    | false =>
      rw [Requests.holdBack_of_not_awaited hawaited] at hheld
      exact hr hash block hheld
    | true =>
      rw [Requests.holdBack_of_awaited hawaited] at hheld
      obtain ⟨-, rfl⟩ | ⟨-, hold⟩ := Table.get?_insert_eq_some.1 hheld
      · exact hgiven
      · exact hr hash block hold
  | release => exact hr hash block (Table.get?_erase_eq_some.1 hheld).2
  | block _ _ _ hawaited _ =>
    rw [Requests.receiveBlock_of_awaited hawaited] at hheld
    exact hr hash block (Table.get?_erase_eq_some.1 hheld).2
  | tx _ _ hawaited =>
    rw [Requests.receiveTx_of_awaited hawaited] at hheld
    exact hr hash block hheld

theorem Vetted.same {e e' : Engine} (h : Vetted e) (hround : e'.round = e.round)
    (hpool : ∀ hash o, e'.orphans.get? hash = some o → e.orphans.get? hash = some o ∨ o.item.Vetted) : Vetted e' where
  held hr := h.held (hround.symm.trans hr)
  pooled ho := (hpool _ _ ho).elim h.pooled id

theorem Vetted.fresh {e e' : Engine} (h : Vetted e) (horphans : e'.orphans = e.orphans)
    (hfresh : ∀ round, e'.round = some round → round.requests.heldBack = ∅) : Vetted e' where
  held hr hheld := by
    rw [hfresh _ hr] at hheld
    cases hheld
  pooled ho := h.pooled (by rw [← horphans]; exact ho)

theorem invariant_vetted : Invariant (fun _ item => item.Vetted) Vetted where
  held h hround _ hheld := h.held hround hheld
  pooled h ho := h.pooled ho
  move {e e'} h hmove := by
    cases hmove with
    | aside _ hround _ hpool => exact h.same hround hpool
    | anew hframe hfresh => exact h.fresh hframe.orphans fun round hr => by rw [hfresh round hr]; rfl
    | tip hframe _ _ hround =>
      refine h.fresh hframe.orphans fun round hr => ?_
      cases hround.symm.trans hr
      rw [Round.tip, Requests.ofHashes, Requests.track_fst]
      rfl
    | within hframe hround hround' _ hrequests =>
      refine ⟨fun hr hheld => ?_, fun ho => h.pooled (by rw [← hframe.orphans]; exact ho)⟩
      cases hround'.symm.trans hr
      exact hrequests.vetted (fun _ _ => h.held hround) hheld
    | refused hframe hround _ hround' =>
      exact h.same (hround'.trans hround.symm) fun _ _ ho => Or.inl (by rw [← hframe.orphans]; exact ho)
    | committed _ _ _ _ horphans _ hfresh => exact h.fresh horphans fun round hr => by rw [hfresh round hr]; rfl

/-- **Every opening of a call keeps it**, for an item that the checks refuse does nothing. -/
theorem Vetted.opening {e : Engine} (h : Vetted e) (env : Outlook) (call : Call) : Vetted (e.opening env call) := by
  by_cases hgiven : ∀ peer item, call = .deliver peer item → item.Vetted
  · exact invariant_vetted.opening h env hgiven
  · push Not at hgiven
    obtain ⟨peer, item, rfl, hnot⟩ := hgiven
    cases item with
    | tx tx => exact absurd trivial hnot
    | block block =>
      have hvet : vet e.chain block = none := by
        cases hvet : vet e.chain block with
        | none => rfl
        | some txids =>
          have hchecked := vet_eq_some_iff.1 hvet
          exact absurd ⟨hchecked.work, txids, hchecked.proof⟩ hnot
      rw [Engine.opening, process, processBlock_of_vet_eq_none env hvet]
      exact h

/-- What the round awaits is unknown to the chain. -/
abbrev AwaitsUnknown : Engine → Prop :=
  Holds (fun _ => True) fun c r => ∀ hash, r.isAwaitedBlock hash = true → c.knows hash = false

theorem stable_awaitsUnknown :
    Stable (fun _ => True) fun c r => ∀ hash, r.isAwaitedBlock hash = true → c.knows hash = false where
  chain_congr h _ := h
  congr h hsame hash hawaited := by
    rw [hsame.knows]
    exact h hash hawaited
  empty _ hash hawaited := by cases hawaited
  within _ h hmove hash hawaited := by
    rw [Requests.isAwaitedBlock_iff] at hawaited
    cases hmove with
    | ask hunknown =>
      rw [Requests.track_fst, List.mem_append] at hawaited
      rcases hawaited with hold | hnew
      · exact h hash (Requests.isAwaitedBlock_iff.2 hold)
      · exact hunknown hash ((Requests.mem_newBlocks _ _ _).1 hnew).1
    | @hold _ new _ _ =>
      cases hnew : Requests.isAwaitedBlock _ new.hash with
      | false =>
        rw [Requests.holdBack_of_not_awaited hnew] at hawaited
        exact h hash (Requests.isAwaitedBlock_iff.2 hawaited)
      | true =>
        rw [Requests.holdBack_of_awaited hnew] at hawaited
        exact h hash (Requests.isAwaitedBlock_iff.2 hawaited)
    | release => exact h hash (Requests.isAwaitedBlock_iff.2 hawaited)
    | block _ _ _ hblock _ =>
      rw [Requests.receiveBlock_of_awaited hblock] at hawaited
      exact h hash (Requests.isAwaitedBlock_iff.2 (List.mem_of_mem_erase hawaited))
    | tx _ _ htx =>
      rw [Requests.receiveTx_of_awaited htx] at hawaited
      exact h hash (Requests.isAwaitedBlock_iff.2 hawaited)
  commit h _ _ := h

/-! ## When blocks are let go -/

/-- The books are in order, and every block held back would pass the checks now. -/
structure Poised (e : Engine) : Prop where
  booked : Booked e
  checked {round : Round} {hash : Digest} {block : FilteredBlock} : e.round = some round →
    round.requests.heldBack.get? hash = some block → ∃ txids, Checked e.chain block txids

/-- The engine begins to let go of blocks: after the opening of a call, and once more after each pass over the
orphans. -/
inductive AtRelease (c : Chain) (env : Outlook) : Engine → Prop where
  | opening {e : Engine} {call : Call} : Reachable c e → call.isVoid = false → AtRelease c env (e.opening env call)
  | pass {e : Engine} : AtRelease c env e →
      AtRelease c env ((e.settle env).usableOrphans.foldl (useOrphan env) (e.settle env))

theorem poised_of {e : Engine} (hbooked : Booked e) (hvetted : Vetted e) (hunknown : AwaitsUnknown e) : Poised e where
  booked := hbooked
  checked hround hheld := by
    obtain ⟨rfl, hawaited⟩ := (hbooked.round hround).heldBack hheld
    obtain ⟨hwork, txids, hproof⟩ := hvetted.held hround hheld
    exact ⟨txids, hunknown.round hround _ hawaited, hwork, hproof⟩

theorem Reachable.vetted {c : Chain} {e : Engine} (he : Reachable c e) : Vetted e := by
  obtain ⟨e₀, turns, hnew, rfl⟩ := he
  refine run_induction (P := fun _ e => Vetted e) ?_ (fun _ e t h => ?_) turns
  · obtain ⟨-, hround, -, hpool⟩ := hnew.eq
    refine ⟨fun hr => ?_, fun ho => ?_⟩
    · rw [hround] at hr
      cases hr
    · rw [hpool] at ho
      cases ho
  · cases t with
    | call env call => exact (invariant_vetted.persistent env).call h (h.opening env call)
    | _ => exact invariant_vetted.turn h fun _ _ _ hcall => by cases hcall

/-- **Whenever the engine begins to let go of blocks**, those held back pass the checks. -/
theorem AtRelease.poised {c : Chain} {env : Outlook} {e : Engine} (h : AtRelease c env e) : Poised e := by
  have hinvariants : Booked e ∧ Vetted e ∧ AwaitsUnknown e := by
    induction h with
    | opening he _ =>
      exact ⟨stable_booked.invariant.opening (stable_booked.reachable trivial he) env fun _ _ _ => trivial,
        he.vetted.opening env _,
        stable_awaitsUnknown.invariant.opening (stable_awaitsUnknown.reachable trivial he) env fun _ _ _ => trivial⟩
    | pass _ ih =>
      have hbooked := stable_booked.invariant.persistent env
      have hvetted := invariant_vetted.persistent env
      have hunknown := stable_awaitsUnknown.invariant.persistent env
      exact ⟨hbooked.foldl_useOrphan _ (hbooked.settle ih.1), hvetted.foldl_useOrphan _ (hvetted.settle ih.2.1),
        hunknown.foldl_useOrphan _ (hunknown.settle ih.2.2)⟩
  exact poised_of hinvariants.1 hinvariants.2.1 hinvariants.2.2

end Engine
end LightClient
