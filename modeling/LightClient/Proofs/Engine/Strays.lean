import LightClient.Proofs.Engine.Faults
/-!
# A bulk round goes its own way

A bulk round takes note of what it asked for, and of the peer it is bound to. Whatever else comes in the meantime is a
stray (`Stray`): it is pooled at most (`Handled.of_stray`), in place of the oldest orphan if there is no room. A stray
in the pool is nothing that the round could use (`Quiet.addOrphan`), so the orphans stay at rest, and the pool is all
that a stray can change (`Reachable.undisturbed`).
-/
namespace LightClient
namespace Engine

/-- An item that the round bound to this peer does not ask for, whoever delivers it, or an offer of somebody else. -/
inductive Stray (e : Engine) (bound : PeerId) : Call → Prop where
  | item {peer item} : e.awaits item = false → Stray e bound (.deliver peer item)
  | offer {peer items} : peer ≠ bound → Stray e bound (.offer peer items)

variable {env : Outlook} {e : Engine} {bound : PeerId}

/-- **A stray is pooled at most.** -/
theorem Handled.of_stray {e' : Engine} {peer : PeerId} {item : OrphanItem} (h : Handled env e peer item e')
    (hbound : e.syncPeer = some bound) (hstray : e.awaits item = false) :
    e' = e ∨ e' = e.addOrphan env item.hash item peer := by
  obtain ⟨current, hround, -⟩ := syncPeer_eq_some_iff.1 hbound
  cases h with
  | dropped => exact Or.inl rfl
  | pooled _ _ => exact Or.inr rfl
  | rejected _ _ hawaited =>
    rw [hstray] at hawaited
    cases hawaited
  | heldBack hround _ hawaited _ | recorded hround _ _ hawaited _ _ =>
    rw [awaits, isAwaitedBlock, hround, Option.any_some, hawaited] at hstray
    cases hstray
  | begun hnone _ _ _ =>
    rw [hround] at hnone
    cases hnone
  | offered hfree =>
    rw [hbound] at hfree
    cases hfree
  | fetched _ hround _ hawaited _ =>
    rw [awaits, isAwaitedTx, hround, Option.any_some, hawaited] at hstray
    cases hstray

theorem processOffer_of_stranger {peer : PeerId} (hbound : e.syncPeer = some bound) (hne : peer ≠ bound)
    (hashes : List Digest) : e.processOffer env peer hashes = e := by
  obtain ⟨round, hround, hsync⟩ := syncPeer_eq_some_iff.1 hbound
  simp only [processOffer, hround, hsync, if_neg hne]

/-- **A stray in the pool is of no use** to the round. -/
theorem Quiet.addOrphan (h : Quiet e) (hbound : e.syncPeer = some bound) {item : OrphanItem}
    (hstray : e.awaits item = false) (hunknown : item.isBlock = true → e.chain.knows item.hash = false)
    (peer : PeerId) : Quiet (e.addOrphan env item.hash item peer) := by
  obtain ⟨round, hround, -⟩ := syncPeer_eq_some_iff.1 hbound
  refine ⟨fun ho hblock => ?_, fun ho => ?_, h.unready⟩
  · obtain hold | ⟨rfl, rfl⟩ := Orphans.get?_of_get?_insert ho
    · exact h.unknown hold hblock
    · exact hunknown hblock
  · obtain hold | ⟨rfl, rfl⟩ := Orphans.get?_of_get?_insert ho
    · exact h.unusable hold
    · change e.isUsable e.chain.tip.hash item.hash ⟨item, peer, env.now⟩ = false
      cases item with
      | block block =>
        rw [awaits, isAwaitedBlock, hround, Option.any_some] at hstray
        simp only [isUsable, hround, OrphanItem.hash, hstray, Bool.and_false, Bool.false_and]
      | tx tx =>
        rw [awaits, isAwaitedTx, hround, Option.any_some] at hstray
        simp only [isUsable, hround, OrphanItem.hash, hstray, Bool.false_and]

/-- The opening of a stray call leaves nothing to do. -/
theorem Rested.opening_stray (h : Rested e) (hbound : e.syncPeer = some bound) {call : Call}
    (hstray : e.Stray bound call) (env : Outlook) :
    (e.opening env call = e ∨
      ∃ peer item, call = .deliver peer item ∧ e.opening env call = e.addOrphan env item.hash item peer) ∧
    Quiet (e.opening env call) := by
  cases hstray with
  | @offer peer items hne =>
    have hsame : e.opening env (.offer peer items) = e := processOffer_of_stranger hbound hne _
    exact ⟨Or.inl hsame, by rw [hsame]; exact h.quiet⟩
  | @item peer item hstray =>
    have hopening : e.opening env (.deliver peer item) = (e.process env peer item).1 := rfl
    -- a block that the chain knows is refused, and would not be at rest in the pool
    by_cases hknown : ∃ block, item = .block block ∧ e.chain.knows block.hash = true
    · obtain ⟨block, rfl, hknown⟩ := hknown
      rw [hopening, process, processBlock_of_known hknown]
      exact ⟨Or.inl rfl, h.quiet⟩
    · rcases (process_handled env e peer item).of_stray hbound hstray with hsame | hpooled
      · rw [hopening, hsame]
        exact ⟨Or.inl rfl, h.quiet⟩
      · rw [hopening, hpooled]
        refine ⟨Or.inr ⟨peer, item, rfl, rfl⟩, h.quiet.addOrphan hbound hstray (fun hblock => ?_) peer⟩
        cases item with
        | block block => exact Bool.eq_false_iff.2 fun h => hknown ⟨block, rfl, h⟩
        | tx tx => cases hblock

/-- **Strays cannot disturb a bulk round.** In every reachable state with a round that is bound to a peer, an item that
the round does not ask for and an offer of another peer leave everything but the pool of orphans as it was. In the pool
there is the item besides at most. -/
theorem Reachable.undisturbed {c : Chain} (he : Reachable c e) (hbound : e.syncPeer = some bound) {call : Call}
    (hstray : e.Stray bound call) (env : Outlook) :
    ∃ orphans, (e.call env call).1 = { e with orphans } ∧
      (orphans = e.orphans ∨
        ∃ peer item, call = .deliver peer item ∧ orphans = e.orphans.insert item.hash item peer env.now) := by
  obtain ⟨hopening, hquiet⟩ := he.rested.opening_stray hbound hstray env
  have hcall : (e.call env call).1 = e ∨ (e.call env call).1 = e.opening env call := by
    rw [call_fst]
    split
    · exact Or.inl rfl
    · exact Or.inr (hquiet.resolveOrphans (he.rested.sound_opening env call).consistent env)
  rcases hcall with hsame | hcall
  · exact ⟨e.orphans, hsame, Or.inl rfl⟩
  rw [hcall]
  rcases hopening with hsame | ⟨peer, item, rfl, hpooled⟩
  · exact ⟨e.orphans, hsame, Or.inl rfl⟩
  · exact ⟨_, hpooled, Or.inr ⟨peer, item, rfl, rfl⟩⟩

open Sample

/-- A block on the tip comes from somebody else in the middle of a bulk round, while a transaction waits in the pool. -/
theorem undisturbed_stray :
    let e := engine.run stray
    let call := Call.deliver ⟨2⟩ (.block paying)
    Reachable (.ofGenesis genesis) e ∧ e.syncPeer = some peer ∧ e.Stray peer call ∧
      ∃ orphans, (e.call outlook call).1 = { e with orphans } ∧
        (orphans = e.orphans ∨ ∃ peer item, call = .deliver peer item ∧
          orphans = e.orphans.insert item.hash item peer outlook.now) := by
  intro e call
  have hreachable : Reachable (.ofGenesis genesis) e := ⟨engine, stray, isNew_engine, rfl⟩
  have hbound : e.syncPeer = some peer := by decide +kernel
  have hstray : e.Stray peer call := .item (by decide +kernel)
  exact ⟨hreachable, hbound, hstray, hreachable.undisturbed hbound hstray outlook⟩

end Engine
end LightClient
