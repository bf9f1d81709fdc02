import LightClient.Proofs.Engine.Quiescence
/-!
# What a fault says

An item that a peer delivers is refused for what it is, or the peer is rejected because it was not asked, or the item
was taken and the chain refused the round. `Faulted` lists these, with what was found and what is left of the engine,
and is read off the code once (`process_faulted`).

Every call ends with the items that were waiting, also one that refuses what it was given. But between two calls there
is nothing that could be used, so a refusal changes nothing at all (`Reachable.refused`).
-/
namespace LightClient

/-- What was delivered is refused for what it is, whoever sent it. -/
def Fault.isRefusal : Fault → Bool
  | .duplicateBlock _ | .invalidHeader _ _ | .invalidProof _ _ | .alreadyCached _ | .chain _ => true
  | .unsupportedMessage _ | .incompatiblePeer _ | .nonSyncPeer _ _ | .notFound _ _ | .commitFailed _ => false

theorem Store.commitUnconfirmed_eq_error {s s' : Store} {tx : Transaction} {cause : ChainError}
    (h : s.commitUnconfirmed tx = (s', .error cause)) : s' = s := by
  unfold Store.commitUnconfirmed at h
  split at h
  · cases h
  · cases h
    rfl

namespace Engine

/-- What a fault says of the item that a peer delivered, and of the engine before and after. -/
inductive Faulted (env : Outlook) (e : Engine) (peer : PeerId) : OrphanItem → Fault → Engine → Prop where
  | known {block} : e.chain.knows block.hash = true →
      Faulted env e peer (.block block) (.duplicateBlock block.hash) e
  | header {block cause} : block.header.checkWork = .error cause →
      Faulted env e peer (.block block) (.invalidHeader block.hash cause) e
  | proof {block cause} : block.provedTxids = .error cause →
      Faulted env e peer (.block block) (.invalidProof block.hash cause) e
  | cached {tx} : e.syncPeer = none → e.txCache.contains tx.txid = true → e.isAwaitedTx tx.txid = false →
      Faulted env e peer (.tx tx) (.alreadyCached tx.txid) e
  | chain {tx cause} : e.syncPeer = none → e.store.commitUnconfirmed tx = (e.store, .error cause) →
      Faulted env e peer (.tx tx) (.chain cause) e
  /-- The item was asked of another peer. -/
  | rejected {item bound} : e.syncPeer = some bound → peer ≠ bound → e.awaits item = true →
      Faulted env e peer item (.nonSyncPeer peer (some bound)) (e.restartWithout env peer)
  | uncommitted {item cause e'} : Faulted env e peer item (.commitFailed cause) e'

theorem finishIfComplete_faulted {env : Outlook} {e : Engine} {fault : Fault}
    (h : (e.finishIfComplete env).2 = .error fault) : ∃ cause, fault = .commitFailed cause := by
  unfold finishIfComplete at h
  split at h
  · cases h
  split at h
  · rename_i cause _
    cases h
    exact ⟨cause, rfl⟩
  · cases h

variable {env : Outlook} {e : Engine} {peer : PeerId} {fault : Fault}

theorem processBlock_of_known {block : FilteredBlock} (h : e.chain.knows block.hash = true) :
    e.processBlock env peer block = (e, .error (.duplicateBlock block.hash)) := if_pos h

theorem placeInBulk_faulted {bound : PeerId} (hbound : e.syncPeer = some bound) {block : FilteredBlock}
    {txids : List Digest} (h : (e.placeInBulk env bound peer block txids).2 = .error fault) :
    Faulted env e peer (.block block) fault (e.placeInBulk env bound peer block txids).1 := by
  revert h
  simp only [placeInBulk]
  split
  · rintro ⟨⟩
  rename_i hawaited
  rw [Bool.not_eq_true', Bool.not_eq_false] at hawaited
  split
  · rename_i hne
    rintro ⟨⟩
    exact .rejected hbound hne hawaited
  split
  · rintro ⟨⟩
  · intro h
    obtain ⟨round, hround, -⟩ := syncPeer_eq_some_iff.1 hbound
    rw [acceptBlock_of_round hround] at h
    obtain ⟨cause, rfl⟩ := finishIfComplete_faulted h
    exact .uncommitted

theorem placeAtTip_faulted {block : FilteredBlock} {txids : List Digest}
    (h : (e.placeAtTip env peer block txids).2 = .error fault) :
    Faulted env e peer (.block block) fault (e.placeAtTip env peer block txids).1 := by
  revert h
  simp only [placeAtTip]
  split
  · split
    · rintro ⟨⟩
    · rintro ⟨⟩
  split
  · rintro ⟨⟩
  split
  · rintro ⟨⟩
  · intro h
    rw [acceptBlock_of_round rfl] at h
    obtain ⟨cause, rfl⟩ := finishIfComplete_faulted h
    exact .uncommitted

theorem processBlock_faulted {block : FilteredBlock} (h : (e.processBlock env peer block).2 = .error fault) :
    Faulted env e peer (.block block) fault (e.processBlock env peer block).1 := by
  revert h
  simp only [processBlock]
  split
  · rename_i hknown
    rintro ⟨⟩
    exact .known hknown
  split
  · rename_i hwork
    rintro ⟨⟩
    exact .header hwork
  · rename_i hproof _
    rintro ⟨⟩
    exact .proof hproof
  split
  · rename_i hbound
    exact placeInBulk_faulted hbound
  · exact placeAtTip_faulted

theorem processTx_faulted {tx : Transaction} (h : (e.processTx env peer tx).2 = .error fault) :
    Faulted env e peer (.tx tx) fault (e.processTx env peer tx).1 := by
  have haccepted {e₁ : Engine} (h : (e₁.acceptTx env tx).2 = .error fault) :
      Faulted env e peer (.tx tx) fault (e₁.acceptTx env tx).1 := by
    obtain ⟨cause, rfl⟩ := finishIfComplete_faulted h
    exact .uncommitted
  revert h
  simp only [processTx]
  split
  · rename_i bound hbound
    split
    · rintro ⟨⟩
    rename_i hawaited
    rw [Bool.not_eq_true', Bool.not_eq_false] at hawaited
    split
    · rename_i hne
      rintro ⟨⟩
      exact .rejected hbound hne hawaited
    · exact haccepted
  rename_i hfree
  split
  · rename_i hcached
    split
    · exact haccepted
    · rename_i hawaited
      rintro ⟨⟩
      exact .cached hfree hcached ((Bool.not_eq_true _).mp hawaited)
  split
  · rename_i e₁ fault' hoffered
    rintro ⟨⟩
    simp only [offerUnconfirmed] at hoffered
    split at hoffered
    · rename_i store cause hrefused
      cases hoffered
      obtain rfl := Store.commitUnconfirmed_eq_error hrefused
      exact .chain hfree hrefused
    · cases hoffered
  split
  · exact haccepted
  · rintro ⟨⟩

/-- **What the answer to a delivery says**, if it is a fault. -/
theorem process_faulted {item : OrphanItem} (h : (e.process env peer item).2 = .error fault) :
    Faulted env e peer item fault (e.process env peer item).1 := by
  cases item with
  | block block => exact processBlock_faulted h
  | tx tx => exact processTx_faulted h

theorem Faulted.eq_of_isRefusal {item : OrphanItem} {e' : Engine} (h : Faulted env e peer item fault e')
    (hrefusal : fault.isRefusal = true) : e' = e := by
  cases h with
  | known _ | header _ | proof _ | cached _ _ _ | chain _ _ => rfl
  | rejected _ _ _ | uncommitted => cases hrefusal

/-- A delivery is answered before the items that were waiting get their turn. -/
theorem receive_eq (env : Outlook) (e : Engine) (peer : PeerId) (item : OrphanItem) :
    e.receive env peer item = ((e.process env peer item).1.resolveOrphans env, (e.process env peer item).2) := by
  cases item <;> rfl

/-- **A refusal changes nothing.** In every reachable state, a block that the chain knows is refused, and whenever a
block or a transaction is refused for what it is, the engine stays as it was, with its chain, its round, its pool and
its commands. -/
theorem Reachable.refused {c : Chain} {e : Engine} (he : Reachable c e) (env : Outlook) (peer : PeerId) :
    (∀ item fault, (e.receive env peer item).2 = .error fault → fault.isRefusal = true →
      (e.receive env peer item).1 = e) ∧
    ∀ block, e.chain.knows block.hash = true →
      (e.receive env peer (.block block)).2 = .error (.duplicateBlock block.hash) := by
  refine ⟨fun item fault hfault hrefusal => ?_, fun block hknown => ?_⟩
  · rw [receive_eq] at hfault ⊢
    rw [(process_faulted hfault).eq_of_isRefusal hrefusal]
    exact he.rested.quiet.resolveOrphans he.rested.sound.consistent env
  · rw [receive_eq, process, processBlock_of_known hknown]

end Engine

namespace Sample

/-- A block under the genesis header. -/
def copy : FilteredBlock := ⟨genesis, ⟨1, [.zero], [0]⟩⟩

end Sample

namespace Engine

open Sample

/-- A known block comes in the middle of a bulk round, while a transaction waits in the pool. -/
theorem refused_copy :
    Reachable (.ofGenesis genesis) (engine.run stray) ∧ (engine.run stray).orphans.size = 1 ∧
      ((engine.run stray).receive outlook peer (.block copy)).2 = .error (.duplicateBlock copy.hash) ∧
      ((engine.run stray).receive outlook peer (.block copy)).1 = engine.run stray := by
  have hreachable : Reachable (.ofGenesis genesis) (engine.run stray) := ⟨engine, stray, isNew_engine, rfl⟩
  obtain ⟨hunchanged, hduplicate⟩ := hreachable.refused outlook peer
  have hfault := hduplicate copy (by decide +kernel)
  exact ⟨hreachable, orphans_stray.1, hfault, hunchanged _ _ hfault rfl⟩

end Engine
end LightClient
