import LightClient.Proofs.Engine.Faults
import LightClient.Proofs.Engine.Offender
/-!
# A restart is clean

A peer is blamed if it lacks what it was asked for, or if it delivers what was asked of another peer (`Blamed`). Then
the opening of the call is a restart without it (`Blamed.opening`), and with another peer ahead of us the restart begins
a round with that one. The new round has asked for no block yet, so it has no use for anything that was waiting
(`Quiet.of_bulk`): what the restart leaves is what the call leaves (`Reachable.restarted`).
-/
namespace LightClient
namespace Engine

/-- The call holds something against the peer. -/
inductive Blamed (env : Outlook) (e : Engine) (peer : PeerId) : Call → Prop where
  | lacks {items} : Blamed env e peer (.lack peer items)
  | intrudes {item bound} : (e.call env (.deliver peer item)).2 = .error (.nonSyncPeer peer bound) →
      Blamed env e peer (.deliver peer item)

variable {env : Outlook} {e : Engine} {offender : PeerId} {call : Call}

/-- **A peer that is blamed is dropped** before anything else. -/
theorem Blamed.opening (h : Blamed env e offender call) :
    call.isVoid = false ∧ e.opening env call = e.restartWithout env offender := by
  cases h with
  | lacks => exact ⟨rfl, rfl⟩
  | @intrudes item bound hanswer =>
    rw [Engine.call, receive_eq] at hanswer
    have hfaulted := process_faulted hanswer
    refine ⟨rfl, ?_⟩
    rw [Engine.opening]
    generalize (e.process env offender item).1 = e' at hfaulted
    cases hfaulted with
    | rejected _ _ _ => rfl

/-- The faults of the offender and of the peer that the round was bound to are recorded, and no others. -/
theorem policy_drop (env : Outlook) (e : Engine) (offender : PeerId) :
    (e.drop env offender).policy.cooldown = e.policy.cooldown ∧
      ∀ id, (e.drop env offender).policy.faults.get? id =
        if id = offender ∨ e.syncPeer = some id then some env.now else e.policy.faults.get? id := by
  simp only [drop, command]
  split
  · rename_i bound hbound
    obtain ⟨hbound, -⟩ := Option.filter_eq_some_iff.1 hbound
    refine ⟨rfl, fun id => ?_⟩
    simp only [PeerPolicy.recordFault, Table.get?_insert, hbound, Option.some.injEq]
    by_cases hb : id = bound
    · simp [hb]
    · by_cases ho : id = offender
      · simp [ho]
      · simp [hb, ho, Ne.symm hb]
  · rename_i hnone
    refine ⟨rfl, fun id => ?_⟩
    have hfree (hsync : e.syncPeer = some id) : id = offender := by
      rw [hsync] at hnone
      simpa using hnone
    simp only [PeerPolicy.recordFault, Table.get?_insert, or_iff_left_of_imp hfree]

/-- **A new bulk round leaves what was waiting at rest.** -/
theorem Quiet.of_bulk {e' : Engine} {q : PeerId} {locator : List Digest} {now : Nat} (h : Quiet e)
    (hchain : e'.chain = e.chain) (horphans : e'.orphans = e.orphans)
    (hround : e'.round = some (.bulk q locator now)) : Quiet e' where
  unknown ho hblock := by
    rw [horphans] at ho
    rw [hchain]
    exact h.unknown ho hblock
  unusable _ := not_isUsable_of_bulk hround _ _ _
  unready hr _ hheld := by
    cases hround.symm.trans hr
    cases hheld

/-- **A fault causes one clean restart.** If a call holds something against a peer in a reachable state while another
peer is connected and ahead of us, the call leaves a new round with a peer other than that one, which the policy
chooses, and nothing else but the two faults and the four commands of the restart. -/
theorem Reachable.restarted {c : Chain} (he : Reachable c e) (h : Blamed env e offender call)
    (hrival : ∃ peer ∈ env.peers, peer.isEstablished = true ∧ e.chain.height < peer.height ∧ peer.id ≠ offender) :
    ∃ q policy, q ≠ offender ∧ policy.select env.peers e.chain.height (some offender) none env.now = some q ∧
      policy.cooldown = e.policy.cooldown ∧
      (∀ id, policy.faults.get? id =
        if id = offender ∨ e.syncPeer = some id then some env.now else e.policy.faults.get? id) ∧
      (e.call env call).1 =
        { e with
          round := some (.bulk q e.chain.locator env.now)
          policy
          commands := e.commands ++ [.disconnect offender, .bind none, .bind (some q),
            .send q (.getBlocks e.chain.locator Digest.zero)] } := by
  obtain ⟨rival, hmem, hestablished, hahead, hother⟩ := hrival
  have hcandidate : rival ∈ PeerPolicy.candidates env.peers e.chain.height (some offender) :=
    PeerPolicy.mem_candidates.2 ⟨hmem, hestablished, hahead, fun h => hother (Option.some.inj h)⟩
  obtain ⟨q, hselect⟩ := Option.ne_none_iff_exists'.1 fun h =>
    List.ne_nil_of_mem hcandidate (PeerPolicy.select_eq_none_iff (p := (e.drop env offender).policy).1 h)
  obtain ⟨peer, hpeer, rfl⟩ := PeerPolicy.exists_candidate_of_select hselect
  have hne : some peer.id ≠ some offender := (PeerPolicy.mem_candidates.1 hpeer).2.2.2
  obtain ⟨hvoid, hopening⟩ := h.opening
  have hrestart : e.opening env call = (e.drop env offender).beginRound env peer.id := by
    rw [hopening, restartWithout_eq, hselect]
  have hquiet : Quiet (e.opening env call) := by
    rw [hrestart]
    exact he.rested.quiet.of_bulk rfl rfl rfl
  have hcall : (e.call env call).1 = (e.drop env offender).beginRound env peer.id := by
    rw [call_fst, hvoid, hquiet.resolveOrphans (he.rested.sound_opening env call).consistent, hrestart]
    rfl
  have hcommands : ((e.drop env offender).beginRound env peer.id).commands =
      e.commands ++ [.disconnect offender, .bind none, .bind (some peer.id),
        .send peer.id (.getBlocks e.chain.locator Digest.zero)] := by
    rw [commands_beginRound, commands_drop, List.append_assoc]
    rfl
  obtain ⟨hcooldown, hfaults⟩ := policy_drop env e offender
  refine ⟨peer.id, (e.drop env offender).policy, fun h => hne (by rw [h]), hselect, hcooldown, hfaults, ?_⟩
  rw [hcall, ← hcommands]
  rfl

end Engine

namespace Sample

/-- Another peer is connected, too. -/
def crowd : Outlook := { outlook with peers := outlook.peers ++ [⟨⟨2⟩, 3, .established, 0⟩] }

end Sample

namespace Engine

open Sample

/-- The bound peer lacks a block while a transaction waits in the pool. -/
theorem restarted_stray :
    let e := engine.run stray
    Reachable (.ofGenesis genesis) e ∧ e.orphans.size = 1 ∧ e.syncPeer = some peer ∧
      ∃ q policy, q ≠ peer ∧ (e.call crowd (.lack peer [])).1 =
        { e with
          round := some (.bulk q e.chain.locator crowd.now)
          policy
          commands := e.commands ++ [.disconnect peer, .bind none, .bind (some q),
            .send q (.getBlocks e.chain.locator Digest.zero)] } := by
  intro e
  have hreachable : Reachable (.ofGenesis genesis) e := ⟨engine, stray, isNew_engine, rfl⟩
  have hblamed : Blamed crowd e peer (.lack peer []) := .lacks
  obtain ⟨q, policy, hne, -, -, -, hcall⟩ := hreachable.restarted hblamed
    ⟨⟨⟨2⟩, 3, .established, 0⟩, by decide +kernel, by decide +kernel, by decide +kernel, by decide +kernel⟩
  exact ⟨hreachable, orphans_stray.1, by decide +kernel, q, policy, hne, hcall⟩

end Engine
end LightClient
