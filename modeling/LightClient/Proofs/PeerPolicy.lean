import LightClient.PeerPolicy
/-!
# Which peer is chosen

`select` chooses one of the candidates, and it chooses one whenever there are any: faults, cooldowns and the preference
only decide between them.
-/
namespace LightClient
namespace PeerPolicy

theorem prune_prune (p : PeerPolicy) (now : Nat) : (p.prune now).prune now = p.prune now := by
  have hfaults : (p.prune now).faults.filter (fun _ since => now - since < p.cooldown) = (p.prune now).faults :=
    Table.filter_eq_self fun _ he => (List.mem_filter.1 he).2
  exact congrArg (PeerPolicy.mk p.cooldown) hfaults

theorem best?_eq_none_iff {peers : List Peer} : best? peers = none ↔ peers = [] := by
  cases peers with
  | nil => simp [best?]
  | cons p rest =>
    rw [best?]
    split <;> simp

theorem mem_of_best? : ∀ {peers : List Peer} {p : Peer}, best? peers = some p → p ∈ peers
  | p :: rest, q, h => by
    rw [best?] at h
    split at h
    · cases h
      exact List.mem_cons_self
    · rename_i r hr
      have hmem := mem_of_best? hr
      cases h
      split
      · exact List.mem_cons_self
      · exact List.mem_cons_of_mem p hmem

theorem mem_candidates {peers : List Peer} {localHeight : Nat} {exclude : Option PeerId} {q : Peer} :
    q ∈ candidates peers localHeight exclude ↔
      q ∈ peers ∧ q.isEstablished = true ∧ localHeight < q.height ∧ some q.id ≠ exclude := by
  simp [candidates, and_assoc]

variable {p : PeerPolicy} {peers : List Peer} {localHeight : Nat} {exclude prefer : Option PeerId} {now : Nat}

theorem exists_candidate_of_select {id : PeerId} (h : p.select peers localHeight exclude prefer now = some id) :
    ∃ q ∈ candidates peers localHeight exclude, q.id = id := by
  simp only [select] at h
  split at h
  · rename_i preferred hpreferred
    cases h
    obtain ⟨-, hgood⟩ := Option.filter_eq_some_iff.1 hpreferred
    obtain ⟨q, hq, hid⟩ := List.any_eq_true.1 hgood
    exact ⟨q, (List.mem_filter.1 hq).1, of_decide_eq_true hid⟩
  · obtain ⟨q, hbest, rfl⟩ := Option.map_eq_some_iff.1 h
    refine ⟨q, ?_, rfl⟩
    rcases Option.or_eq_some_iff.1 hbest with hgood | ⟨-, hall⟩
    · exact (List.mem_filter.1 (mem_of_best? hgood)).1
    · exact mem_of_best? hall

/-- **A peer is chosen exactly if there is a candidate.** -/
theorem select_eq_none_iff :
    p.select peers localHeight exclude prefer now = none ↔ candidates peers localHeight exclude = [] := by
  constructor
  · intro h
    simp only [select] at h
    split at h
    · cases h
    · rw [Option.map_eq_none_iff, Option.or_eq_none_iff] at h
      exact best?_eq_none_iff.1 h.2
  · intro hnone
    rw [Option.eq_none_iff_forall_ne_some]
    intro id h
    obtain ⟨q, hq, -⟩ := exists_candidate_of_select h
    rw [hnone] at hq
    cases hq

end PeerPolicy
end LightClient
