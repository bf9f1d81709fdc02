import LightClient.Proofs.PeerPolicy
/-!
# Exactly which peer is chosen

`Chosen` says who is to be chosen without saying how: it asks only who could serve, who is in good standing, and who
ranks above whom. One choice satisfies it, and `select` makes that one (`select_eq_iff`). So the order of the peers
cannot matter, for `Chosen` knows only who is among them.

Nor can it matter when old faults are pruned. Two policies that took the same calls, but for some prunings by now, are
a policy and one that `Forgot` some faults of it whose cooldown has passed. That relation is kept by every call, and
such policies have the same peers cooling down.
-/
namespace LightClient
namespace PeerPolicy

/-! ## Who is to be chosen -/

/-- The peer could serve us: established, above our height, and not the excluded one. -/
structure Serves (peers : List Peer) (localHeight : Nat) (exclude : Option PeerId) (q : Peer) : Prop where
  mem : q ∈ peers
  established : q.state = .established
  higher : localHeight < q.height
  not_excluded : exclude ≠ some q.id

/-- Of the peers with a property, this one is among the highest, and no other of these has a lower identity. -/
structure IsBest (P : Peer → Prop) (q : Peer) : Prop where
  holds : P q
  height_le : ∀ r, P r → r.height ≤ q.height
  number_le : ∀ r, P r → r.height = q.height → q.id.number ≤ r.id.number

/-- Who is to be chosen of the peers with a property. -/
inductive Chosen (p : PeerPolicy) (P : Peer → Prop) (prefer : Option PeerId) (now : Nat) : Option PeerId → Prop
  | nobody (hnone : ∀ r, ¬ P r) : Chosen p P prefer now none
  | preferred {q : Peer} (hprefer : prefer = some q.id) (hq : P q) (hgood : p.isCoolingDown q.id now = false) :
      Chosen p P prefer now (some q.id)
  | best {q : Peer} (hprefer : ∀ r, P r → prefer = some r.id → p.isCoolingDown r.id now = true)
      (hbest : IsBest (fun r => P r ∧ p.isCoolingDown r.id now = false) q) : Chosen p P prefer now (some q.id)
  | lastResort {q : Peer} (hfaulted : ∀ r, P r → p.isCoolingDown r.id now = true) (hbest : IsBest P q) :
      Chosen p P prefer now (some q.id)

theorem IsBest.id_eq {P : Peer → Prop} {q r : Peer} (hq : IsBest P q) (hr : IsBest P r) : q.id = r.id := by
  have hheight : q.height = r.height := Nat.le_antisymm (hr.height_le q hq.holds) (hq.height_le r hr.holds)
  have hnumber : q.id.number = r.id.number :=
    Nat.le_antisymm (hq.number_le r hr.holds hheight.symm) (hr.number_le q hq.holds hheight)
  exact congrArg PeerId.mk hnumber

/-- **There is but one choice.** -/
theorem Chosen.eq {p : PeerPolicy} {P : Peer → Prop} {prefer : Option PeerId} {now : Nat} {a b : Option PeerId}
    (ha : Chosen p P prefer now a) (hb : Chosen p P prefer now b) : a = b := by
  have hclash {q : Peer} (hgood : p.isCoolingDown q.id now = false) (hcooling : p.isCoolingDown q.id now = true) :
      a = b := by
    rw [hgood] at hcooling
    cases hcooling
  cases ha with
  | nobody hnone =>
    cases hb with
    | nobody _ => rfl
    | preferred _ hr _ => exact absurd hr (hnone _)
    | best _ hr => exact absurd hr.holds.1 (hnone _)
    | lastResort _ hr => exact absurd hr.holds (hnone _)
  | preferred hprefer hq hgood =>
    cases hb with
    | nobody hnone => exact absurd hq (hnone _)
    | preferred hprefer' _ _ => exact hprefer.symm.trans hprefer'
    | best hprefer' _ => exact hclash hgood (hprefer' _ hq hprefer)
    | lastResort hfaulted _ => exact hclash hgood (hfaulted _ hq)
  | best hprefer hq =>
    cases hb with
    | nobody hnone => exact absurd hq.holds.1 (hnone _)
    | preferred hprefer' hr hgood => exact hclash hgood (hprefer _ hr hprefer')
    | best _ hr => exact congrArg some (hq.id_eq hr)
    | lastResort hfaulted _ => exact hclash hq.holds.2 (hfaulted _ hq.holds.1)
  | lastResort hfaulted hq =>
    cases hb with
    | nobody hnone => exact absurd hq.holds (hnone _)
    | preferred _ hr hgood => exact hclash hgood (hfaulted _ hr)
    | best _ hr => exact hclash hr.holds.2 (hfaulted _ hr.holds.1)
    | lastResort _ hr => exact congrArg some (hq.id_eq hr)

/-! ## Who is chosen -/

theorem outranks_iff {a b : Peer} :
    outranks a b = true ↔ b.height < a.height ∨ a.height = b.height ∧ a.id.number < b.id.number := by
  simp [outranks]

/-- **The fold over the peers finds the best of them.** -/
theorem isBest_of_best? : ∀ {peers : List Peer} {q : Peer}, best? peers = some q → IsBest (· ∈ peers) q
  | p :: rest, q, h => by
    rw [best?] at h
    split at h
    · rename_i hnone
      cases h
      rw [best?_eq_none_iff.1 hnone]
      constructor <;> simp
    · rename_i r hr
      have hbest := isBest_of_best? hr
      cases h
      split
      · rename_i hranks
        rcases outranks_iff.1 hranks with habove | ⟨heq, hid⟩
        · refine ⟨List.mem_cons_self, ?_, ?_⟩
          · rintro s (_ | ⟨_, hs⟩)
            · exact Nat.le_refl _
            · exact Nat.le_trans (hbest.height_le s hs) (Nat.le_of_lt habove)
          · rintro s (_ | ⟨_, hs⟩) hheight
            · exact Nat.le_refl _
            · have := hbest.height_le s hs
              omega
        · refine ⟨List.mem_cons_self, ?_, ?_⟩
          · rintro s (_ | ⟨_, hs⟩)
            · exact Nat.le_refl _
            · exact heq ▸ hbest.height_le s hs
          · rintro s (_ | ⟨_, hs⟩) hheight
            · exact Nat.le_refl _
            · exact Nat.le_trans (Nat.le_of_lt hid) (hbest.number_le s hs (hheight.trans heq))
      · rename_i hranks
        rw [outranks_iff, not_or, not_and, Nat.not_lt] at hranks
        obtain ⟨hle, hid⟩ := hranks
        refine ⟨List.mem_cons_of_mem _ hbest.holds, ?_, ?_⟩
        · rintro s (_ | ⟨_, hs⟩)
          · exact hle
          · exact hbest.height_le s hs
        · rintro s (_ | ⟨_, hs⟩) hheight
          · exact Nat.le_of_not_lt (hid hheight)
          · exact hbest.number_le s hs hheight

variable {p p' : PeerPolicy} {peers peers' : List Peer} {localHeight : Nat} {exclude prefer : Option PeerId} {now : Nat}

theorem mem_candidates_iff_serves {q : Peer} :
    q ∈ candidates peers localHeight exclude ↔ Serves peers localHeight exclude q := by
  rw [mem_candidates]
  constructor
  · rintro ⟨hmem, hestablished, hhigher, hne⟩
    exact ⟨hmem, of_decide_eq_true hestablished, hhigher, Ne.symm hne⟩
  · rintro ⟨hmem, hestablished, hhigher, hne⟩
    exact ⟨hmem, decide_eq_true hestablished, hhigher, Ne.symm hne⟩

/-- Who is best in a list is so under any property that says the same as being in it. -/
theorem IsBest.congr {P Q : Peer → Prop} {q : Peer} (h : IsBest P q) (hiff : ∀ r, P r ↔ Q r) : IsBest Q q :=
  (funext fun r => propext (hiff r) : P = Q) ▸ h

/-- The peers that could serve us and are in good standing, as `select` lists them. -/
theorem mem_filter_candidates {q : Peer} :
    q ∈ (candidates peers localHeight exclude).filter (fun c => !p.isCoolingDown c.id now) ↔
      Serves peers localHeight exclude q ∧ p.isCoolingDown q.id now = false := by
  rw [List.mem_filter, mem_candidates_iff_serves, Bool.not_eq_true']

/-- If no candidate in good standing is the preferred one, then those in good standing come first, and then all. -/
theorem chosen_best (hprefer : ∀ r, Serves peers localHeight exclude r → prefer = some r.id →
    p.isCoolingDown r.id now = true) :
    Chosen p (Serves peers localHeight exclude) prefer now
      (((best? ((candidates peers localHeight exclude).filter fun c => !p.isCoolingDown c.id now)).or
        (best? (candidates peers localHeight exclude))).map Peer.id) := by
  cases hgood : best? ((candidates peers localHeight exclude).filter fun c => !p.isCoolingDown c.id now) with
  | some q => exact .best hprefer ((isBest_of_best? hgood).congr fun r => mem_filter_candidates)
  | none =>
    have hfaulted : ∀ r, Serves peers localHeight exclude r → p.isCoolingDown r.id now = true := by
      refine fun r hr => eq_true_of_ne_false fun hne => ?_
      exact List.not_mem_nil (best?_eq_none_iff.1 hgood ▸ mem_filter_candidates.2 ⟨hr, hne⟩)
    rw [Option.none_or]
    cases hall : best? (candidates peers localHeight exclude) with
    | some q => exact .lastResort hfaulted ((isBest_of_best? hall).congr fun r => mem_candidates_iff_serves)
    | none => exact .nobody fun r hr => List.not_mem_nil (best?_eq_none_iff.1 hall ▸ mem_candidates_iff_serves.2 hr)

/-- **The choice that `select` makes is the one to be made.** -/
theorem chosen_select :
    Chosen p (Serves peers localHeight exclude) prefer now (p.select peers localHeight exclude prefer now) := by
  simp only [select]
  split
  · rename_i id hpreferred
    obtain ⟨hprefer, hany⟩ := Option.filter_eq_some_iff.1 hpreferred
    obtain ⟨q, hq, hid⟩ := List.any_eq_true.1 hany
    obtain rfl : q.id = id := of_decide_eq_true hid
    obtain ⟨hserves, hgood⟩ := mem_filter_candidates.1 hq
    exact .preferred hprefer hserves hgood
  · rename_i hnobody
    refine chosen_best fun r hr hprefer => eq_true_of_ne_false fun hgood => ?_
    rw [hprefer, Option.filter_eq_none_iff] at hnobody
    exact hnobody r.id rfl (List.any_eq_true.2 ⟨r, mem_filter_candidates.2 ⟨hr, hgood⟩, decide_eq_true rfl⟩)

theorem select_eq_iff {a : Option PeerId} :
    p.select peers localHeight exclude prefer now = a ↔ Chosen p (Serves peers localHeight exclude) prefer now a :=
  ⟨fun h => h ▸ chosen_select, fun h => chosen_select.eq h⟩

theorem serves_congr (h : ∀ q, q ∈ peers ↔ q ∈ peers') :
    Serves peers localHeight exclude = Serves peers' localHeight exclude := by
  funext q
  refine propext ⟨?_, ?_⟩
  · rintro ⟨hmem, hestablished, hhigher, hne⟩
    exact ⟨(h q).1 hmem, hestablished, hhigher, hne⟩
  · rintro ⟨hmem, hestablished, hhigher, hne⟩
    exact ⟨(h q).2 hmem, hestablished, hhigher, hne⟩

/-- Who is chosen depends on who is in the list and not on the order. -/
theorem select_congr_mem (h : ∀ q, q ∈ peers ↔ q ∈ peers') :
    p.select peers localHeight exclude prefer now = p.select peers' localHeight exclude prefer now := by
  rw [select_eq_iff, serves_congr h]
  exact chosen_select

/-! ## Forgotten faults -/

/-- What a policy is told: a peer was at fault, or faults whose cooldown has passed are to be forgotten. -/
inductive PolicyCall where
  | fault (id : PeerId) (time : Nat)
  | prune (time : Nat)

def serve (p : PeerPolicy) : PolicyCall → PeerPolicy
  | .fault id time => p.recordFault id time
  | .prune time => p.prune time

/-- The second list of calls is the first one with prunings inserted, none of them later than now. -/
inductive PrunedMore (now : Nat) : List PolicyCall → List PolicyCall → Prop
  | nil : PrunedMore now [] []
  | same (call : PolicyCall) {calls calls' : List PolicyCall} (h : PrunedMore now calls calls') :
      PrunedMore now (call :: calls) (call :: calls')
  | prune {time : Nat} (hpast : time ≤ now) {calls calls' : List PolicyCall} (h : PrunedMore now calls calls') :
      PrunedMore now calls (.prune time :: calls')

/-- The second policy knows what the first one knows, but for faults whose cooldown has passed by now. -/
structure Forgot (now : Nat) (p p' : PeerPolicy) : Prop where
  cooldown : p'.cooldown = p.cooldown
  faults : ∀ id, p'.faults.get? id = p.faults.get? id ∨
    p'.faults.get? id = none ∧ ∃ since, p.faults.get? id = some since ∧ p.cooldown ≤ now - since

namespace Forgot

theorem refl (now : Nat) (p : PeerPolicy) : Forgot now p p := ⟨rfl, fun _ => Or.inl rfl⟩

theorem isCoolingDown_eq (h : Forgot now p p') (id : PeerId) : p'.isCoolingDown id now = p.isCoolingDown id now := by
  rw [isCoolingDown, isCoolingDown, h.cooldown]
  rcases h.faults id with heq | ⟨hnone, since, hsince, hpast⟩
  · rw [heq]
  · rw [hnone, hsince, Option.any_none, Option.any_some, decide_eq_false (Nat.not_lt.2 hpast)]

theorem recordFault (h : Forgot now p p') (id : PeerId) (time : Nat) :
    Forgot now (p.recordFault id time) (p'.recordFault id time) where
  cooldown := h.cooldown
  faults other := by
    simp only [PeerPolicy.recordFault, Table.get?_insert]
    split
    · exact Or.inl rfl
    · exact h.faults other

/-- Both prune, at whatever time: a fault that only one of them knows either stays or is forgotten by that one too. -/
theorem prune (h : Forgot now p p') (time : Nat) : Forgot now (p.prune time) (p'.prune time) where
  cooldown := h.cooldown
  faults id := by
    simp only [PeerPolicy.prune, Table.get?_filter, h.cooldown]
    rcases h.faults id with heq | ⟨hnone, since, hsince, hpast⟩
    · exact Or.inl (by rw [heq])
    · rw [hnone, hsince, Option.filter_none, Option.filter_some]
      split
      · exact Or.inr ⟨rfl, since, rfl, hpast⟩
      · exact Or.inl rfl

/-- Only the second one prunes. What it forgets by an earlier time has cooled down by now. -/
theorem prune_right (h : Forgot now p p') {time : Nat} (hpast : time ≤ now) : Forgot now p (p'.prune time) where
  cooldown := h.cooldown
  faults id := by
    simp only [PeerPolicy.prune, Table.get?_filter, h.cooldown]
    rcases h.faults id with heq | ⟨hnone, hforgotten⟩
    · rw [heq]
      cases hsince : p.faults.get? id with
      | none => exact Or.inl rfl
      | some since =>
        rw [Option.filter_some]
        split
        · exact Or.inl rfl
        · rename_i hcooled
          have hle : p.cooldown ≤ time - since := Nat.not_lt.1 fun hlt => hcooled (decide_eq_true hlt)
          exact Or.inr ⟨rfl, since, rfl, Nat.le_trans hle (Nat.sub_le_sub_right hpast since)⟩
    · rw [hnone]
      exact Or.inr ⟨rfl, hforgotten⟩

theorem serve (h : Forgot now p p') (call : PolicyCall) : Forgot now (p.serve call) (p'.serve call) := by
  cases call with
  | fault id time => exact h.recordFault id time
  | prune time => exact h.prune time

/-- **Prunings that were inserted only make faults forgotten that no longer count.** -/
theorem foldl_serve {calls calls' : List PolicyCall} (hmore : PrunedMore now calls calls') :
    ∀ {p p' : PeerPolicy}, Forgot now p p' → Forgot now (calls.foldl PeerPolicy.serve p)
      (calls'.foldl PeerPolicy.serve p') := by
  induction hmore with
  | nil => exact id
  | same call _ ih => exact fun h => ih (h.serve call)
  | prune hpast _ ih => exact fun h => ih (h.prune_right hpast)

end Forgot

/-- The choice depends on a policy only by who is cooling down. -/
theorem select_congr_policy (h : ∀ id, p.isCoolingDown id now = p'.isCoolingDown id now) :
    p.select peers localHeight exclude prefer now = p'.select peers localHeight exclude prefer now := by
  simp only [select, h]

/-- **Who is chosen**: nobody exactly if no established peer other than the excluded one is above our height. Otherwise
the preferred one if it is such a peer and in good standing, or else the best of those in good standing, or else the
best of all. The order of the peers does not matter, nor does it when faults are pruned, as long as that was by now. -/
theorem select_exact (p : PeerPolicy) (peers : List Peer) (localHeight : Nat) (exclude prefer : Option PeerId)
    (now : Nat) :
    (∀ a, p.select peers localHeight exclude prefer now = a ↔
      Chosen p (Serves peers localHeight exclude) prefer now a) ∧
    (p.select peers localHeight exclude prefer now = none ↔
      ∀ q ∈ peers, q.state = .established → exclude ≠ some q.id → q.height ≤ localHeight) ∧
    (∀ peers', peers'.Perm peers →
      p.select peers' localHeight exclude prefer now = p.select peers localHeight exclude prefer now) ∧
    ∀ calls calls', PrunedMore now calls calls' →
      (calls'.foldl serve p).select peers localHeight exclude prefer now =
        (calls.foldl serve p).select peers localHeight exclude prefer now := by
  refine ⟨fun a => select_eq_iff, ?_, fun peers' hperm => select_congr_mem fun q => hperm.mem_iff, ?_⟩
  · rw [select_eq_none_iff, List.eq_nil_iff_forall_not_mem]
    simp only [mem_candidates_iff_serves]
    constructor
    · intro hnone q hmem hestablished hne
      exact Nat.not_lt.1 fun hlt => hnone q ⟨hmem, hestablished, hlt, hne⟩
    · intro hlow q hq
      exact Nat.not_le_of_lt hq.higher (hlow q hq.mem hq.established hq.not_excluded)
  · intro calls calls' hmore
    exact select_congr_policy ((Forgot.refl now p).foldl_serve hmore).isCoolingDown_eq

end PeerPolicy

namespace Sample

/-- Of three peers, the last two are equally high. -/
def trio : List Peer := [⟨⟨1⟩, 50, .established, 0⟩, ⟨⟨2⟩, 70, .established, 0⟩, ⟨⟨3⟩, 70, .established, 0⟩]

end Sample

open Sample in
/-- The lower identity decides whichever way the list is read. A fault stops counting when the cooldown is over, so that
a pruning at that very time cannot be noticed. -/
theorem PeerPolicy.select_exact_trio :
    trio.reverse.Perm trio ∧ PrunedMore 610 [.fault ⟨2⟩ 10] [.prune 5, .fault ⟨2⟩ 10, .prune 610] ∧
      (ofCooldown 600).select trio.reverse 40 none none 610 = some ⟨2⟩ ∧
      ((ofCooldown 600).recordFault ⟨2⟩ 10).select trio 40 none none 609 = some ⟨3⟩ ∧
      (List.foldl serve (ofCooldown 600) [.prune 5, .fault ⟨2⟩ 10, .prune 610]).select trio 40 none none 610 =
        some ⟨2⟩ := by
  have hreverse : trio.reverse.Perm trio := List.reverse_perm trio
  have hmore : PrunedMore 610 [.fault ⟨2⟩ 10] [.prune 5, .fault ⟨2⟩ 10, .prune 610] :=
    .prune (by decide) (.same _ (.prune (Nat.le_refl 610) .nil))
  obtain ⟨-, -, horder, hprune⟩ := select_exact (ofCooldown 600) trio 40 none none 610
  exact ⟨hreverse, hmore, (horder _ hreverse).trans rfl, rfl, (hprune _ _ hmore).trans rfl⟩

end LightClient
