import LightClient.Proofs.Merkle.Format
/-!
# Proofs of chosen leaves

The proof that is written for some chosen leaves is the reading of a partial tree, `PartialTree.ofLeaves`: a node is
taken apart exactly if a chosen leaf lies below it. The tree has the root of all leaves, and it flags the chosen ones,
from left to right. So reading the proof gives the chosen leaves back, unless a node above one of them has two children
of one digest (`FilteredBlock.provedTxids_ofTxids_iff`).
-/
namespace LightClient
namespace Merkle

/-- The leaves that are chosen, in order; choices that are missing count as `false`. -/
def chosenOf (leaves : List Digest) (chosen : List Bool) : List Digest :=
  ((leaves.zip chosen).filter Prod.snd).map Prod.fst

/-- The node above a height, at a position, has two children, and they have one digest. -/
def HasTwins (leaves : List Digest) (height pos : Nat) : Prop :=
  2 * pos + 1 < width leaves.length height ∧
    nodeDigest leaves height (2 * pos + 1) = nodeDigest leaves height (2 * pos)

instance (leaves : List Digest) (height pos : Nat) : Decidable (HasTwins leaves height pos) :=
  inferInstanceAs (Decidable (_ ∧ _))

/-! ## What lies below a node -/

theorem mem_segment {α : Type} {l : List α} {height pos : Nat} {x : α} :
    x ∈ segment l height pos ↔ ∃ i, l[i]? = some x ∧ i / 2 ^ height = pos := by
  have hpow := Nat.two_pow_pos height
  rw [segment, List.mem_iff_getElem?]
  constructor
  · rintro ⟨j, hj⟩
    rw [List.getElem?_take] at hj
    split at hj
    · rename_i hlt
      rw [List.getElem?_drop] at hj
      refine ⟨pos * 2 ^ height + j, hj, ?_⟩
      rw [Nat.add_comm, Nat.add_mul_div_right j pos hpow, Nat.div_eq_of_lt hlt, Nat.zero_add]
    · cases hj
  · rintro ⟨i, hi, rfl⟩
    refine ⟨i % 2 ^ height, ?_⟩
    rw [List.getElem?_take, if_pos (Nat.mod_lt i hpow), List.getElem?_drop, Nat.div_add_mod']
    exact hi

theorem covers_iff {leaves : List Digest} {chosen : List Bool} {height pos : Nat} :
    covers leaves chosen height pos = true ↔
      ∃ i, i < leaves.length ∧ chosen[i]? = some true ∧ i / 2 ^ height = pos := by
  rw [covers, ← segment, List.any_eq_true]
  constructor
  · rintro ⟨_, hmem, rfl⟩
    obtain ⟨i, hi, hpos⟩ := mem_segment.1 hmem
    rw [List.getElem?_take] at hi
    split at hi
    · rename_i hlt
      exact ⟨i, hlt, hi, hpos⟩
    · cases hi
  · rintro ⟨i, hlt, hi, hpos⟩
    exact ⟨true, mem_segment.2 ⟨i, by rw [List.getElem?_take, if_pos hlt]; exact hi, hpos⟩, rfl⟩

/-- The chosen leaves below a node. -/
def chosenBelow (leaves : List Digest) (chosen : List Bool) (height pos : Nat) : List Digest :=
  ((segment (leaves.zip chosen) height pos).filter Prod.snd).map Prod.fst

section Below

variable {leaves : List Digest} {chosen : List Bool} {height pos : Nat}

theorem chosenBelow_of_not_covers (h : covers leaves chosen height pos = false) :
    chosenBelow leaves chosen height pos = [] := by
  rw [chosenBelow, List.map_eq_nil_iff, List.filter_eq_nil_iff]
  rintro ⟨leaf, flag⟩ hmem hflag
  obtain ⟨i, hi, hpos⟩ := mem_segment.1 hmem
  obtain ⟨hleaf, hchosen⟩ := List.getElem?_zip_eq_some.1 hi
  obtain ⟨hlt, -⟩ := List.getElem?_eq_some_iff.1 hleaf
  obtain rfl : flag = true := hflag
  rw [covers_iff.2 ⟨i, hlt, hchosen, hpos⟩] at h
  cases h

theorem chosenBelow_zero (h : covers leaves chosen 0 pos = true) :
    chosenBelow leaves chosen 0 pos = [nodeDigest leaves 0 pos] := by
  obtain ⟨i, hlt, hchosen, hpos⟩ := covers_iff.1 h
  rw [Nat.pow_zero, Nat.div_one] at hpos
  subst hpos
  obtain ⟨hlt', hflag⟩ := List.getElem?_eq_some_iff.1 hchosen
  have hzip : i < (leaves.zip chosen).length := by
    rw [List.length_zip]
    exact Nat.lt_min.2 ⟨hlt, hlt'⟩
  rw [chosenBelow, segment_zero _ hzip, List.getElem_zip, hflag, nodeDigest, List.getD_eq_getElem _ _ hlt]
  rfl

theorem chosenBelow_succ :
    chosenBelow leaves chosen (height + 1) pos =
      chosenBelow leaves chosen height (2 * pos) ++ chosenBelow leaves chosen height (2 * pos + 1) := by
  rw [chosenBelow, segment_succ, List.filter_append, List.map_append]
  rfl

end Below

theorem not_covers_of_width_le {leaves : List Digest} {chosen : List Bool} {height pos : Nat}
    (h : width leaves.length height ≤ pos) : covers leaves chosen height pos = false := by
  rw [Bool.eq_false_iff]
  intro hcovers
  obtain ⟨i, hlt, -, rfl⟩ := covers_iff.1 hcovers
  rw [← Nat.not_lt, lt_width_iff] at h
  exact h (Nat.lt_of_le_of_lt (Nat.div_mul_le_self i _) hlt)

/-- The top node lies above all leaves. -/
theorem length_le_two_pow_height (leaves : List Digest) : leaves.length ≤ 2 ^ height leaves.length :=
  (width_le_one_iff _ _).1 ((height_le_iff _ _).1 (Nat.le_refl _))

theorem chosenBelow_height (leaves : List Digest) (chosen : List Bool) :
    chosenBelow leaves chosen (height leaves.length) 0 = chosenOf leaves chosen := by
  have hall := length_le_two_pow_height leaves
  rw [chosenBelow, segment, Nat.zero_mul, List.drop_zero, List.take_of_length_le, chosenOf]
  exact Nat.le_trans (by rw [List.length_zip]; exact Nat.min_le_left ..) hall

/-! ## Twins -/

/-- Above the chosen leaves below a node, and not above the node, no node has twins. -/
def Untwinned (leaves : List Digest) (chosen : List Bool) (height pos : Nat) : Prop :=
  ∀ i, i < leaves.length → chosen[i]? = some true → i / 2 ^ height = pos →
    ∀ k < height, ¬ HasTwins leaves k (i / 2 ^ (k + 1))

theorem div_two_pow_succ (i height : Nat) : i / 2 ^ (height + 1) = i / 2 ^ height / 2 := by
  rw [Nat.pow_succ, Nat.div_div_eq_div_mul]

section Untwinned

variable {leaves : List Digest} {chosen : List Bool} {height pos : Nat}

theorem untwinned_of_not_covers (h : covers leaves chosen height pos = false) : Untwinned leaves chosen height pos := by
  intro i hlt hchosen hpos
  rw [covers_iff.2 ⟨i, hlt, hchosen, hpos⟩] at h
  cases h

theorem untwinned_succ_iff (h : covers leaves chosen (height + 1) pos = true) :
    Untwinned leaves chosen (height + 1) pos ↔
      Untwinned leaves chosen height (2 * pos) ∧ Untwinned leaves chosen height (2 * pos + 1) ∧
        ¬ HasTwins leaves height pos := by
  constructor
  · intro hclear
    refine ⟨fun i hlt hchosen hpos k hk => ?_, fun i hlt hchosen hpos k hk => ?_, ?_⟩
    · exact hclear i hlt hchosen (by rw [div_two_pow_succ]; omega) k (by omega)
    · exact hclear i hlt hchosen (by rw [div_two_pow_succ]; omega) k (by omega)
    · obtain ⟨i, hlt, hchosen, rfl⟩ := covers_iff.1 h
      exact hclear i hlt hchosen rfl height (Nat.lt_succ_self height)
  · rintro ⟨hleft, hright, hhere⟩ i hlt hchosen hpos k hk
    rcases Nat.lt_succ_iff_lt_or_eq.1 hk with hk | rfl
    · rw [div_two_pow_succ] at hpos
      rcases Nat.mod_two_eq_zero_or_one (i / 2 ^ height) with heven | hodd
      · exact hleft i hlt hchosen (by omega) k hk
      · exact hright i hlt hchosen (by omega) k hk
    · rw [hpos]
      exact hhere

theorem untwinned_height : Untwinned leaves chosen (Merkle.height leaves.length) 0 ↔
    ∀ i < leaves.length, chosen[i]? = some true →
      ∀ k < Merkle.height leaves.length, ¬ HasTwins leaves k (i / 2 ^ (k + 1)) := by
  have hall := length_le_two_pow_height leaves
  refine forall_congr' fun i => forall_congr' fun hlt => forall_congr' fun _ => ?_
  exact ⟨fun h => h (Nat.div_eq_of_lt (Nat.lt_of_lt_of_le hlt hall)), fun h _ => h⟩

end Untwinned

/-! ## The tree of chosen leaves -/

namespace PartialTree

/-- The part of the tree over the leaves that leads to the chosen ones. -/
def ofLeaves (leaves : List Digest) (chosen : List Bool) : (height pos : Nat) → PartialTree leaves.length height pos
  | 0, pos => leaf (covers leaves chosen 0 pos) (nodeDigest leaves 0 pos)
  | height + 1, pos =>
    if covers leaves chosen (height + 1) pos then
      if h : 2 * pos + 1 < width leaves.length height then
        forked h (ofLeaves leaves chosen height (2 * pos)) (ofLeaves leaves chosen height (2 * pos + 1))
      else lone (Nat.not_lt.1 h) (ofLeaves leaves chosen height (2 * pos))
    else pruned (nodeDigest leaves (height + 1) pos)

section OfLeaves

variable (leaves : List Digest) (chosen : List Bool)

theorem trail_ofLeaves : ∀ height pos : Nat,
    (ofLeaves leaves chosen height pos).trail = trailBelow leaves chosen height pos
  | 0, _ => rfl
  | height + 1, pos => by
    rw [ofLeaves, trailBelow]
    split
    · split
      · rw [trail, trail_ofLeaves height, trail_ofLeaves height]
        rfl
      · rw [trail, trail_ofLeaves height]
        rfl
    · rfl

theorem root_ofLeaves : ∀ height pos : Nat, (ofLeaves leaves chosen height pos).root = nodeDigest leaves height pos
  | 0, _ => rfl
  | height + 1, pos => by
    rw [ofLeaves]
    split
    · rw [nodeDigest]
      split
      · rw [root, root_ofLeaves height, root_ofLeaves height]
      · rw [root, root_ofLeaves height]
    · rfl

theorem flagged_ofLeaves : ∀ height pos : Nat,
    (ofLeaves leaves chosen height pos).flagged = chosenBelow leaves chosen height pos
  | 0, pos => by
    rw [ofLeaves, flagged]
    cases hcovers : covers leaves chosen 0 pos with
    | false => exact (chosenBelow_of_not_covers hcovers).symm
    | true => exact (chosenBelow_zero hcovers).symm
  | height + 1, pos => by
    rw [ofLeaves]
    split
    · rw [chosenBelow_succ]
      split
      · rw [flagged, flagged_ofLeaves height, flagged_ofLeaves height]
      · rename_i hlone
        rw [flagged, flagged_ofLeaves height,
          chosenBelow_of_not_covers (not_covers_of_width_le (Nat.not_lt.1 hlone)), List.append_nil]
    · rename_i hcovers
      rw [chosenBelow_of_not_covers (Bool.eq_false_iff.2 hcovers)]
      rfl

/-- **When the tree of chosen leaves has distinct children.** -/
theorem distinct_ofLeaves_iff : ∀ height pos : Nat,
    (ofLeaves leaves chosen height pos).Distinct ↔ Untwinned leaves chosen height pos
  | 0, _ => ⟨fun _ _ _ _ _ k hk => absurd hk (Nat.not_lt_zero k), fun _ => trivial⟩
  | height + 1, pos => by
    rw [ofLeaves]
    split
    · rename_i hcovers
      rw [untwinned_succ_iff hcovers]
      split
      · rename_i hforked
        have htwins : ¬ HasTwins leaves height pos ↔
            nodeDigest leaves height (2 * pos + 1) ≠ nodeDigest leaves height (2 * pos) :=
          not_congr (and_iff_right hforked)
        rw [Distinct, distinct_ofLeaves_iff height, distinct_ofLeaves_iff height, root_ofLeaves, root_ofLeaves, htwins]
      · rename_i hlone
        have hright : Untwinned leaves chosen height (2 * pos + 1) :=
          untwinned_of_not_covers (not_covers_of_width_le (Nat.not_lt.1 hlone))
        have htwins : ¬ HasTwins leaves height pos := fun htwins => hlone htwins.1
        rw [Distinct, distinct_ofLeaves_iff height]
        exact ⟨fun h => ⟨h, hright, htwins⟩, fun h => h.1⟩
    · rename_i hcovers
      exact ⟨fun _ => untwinned_of_not_covers (Bool.eq_false_iff.2 hcovers), fun _ => trivial⟩

end OfLeaves

theorem isToldBy_ofLeaves {leaves : List Digest} (hne : leaves ≠ []) (chosen : List Bool) :
    (ofLeaves leaves chosen (height leaves.length) 0).IsToldBy (Proof.ofLeaves leaves chosen) := by
  rw [IsToldBy, trail_ofLeaves, Proof.ofLeaves, if_neg (by rwa [List.isEmpty_iff])]
  obtain ⟨padding, hpadding, hbits⟩ :=
    Bits.ofBytes_pack (trailBelow leaves chosen (height leaves.length) 0).bits
  exact ⟨rfl, padding, hpadding, hbits.symm⟩

end PartialTree
end Merkle

namespace FilteredBlock

open Merkle

/-- **Reading undoes writing.** The proof that is written for some of a block's transactions shows them, in order,
exactly if no node above one of them has a left and a right child of one digest. -/
theorem provedTxids_ofTxids_iff (header : Header) {txids : List Digest} (chosen : List Bool) (hpos : 1 ≤ txids.length)
    (hlt : txids.length < 2 ^ 32) :
    (ofTxids header txids chosen).provedTxids = .ok (chosenOf txids chosen) ↔
      ∀ i < txids.length, chosen[i]? = some true → ∀ k < height txids.length, ¬ HasTwins txids k (i / 2 ^ (k + 1)) := by
  have hne : txids ≠ [] := List.ne_nil_of_length_pos hpos
  have hempty : txids.isEmpty = false := List.isEmpty_eq_false_iff.2 hne
  have htotal : (Proof.ofLeaves txids chosen).total.toNat = txids.length := by
    rw [Proof.ofLeaves, hempty]
    exact UInt32.toNat_ofNat_of_lt' hlt
  have hroot : (ofTxids header txids chosen).header.merkleRoot = root txids := by
    rw [ofTxids, hempty]
    rfl
  have htold := PartialTree.isToldBy_ofLeaves hne chosen
  rw [provedTxids, hroot]
  change (Proof.ofLeaves txids chosen).provedLeaves (root txids) = _ ↔ _
  rw [PartialTree.provedLeaves_eq_ok_iff htotal, ← untwinned_height, ← PartialTree.distinct_ofLeaves_iff]
  constructor
  · rintro ⟨-, t, ht, hdistinct, -, -⟩
    rwa [ht.unique htold] at hdistinct
  · intro hdistinct
    refine ⟨hpos, _, htold, hdistinct, PartialTree.root_ofLeaves .., ?_⟩
    rw [PartialTree.flagged_ofLeaves, chosenBelow_height]

end FilteredBlock

namespace Sample

/-- The first two leaves are twins. -/
def fourLeaves : List Digest := .zero :: twoLeaves ++ [.zero]

end Sample

open Merkle Sample in
/-- Twins that are not above a chosen leaf do no harm. -/
theorem FilteredBlock.provedTxids_ofTxids_fourLeaves :
    1 ≤ fourLeaves.length ∧ fourLeaves.length < 2 ^ 32 ∧ HasTwins fourLeaves 0 0 ∧
      (∀ i < fourLeaves.length, [false, false, true][i]? = some true →
        ∀ k < height fourLeaves.length, ¬ HasTwins fourLeaves k (i / 2 ^ (k + 1))) ∧
      (ofTxids lastOfTwo.header fourLeaves [false, false, true]).provedTxids = .ok [⟨List.replicate 32 1, rfl⟩] := by
  have hclear : ∀ i < fourLeaves.length, [false, false, true][i]? = some true →
      ∀ k < height fourLeaves.length, ¬ HasTwins fourLeaves k (i / 2 ^ (k + 1)) := by decide +kernel
  have hproved : (ofTxids lastOfTwo.header fourLeaves [false, false, true]).provedTxids =
      .ok (chosenOf fourLeaves [false, false, true]) :=
    (FilteredBlock.provedTxids_ofTxids_iff lastOfTwo.header [false, false, true] (by decide) (by decide)).2 hclear
  exact ⟨by decide, by decide, by decide +kernel, hclear, hproved⟩

end LightClient
