import Mathlib.Control.Monad.Basic
import Mathlib.Data.List.GetD
import LightClient.FilteredBlock
/-!
# What a proof shows

A proof is made by anybody, and all that ties it to a list of leaves is the root. `Walked` is what walking a node can
come to, one case for each kind of node. Wherever two digests are joined on the way (`joints`), the tree over the leaves
has a node at the same place, for the two trees have the same shape. So if no pair that is joined collides with the pair
that the tree has there, the equality of the roots goes down from each node to those below it and arrives at every proved
leaf (`Walked.sublist`). The proved leaves are leaves of the list then, each at a place of its own, from left to right
(`FilteredBlock.exists_positions`).
-/
namespace LightClient
namespace Merkle

/-! ## Walking -/

/-- What walking a node comes to if the proof has all that the node calls for. -/
inductive Walked (total : Nat) : (height pos : Nat) → Trail → Visit → Prop where
  | leaf {pos flag bits hash hashes} :
      Walked total 0 pos ⟨flag :: bits, hash :: hashes⟩ ⟨hash, if flag then [hash] else [], ⟨bits, hashes⟩⟩
  /-- Nothing below the node is proved. -/
  | pruned {height pos bits hash hashes} :
      Walked total (height + 1) pos ⟨false :: bits, hash :: hashes⟩ ⟨hash, [], ⟨bits, hashes⟩⟩
  | lone {height pos bits hashes left} : width total height ≤ 2 * pos + 1 →
      Walked total height (2 * pos) ⟨bits, hashes⟩ left →
      Walked total (height + 1) pos ⟨true :: bits, hashes⟩
        ⟨Digest.join left.root left.root, left.leaves, left.rest⟩
  | forked {height pos bits hashes left right} : 2 * pos + 1 < width total height →
      Walked total height (2 * pos) ⟨bits, hashes⟩ left → Walked total height (2 * pos + 1) left.rest right →
      right.root ≠ left.root →
      Walked total (height + 1) pos ⟨true :: bits, hashes⟩
        ⟨Digest.join left.root right.root, left.leaves ++ right.leaves, right.rest⟩

theorem bind_eq_ok {ε α β : Type} {x : Except ε α} {f : α → Except ε β} {b : β} (h : x >>= f = .ok b) :
    ∃ a, x = .ok a ∧ f a = .ok b := by
  cases x with
  | error _ => cases h
  | ok a => exact ⟨a, rfl, h⟩

/-- The walk of a node whose flag is set and that is no leaf. -/
theorem walk_succ_true (total height pos : Nat) (bits : List Bool) (hashes : List Digest) :
    walk total (height + 1) pos ⟨true :: bits, hashes⟩ =
      (walk total height (2 * pos) ⟨bits, hashes⟩ >>= fun left =>
        if 2 * pos + 1 < width total height then
          walk total height (2 * pos + 1) left.rest >>= fun right =>
            if right.root = left.root then .error .duplicateNode
            else .ok ⟨Digest.join left.root right.root, left.leaves ++ right.leaves, right.rest⟩
        else .ok ⟨Digest.join left.root left.root, left.leaves, left.rest⟩) := rfl

theorem Walked.walk_eq {total height pos : Nat} {trail : Trail} {visit : Visit}
    (h : Walked total height pos trail visit) : walk total height pos trail = .ok visit := by
  induction h with
  | leaf => rfl
  | pruned => rfl
  | lone hlone _ ih =>
    rw [walk_succ_true, ih]
    exact if_neg (Nat.not_lt.2 hlone)
  | forked hforked _ _ hne ihl ihr =>
    rw [walk_succ_true, ihl]
    refine (if_pos hforked).trans ?_
    rw [ihr]
    exact if_neg hne

theorem walked_of_walk {total : Nat} : ∀ {height pos : Nat} {trail : Trail} {visit : Visit},
    walk total height pos trail = .ok visit → Walked total height pos trail visit
  | 0, _, ⟨[], _⟩, _, h | _ + 1, _, ⟨[], _⟩, _, h => by cases h
  | 0, _, ⟨_ :: _, []⟩, _, h | _ + 1, _, ⟨false :: _, []⟩, _, h => by cases h
  | 0, _, ⟨_ :: _, _ :: _⟩, _, h => by
    cases h
    exact .leaf
  | _ + 1, _, ⟨false :: _, _ :: _⟩, _, h => by
    cases h
    exact .pruned
  | height + 1, pos, ⟨true :: bits, hashes⟩, visit, h => by
    rw [walk_succ_true] at h
    obtain ⟨left, hleft, h⟩ := bind_eq_ok h
    split at h
    · rename_i hforked
      obtain ⟨right, hright, h⟩ := bind_eq_ok h
      split at h
      · cases h
      · rename_i hne
        cases h
        exact .forked hforked (walked_of_walk hleft) (walked_of_walk hright) hne
    · rename_i hlone
      cases h
      exact .lone (Nat.not_lt.1 hlone) (walked_of_walk hleft)

/-! ## Joints -/

/-- Two digests that were joined, with their height and the position of the node above them. -/
structure Joint where
  height : Nat
  pos : Nat
  left : Digest
  right : Digest
  deriving DecidableEq

/-- All that is joined while a node is walked. -/
def joints (total : Nat) : (height pos : Nat) → Trail → List Joint
  | height + 1, pos, ⟨true :: bits, hashes⟩ =>
    match walk total height (2 * pos) ⟨bits, hashes⟩ with
    | .error _ => joints total height (2 * pos) ⟨bits, hashes⟩
    | .ok left =>
      joints total height (2 * pos) ⟨bits, hashes⟩ ++
        if 2 * pos + 1 < width total height then
          joints total height (2 * pos + 1) left.rest ++
            match walk total height (2 * pos + 1) left.rest with
            | .error _ => []
            | .ok right => [⟨height, pos, left.root, right.root⟩]
        else [⟨height, pos, left.root, left.root⟩]
  | _, _, _ => []

theorem joints_of_lone {total height pos : Nat} {bits : List Bool} {hashes : List Digest} {left : Visit}
    (hlone : width total height ≤ 2 * pos + 1) (hleft : Walked total height (2 * pos) ⟨bits, hashes⟩ left) :
    joints total (height + 1) pos ⟨true :: bits, hashes⟩ =
      joints total height (2 * pos) ⟨bits, hashes⟩ ++ [⟨height, pos, left.root, left.root⟩] := by
  rw [joints, hleft.walk_eq]
  simp only [if_neg (Nat.not_lt.2 hlone)]

theorem joints_of_forked {total height pos : Nat} {bits : List Bool} {hashes : List Digest} {left right : Visit}
    (hforked : 2 * pos + 1 < width total height) (hleft : Walked total height (2 * pos) ⟨bits, hashes⟩ left)
    (hright : Walked total height (2 * pos + 1) left.rest right) :
    joints total (height + 1) pos ⟨true :: bits, hashes⟩ =
      joints total height (2 * pos) ⟨bits, hashes⟩ ++
        (joints total height (2 * pos + 1) left.rest ++ [⟨height, pos, left.root, right.root⟩]) := by
  rw [joints, hleft.walk_eq]
  simp only [if_pos hforked, hright.walk_eq]

/-- The two digests below a node of the tree over the leaves. -/
def children (leaves : List Digest) (height pos : Nat) : Digest × Digest :=
  let left := nodeDigest leaves height (2 * pos)
  (left, if 2 * pos + 1 < width leaves.length height then nodeDigest leaves height (2 * pos + 1) else left)

theorem nodeDigest_succ (leaves : List Digest) (height pos : Nat) :
    nodeDigest leaves (height + 1) pos =
      Digest.join (children leaves height pos).1 (children leaves height pos).2 := by
  simp only [nodeDigest, children]
  split <;> rfl

/-- The pair is not the one that the tree over the leaves has at this place, and yet it has the same digest. -/
def Joint.Collides (j : Joint) (leaves : List Digest) : Prop :=
  (j.left, j.right) ≠ children leaves j.height j.pos ∧
    Digest.join j.left j.right =
      Digest.join (children leaves j.height j.pos).1 (children leaves j.height j.pos).2

instance (j : Joint) (leaves : List Digest) : Decidable (j.Collides leaves) := inferInstanceAs (Decidable (_ ∧ _))

theorem Joint.eq_children {j : Joint} {leaves : List Digest} (h : ¬ j.Collides leaves)
    (hjoin : Digest.join j.left j.right = nodeDigest leaves (j.height + 1) j.pos) :
    (j.left, j.right) = children leaves j.height j.pos := by
  rw [nodeDigest_succ] at hjoin
  exact Decidable.not_not.1 fun hne => h ⟨hne, hjoin⟩

/-! ## Leaves -/

/-- Those of a list that lie below a node. -/
def segment {α : Type} (l : List α) (height pos : Nat) : List α := (l.drop (pos * 2 ^ height)).take (2 ^ height)

theorem start_succ (height pos : Nat) : pos * 2 ^ (height + 1) = 2 * pos * 2 ^ height := by
  rw [Nat.pow_succ, Nat.mul_comm (2 ^ height) 2, ← Nat.mul_assoc, Nat.mul_comm pos 2]

theorem left_lt_width {total height pos : Nat} (h : pos < width total (height + 1)) : 2 * pos < width total height := by
  rw [lt_width_iff, start_succ] at h
  exact lt_width_iff.2 h

section Segment

variable {α : Type} (l : List α)

theorem segment_succ (height pos : Nat) :
    segment l (height + 1) pos = segment l height (2 * pos) ++ segment l height (2 * pos + 1) := by
  rw [segment, segment, segment, start_succ, Nat.pow_succ, Nat.mul_two, List.take_add, List.drop_drop,
    Nat.succ_mul (2 * pos)]

theorem segment_of_width_le {height pos : Nat} (h : width l.length height ≤ pos) : segment l height pos = [] := by
  have hend : l.length ≤ pos * 2 ^ height := by
    rw [← Nat.not_lt, ← lt_width_iff, Nat.not_lt]
    exact h
  rw [segment, List.drop_eq_nil_of_le hend, List.take_nil]

theorem segment_zero {pos : Nat} (h : pos < l.length) : segment l 0 pos = [l[pos]] := by
  rw [segment, Nat.pow_zero, Nat.mul_one, List.drop_eq_getElem_cons h, List.take_succ_cons, List.take_zero]

theorem segment_height : segment l (height l.length) 0 = l := by
  have hall : l.length ≤ 2 ^ height l.length := (width_le_one_iff _ _).1 ((height_le_iff _ _).1 (Nat.le_refl _))
  rw [segment, Nat.zero_mul, List.drop_zero, List.take_of_length_le hall]

end Segment

/-- **Proved leaves are leaves below the node**, each at a place of its own. -/
theorem Walked.sublist {leaves : List Digest} {height pos : Nat} {trail : Trail} {visit : Visit}
    (h : Walked leaves.length height pos trail visit) (hpos : pos < width leaves.length height)
    (hfree : ∀ j ∈ joints leaves.length height pos trail, ¬ j.Collides leaves)
    (hroot : visit.root = nodeDigest leaves height pos) : visit.leaves.Sublist (segment leaves height pos) := by
  induction h with
  | @leaf pos flag _ hash _ =>
    rw [width_zero] at hpos
    have hhash : hash = leaves[pos] := by
      rw [← List.getD_eq_getElem _ Digest.zero hpos]
      exact hroot
    rw [segment_zero leaves hpos, ← hhash]
    cases flag with
    | false => exact List.nil_sublist _
    | true => exact List.Sublist.refl _
  | pruned => exact List.nil_sublist _
  | lone hlone hleft ih =>
    rw [joints_of_lone hlone hleft, List.forall_mem_append] at hfree
    obtain ⟨hfree, hhere⟩ := hfree
    obtain ⟨hl, -⟩ := Prod.ext_iff.1 (Joint.eq_children (hhere _ (List.mem_singleton_self _)) hroot)
    rw [segment_succ, segment_of_width_le leaves hlone, List.append_nil]
    exact ih (left_lt_width hpos) hfree hl
  | forked hforked hleft hright _ ihl ihr =>
    rw [joints_of_forked hforked hleft hright, List.forall_mem_append, List.forall_mem_append] at hfree
    obtain ⟨hfreel, hfreer, hhere⟩ := hfree
    obtain ⟨hl, hr⟩ := Prod.ext_iff.1 (Joint.eq_children (hhere _ (List.mem_singleton_self _)) hroot)
    rw [segment_succ]
    refine (ihl (left_lt_width hpos) hfreel hl).append (ihr hforked hfreer ?_)
    exact hr.trans (if_pos hforked)

/-! ## Proofs -/

/-- All that is joined while a proof is walked. -/
def Proof.joints (p : Proof) : List Joint := Merkle.joints p.total.toNat (height p.total.toNat) 0 p.trail

/-- The checks of a proof, one after the other. -/
theorem Proof.provedLeaves_eq (p : Proof) (root : Digest) :
    p.provedLeaves root =
      if p.total.toNat = 0 then .error .noTransactions
      else if p.total.toNat < p.hashes.length then .error (.tooManyHashes p.hashes.length p.total.toNat)
      else if p.flags.length * 8 < p.hashes.length then .error (.exhausted .flagBits)
      else walk p.total.toNat (height p.total.toNat) 0 p.trail >>= fun visit =>
        if 8 ≤ visit.rest.bits.length then .error (.unconsumed .flagBytes)
        else if visit.rest.hashes ≠ [] then .error (.unconsumed .hashes)
        else if visit.root ≠ root then .error (.rootMismatch root visit.root)
        else .ok visit.leaves := rfl

/-- **When a proof is accepted**: it is not too large, and walking it leads to the root and leaves less than a byte of
flags and nothing else. -/
theorem Proof.provedLeaves_eq_ok_iff {p : Proof} {root : Digest} {proved : List Digest} :
    p.provedLeaves root = .ok proved ↔
      0 < p.total.toNat ∧ p.hashes.length ≤ p.total.toNat ∧ p.hashes.length ≤ p.flags.length * 8 ∧
        ∃ padding, padding.length < 8 ∧
          Walked p.total.toNat (height p.total.toNat) 0 p.trail ⟨root, proved, ⟨padding, []⟩⟩ := by
  rw [provedLeaves_eq]
  constructor
  · intro h
    split at h
    · cases h
    rename_i htotal
    split at h
    · cases h
    rename_i hleaves
    split at h
    · cases h
    rename_i hflags
    obtain ⟨⟨_, _, padding, hashes⟩, hvisit, h⟩ := bind_eq_ok h
    split at h
    · cases h
    rename_i hpadding
    split at h
    · cases h
    rename_i hhashes
    split at h
    · cases h
    rename_i hroot
    cases h
    obtain rfl : hashes = [] := Decidable.not_not.1 hhashes
    cases Decidable.not_not.1 hroot
    exact ⟨Nat.pos_of_ne_zero htotal, Nat.not_lt.1 hleaves, Nat.not_lt.1 hflags, padding, Nat.not_le.1 hpadding,
      walked_of_walk hvisit⟩
  · rintro ⟨htotal, hleaves, hflags, padding, hpadding, hwalked⟩
    rw [if_neg (Nat.pos_iff_ne_zero.1 htotal), if_neg (Nat.not_lt.2 hleaves), if_neg (Nat.not_lt.2 hflags),
      hwalked.walk_eq]
    change (if 8 ≤ padding.length then _ else _) = _
    rw [if_neg (Nat.not_le.2 hpadding)]
    simp only [ne_eq, not_true_eq_false, if_false]

/-- What a proof goes through before it is accepted. -/
theorem Proof.walked_of_provedLeaves {p : Proof} {root : Digest} {proved : List Digest}
    (h : p.provedLeaves root = .ok proved) :
    0 < p.total.toNat ∧ ∃ rest, Walked p.total.toNat (height p.total.toNat) 0 p.trail ⟨root, proved, rest⟩ := by
  obtain ⟨htotal, -, -, padding, -, hwalked⟩ := provedLeaves_eq_ok_iff.1 h
  exact ⟨htotal, ⟨padding, []⟩, hwalked⟩

end Merkle

namespace FilteredBlock

open Merkle

/-- **A proof shows nothing false.** If a block has the root of a list of leaves and is said to have as many, and none of
the pairs that are joined while its proof is walked collides with the pair at the same node of the tree over the leaves,
then whatever the proof shows is the list of the leaves at some places, from left to right. -/
theorem exists_positions {b : FilteredBlock} {leaves : List Digest} {header : Header} {chosen : List Bool}
    {proved : List Digest} (htotal : b.proof.total.toNat = leaves.length)
    (hroot : b.header.merkleRoot = (ofTxids header leaves chosen).header.merkleRoot)
    (hfree : ∀ j ∈ b.proof.joints, ¬ j.Collides leaves) (hproved : b.provedTxids = .ok proved) :
    ∃ positions : List (Fin leaves.length), proved = positions.map (leaves[·]) ∧ positions.Pairwise (· < ·) := by
  obtain ⟨hpos, rest, hwalked⟩ := Proof.walked_of_provedLeaves hproved
  rw [htotal] at hpos hwalked
  have hnode : b.header.merkleRoot = nodeDigest leaves (height leaves.length) 0 := by
    have hne : leaves.isEmpty = false := List.isEmpty_eq_false_iff.2 (List.ne_nil_of_length_pos hpos)
    rw [hroot, ofTxids, hne]
    rfl
  have htop : 0 < width leaves.length (height leaves.length) := by
    rw [width_height hpos]
    exact Nat.one_pos
  rw [Proof.joints, htotal] at hfree
  have hsub := hwalked.sublist htop hfree hnode
  rw [segment_height] at hsub
  exact List.sublist_eq_map_getElem hsub

end FilteredBlock

namespace Sample

def twoLeaves : List Digest := [.zero, ⟨List.replicate 32 1, rfl⟩]

/-- Both leaves are told, and only the second one is proved. -/
def lastOfTwo : FilteredBlock where
  header := ⟨1, .zero, Merkle.root twoLeaves, 0, 0, 0, 0⟩
  proof := ⟨2, twoLeaves, [0b101]⟩

end Sample

open Sample in
theorem FilteredBlock.exists_positions_lastOfTwo :
    lastOfTwo.provedTxids = .ok [⟨List.replicate 32 1, rfl⟩] ∧ lastOfTwo.proof.joints.length = 1 ∧
      (∀ j ∈ lastOfTwo.proof.joints, ¬ j.Collides twoLeaves) ∧
      ∃ positions : List (Fin twoLeaves.length),
        [⟨List.replicate 32 1, rfl⟩] = positions.map (twoLeaves[·]) ∧ positions.Pairwise (· < ·) := by
  have hproved : lastOfTwo.provedTxids = .ok [⟨List.replicate 32 1, rfl⟩] := by decide +kernel
  have hfree : ∀ j ∈ lastOfTwo.proof.joints, ¬ j.Collides twoLeaves := by decide +kernel
  have hroot : lastOfTwo.header.merkleRoot = (ofTxids lastOfTwo.header twoLeaves []).header.merkleRoot := by
    decide +kernel
  exact ⟨hproved, by decide +kernel, hfree, FilteredBlock.exists_positions rfl hroot hfree hproved⟩

end LightClient
