import LightClient.Proofs.Merkle.Soundness
/-!
# The form of a proof

A proof is the depth-first reading of a partial tree (`PartialTree`), whose shape is part of its type: each node has the
children that the tree over so many leaves has at this place. What walking a node comes to is what such a tree says of
itself (`PartialTree.walked_iff`), and the flags and digests tell where the tree ends and which tree it is
(`PartialTree.eq_of_append`).

So a proof is accepted exactly if it is the reading of a tree of distinct children with the right root
(`FilteredBlock.provedTxids_eq_ok_iff`): the checks that come before the walk refuse no such reading, for a tree has at
most as many digests as leaves (`PartialTree.hashes_le_leaves`) and as flags (`PartialTree.hashes_le_bits`).
-/
namespace LightClient
namespace Merkle

@[simp] theorem Trail.bits_append (a b : Trail) : (a ++ b).bits = a.bits ++ b.bits := rfl

@[simp] theorem Trail.hashes_append (a b : Trail) : (a ++ b).hashes = a.hashes ++ b.hashes := rfl

theorem Trail.append_assoc (a b c : Trail) : a ++ b ++ c = a ++ (b ++ c) :=
  congrArg₂ Trail.mk (List.append_assoc ..) (List.append_assoc ..)

/-- Part of the tree over so many leaves, from the node at a height and position down. -/
inductive PartialTree (total : Nat) : (height pos : Nat) → Type where
  | leaf {pos : Nat} (flag : Bool) (digest : Digest) : PartialTree total 0 pos
  /-- Nothing below the node is proved. -/
  | pruned {height pos : Nat} (digest : Digest) : PartialTree total (height + 1) pos
  | lone {height pos : Nat} (hlone : width total height ≤ 2 * pos + 1) (left : PartialTree total height (2 * pos)) :
      PartialTree total (height + 1) pos
  | forked {height pos : Nat} (hforked : 2 * pos + 1 < width total height) (left : PartialTree total height (2 * pos))
      (right : PartialTree total height (2 * pos + 1)) : PartialTree total (height + 1) pos

namespace PartialTree

variable {total : Nat}

/-- The flags and digests, depth first. -/
def trail : {height pos : Nat} → PartialTree total height pos → Trail
  | _, _, leaf flag digest => ⟨[flag], [digest]⟩
  | _, _, pruned digest => ⟨[false], [digest]⟩
  | _, _, lone _ left => ⟨[true], []⟩ ++ left.trail
  | _, _, forked _ left right => ⟨[true], []⟩ ++ (left.trail ++ right.trail)

def root : {height pos : Nat} → PartialTree total height pos → Digest
  | _, _, leaf _ digest | _, _, pruned digest => digest
  | _, _, lone _ left => Digest.join left.root left.root
  | _, _, forked _ left right => Digest.join left.root right.root

/-- The leaves whose flag is set, from left to right. -/
def flagged : {height pos : Nat} → PartialTree total height pos → List Digest
  | _, _, leaf flag digest => if flag then [digest] else []
  | _, _, pruned _ => []
  | _, _, lone _ left => left.flagged
  | _, _, forked _ left right => left.flagged ++ right.flagged

/-- No node has two children of one digest. -/
def Distinct : {height pos : Nat} → PartialTree total height pos → Prop
  | _, _, leaf _ _ | _, _, pruned _ => True
  | _, _, lone _ left => left.Distinct
  | _, _, forked _ left right => left.Distinct ∧ right.Distinct ∧ right.root ≠ left.root

/-- What walking the tree comes to. -/
def visit {height pos : Nat} (t : PartialTree total height pos) (rest : Trail) : Visit := ⟨t.root, t.flagged, rest⟩

/-! ## Reading a tree -/

theorem walked {height pos : Nat} {t : PartialTree total height pos} (h : t.Distinct) (rest : Trail) :
    Walked total height pos (t.trail ++ rest) (t.visit rest) := by
  induction t generalizing rest with
  | leaf flag digest => exact .leaf
  | pruned digest => exact .pruned
  | lone hlone left ih =>
    rw [trail, Trail.append_assoc]
    have hleft : Walked total _ _ ⟨_, _⟩ (left.visit rest) := ih h rest
    have hnode := Walked.lone hlone hleft
    exact hnode
  | forked hforked left right ihl ihr =>
    obtain ⟨hl, hr, hne⟩ := h
    rw [trail, Trail.append_assoc, Trail.append_assoc]
    have hleft : Walked total _ _ ⟨_, _⟩ (left.visit (right.trail ++ rest)) := ihl hl (right.trail ++ rest)
    have hright : Walked total _ _ (left.visit (right.trail ++ rest)).rest (right.visit rest) := ihr hr rest
    have hnode := Walked.forked hforked hleft hright hne
    exact hnode

theorem exists_of_walked {height pos : Nat} {trail : Trail} {visit : Visit} (h : Walked total height pos trail visit) :
    ∃ t : PartialTree total height pos, t.Distinct ∧ trail = t.trail ++ visit.rest ∧ visit = t.visit visit.rest := by
  induction h with
  | @leaf pos flag _ hash _ => exact ⟨.leaf flag hash, trivial, rfl, rfl⟩
  | @pruned _ _ _ hash _ => exact ⟨.pruned hash, trivial, rfl, rfl⟩
  | @lone height pos bits hashes left hlone _ ih =>
    obtain ⟨t, ht, htrail, hvisit⟩ := ih
    refine ⟨.lone hlone t, ht, ?_, ?_⟩
    · rw [PartialTree.trail, Trail.append_assoc, ← htrail]
      rfl
    · rw [hvisit]
      rfl
  | @forked height pos bits hashes left right hforked _ _ hne ihl ihr =>
    obtain ⟨t, ht, htrail, hvisit⟩ := ihl
    obtain ⟨u, hu, hutrail, huvisit⟩ := ihr
    refine ⟨.forked hforked t u, ⟨ht, hu, ?_⟩, ?_, ?_⟩
    · rw [hvisit, huvisit] at hne
      exact hne
    · rw [PartialTree.trail, Trail.append_assoc, Trail.append_assoc, ← hutrail, ← htrail]
      rfl
    · rw [hvisit, huvisit]
      rfl

/-- **A walk reads a tree** and leaves what comes after it. -/
theorem walked_iff {height pos : Nat} {trail : Trail} {visit : Visit} :
    Walked total height pos trail visit ↔
      ∃ t : PartialTree total height pos, t.Distinct ∧ trail = t.trail ++ visit.rest ∧ visit = t.visit visit.rest := by
  constructor
  · exact exists_of_walked
  · rintro ⟨t, ht, htrail, hvisit⟩
    rw [htrail, hvisit]
    exact walked ht visit.rest

/-- **No reading of a tree begins the reading of another one.** -/
theorem eq_of_append {height pos : Nat} {t u : PartialTree total height pos} {rest rest' : Trail}
    (h : t.trail ++ rest = u.trail ++ rest') : t = u ∧ rest = rest' := by
  induction t generalizing rest rest' with
  | leaf flag digest =>
    cases u with
    | leaf flag' digest' =>
      injection h with hbits hhashes
      obtain ⟨rfl, hbits'⟩ := List.cons.inj hbits
      obtain ⟨rfl, hhashes'⟩ := List.cons.inj hhashes
      exact ⟨rfl, congrArg₂ Trail.mk hbits' hhashes'⟩
  | pruned digest =>
    cases u with
    | pruned digest' =>
      injection h with hbits hhashes
      obtain ⟨rfl, hhashes'⟩ := List.cons.inj hhashes
      exact ⟨rfl, congrArg₂ Trail.mk (List.cons.inj hbits).2 hhashes'⟩
    | lone _ _ | forked _ _ _ => cases (List.cons.inj (congrArg Trail.bits h)).1
  | lone hlone left ih =>
    cases u with
    | pruned _ => cases (List.cons.inj (congrArg Trail.bits h)).1
    | lone _ left' =>
      injection h with hbits hhashes
      obtain ⟨rfl, hrest⟩ := ih (congrArg₂ Trail.mk (List.cons.inj hbits).2 hhashes)
      exact ⟨rfl, hrest⟩
    | forked hforked _ _ => omega
  | forked hforked left right ihl ihr =>
    cases u with
    | pruned _ => cases (List.cons.inj (congrArg Trail.bits h)).1
    | lone hlone _ => omega
    | forked _ left' right' =>
      rw [trail, trail, Trail.append_assoc, Trail.append_assoc, Trail.append_assoc, Trail.append_assoc] at h
      injection h with hbits hhashes
      obtain ⟨rfl, hright⟩ := ihl (congrArg₂ Trail.mk (List.cons.inj hbits).2 hhashes)
      obtain ⟨rfl, hrest⟩ := ihr hright
      exact ⟨rfl, hrest⟩

/-! ## The size of a tree -/

theorem hashes_le_bits {height pos : Nat} (t : PartialTree total height pos) :
    t.trail.hashes.length ≤ t.trail.bits.length := by
  induction t with
  | leaf _ _ | pruned _ => exact Nat.le_refl 1
  | lone _ left ih =>
    simp only [trail, Trail.bits_append, Trail.hashes_append, List.length_append, List.length_cons, List.length_nil]
    omega
  | forked _ left right ihl ihr =>
    simp only [trail, Trail.bits_append, Trail.hashes_append, List.length_append, List.length_cons, List.length_nil]
    omega

/-- The digests of a tree, put in a row from the leftmost leaf below it on, go neither beyond the leaves below it nor
beyond the last leaf. -/
theorem hashes_le_leaves {height pos : Nat} (t : PartialTree total height pos) (hpos : pos < width total height) :
    pos * 2 ^ height + t.trail.hashes.length ≤ min ((pos + 1) * 2 ^ height) total := by
  induction t with
  | leaf _ _ =>
    rw [width_zero] at hpos
    simp only [trail, List.length_cons, List.length_nil, Nat.pow_zero, Nat.mul_one]
    omega
  | @pruned height pos _ =>
    rw [lt_width_iff] at hpos
    have := Nat.two_pow_pos (height + 1)
    simp only [trail, List.length_cons, List.length_nil, Nat.succ_mul]
    omega
  | @lone height pos _ left ih =>
    have hleft := ih (left_lt_width hpos)
    have hstart := start_succ height pos
    have hmid := Nat.add_one_mul (2 * pos) (2 ^ height)
    have hend := Nat.add_one_mul pos (2 ^ (height + 1))
    simp only [trail, Trail.hashes_append, List.nil_append]
    omega
  | @forked height pos hforked left right ihl ihr =>
    have hleft := ihl (left_lt_width hpos)
    have hright := ihr hforked
    have hstart := start_succ height pos
    have hmid := Nat.add_one_mul (2 * pos) (2 ^ height)
    have hmid' := Nat.add_one_mul (2 * pos + 1) (2 ^ height)
    have hend := Nat.add_one_mul pos (2 ^ (height + 1))
    simp only [trail, Trail.hashes_append, List.nil_append, List.length_append]
    omega

/-! ## Proofs -/

/-- The digests of the proof are those of the tree, and so are its flags but for less than a byte. -/
def IsToldBy (t : PartialTree total (height total) 0) (p : Proof) : Prop :=
  t.trail.hashes = p.hashes ∧
    ∃ padding, padding.length < 8 ∧ t.trail.bits ++ padding = Bits.ofBytes p.flags

theorem IsToldBy.trail_eq {t : PartialTree total (height total) 0} {p : Proof} (h : t.IsToldBy p) :
    ∃ padding, padding.length < 8 ∧ p.trail = t.trail ++ ⟨padding, []⟩ := by
  obtain ⟨hhashes, padding, hpadding, hbits⟩ := h
  refine ⟨padding, hpadding, congrArg₂ Trail.mk hbits.symm ?_⟩
  rw [List.append_nil, hhashes]

theorem IsToldBy.unique {t u : PartialTree total (height total) 0} {p : Proof} (ht : t.IsToldBy p)
    (hu : u.IsToldBy p) : t = u := by
  obtain ⟨_, -, ht⟩ := ht.trail_eq
  obtain ⟨_, -, hu⟩ := hu.trail_eq
  exact (eq_of_append (ht.symm.trans hu)).1

/-- **When a proof is accepted**: it tells a tree of distinct children with the right root. -/
theorem provedLeaves_eq_ok_iff {p : Proof} (htotal : p.total.toNat = total) {root : Digest} {proved : List Digest} :
    p.provedLeaves root = .ok proved ↔
      0 < total ∧ ∃ t : PartialTree total (height total) 0,
        t.IsToldBy p ∧ t.Distinct ∧ t.root = root ∧ t.flagged = proved := by
  subst htotal
  rw [Proof.provedLeaves_eq_ok_iff]
  constructor
  · rintro ⟨hpos, -, -, padding, hpadding, hwalked⟩
    obtain ⟨t, hdistinct, htrail, hvisit⟩ := walked_iff.1 hwalked
    obtain ⟨hbits, hhashes⟩ := Trail.mk.inj htrail
    obtain ⟨hroot, hproved, -⟩ := Visit.mk.inj hvisit
    rw [List.append_nil] at hhashes
    exact ⟨hpos, t, ⟨hhashes.symm, padding, hpadding, hbits.symm⟩, hdistinct, hroot.symm, hproved.symm⟩
  · rintro ⟨hpos, t, htold, hdistinct, rfl, rfl⟩
    obtain ⟨hhashes, padding, hpadding, hbits⟩ := htold
    -- no reading of a tree is refused for its size
    have hleaves := t.hashes_le_leaves (by rw [width_height hpos]; exact Nat.one_pos)
    have hflags := t.hashes_le_bits
    have hlength := congrArg List.length hbits
    rw [List.length_append, Bits.length_ofBytes] at hlength
    rw [hhashes] at hleaves hflags
    refine ⟨hpos, by omega, by omega, padding, hpadding, ?_⟩
    rw [Proof.trail, ← hbits, ← hhashes, ← List.append_nil t.trail.hashes]
    exact walked hdistinct ⟨padding, []⟩

end PartialTree
end Merkle

namespace FilteredBlock

open Merkle

/-- **Proofs are readings of partial trees.** A block's proof shows some transactions exactly if the block has
transactions at all and the proof tells a tree over as many leaves: its flags and digests, depth first, are those of the
proof, where less than a byte of flags may be left over. The tree has no two equal children and the root of the block,
and its flagged leaves are the transactions. A proof tells one tree at most. -/
theorem provedTxids_eq_ok_iff (b : FilteredBlock) :
    (∀ txids, b.provedTxids = .ok txids ↔
      1 ≤ b.proof.total.toNat ∧ ∃ t : PartialTree b.proof.total.toNat (height b.proof.total.toNat) 0,
        t.IsToldBy b.proof ∧ t.Distinct ∧ t.root = b.header.merkleRoot ∧ t.flagged = txids) ∧
    ∀ t u : PartialTree b.proof.total.toNat (height b.proof.total.toNat) 0,
      t.IsToldBy b.proof → u.IsToldBy b.proof → t = u :=
  ⟨fun _ => PartialTree.provedLeaves_eq_ok_iff rfl, fun _ _ => PartialTree.IsToldBy.unique⟩

end FilteredBlock

open Merkle Sample in
theorem FilteredBlock.provedTxids_eq_ok_iff_lastOfTwo :
    lastOfTwo.provedTxids = .ok [⟨List.replicate 32 1, rfl⟩] ∧
      ∃ t : PartialTree lastOfTwo.proof.total.toNat (height lastOfTwo.proof.total.toNat) 0,
        t.IsToldBy lastOfTwo.proof ∧ t.Distinct ∧ t.root = root twoLeaves ∧
          t.flagged = [⟨List.replicate 32 1, rfl⟩] ∧
          ∀ u : PartialTree lastOfTwo.proof.total.toNat (height lastOfTwo.proof.total.toNat) 0,
            u.IsToldBy lastOfTwo.proof → u = t := by
  have hproved : lastOfTwo.provedTxids = .ok [⟨List.replicate 32 1, rfl⟩] := by decide +kernel
  obtain ⟨hiff, hunique⟩ := FilteredBlock.provedTxids_eq_ok_iff lastOfTwo
  obtain ⟨-, t, htold, hdistinct, hroot, hflagged⟩ := (hiff _).1 hproved
  exact ⟨hproved, t, htold, hdistinct, hroot, hflagged, fun u hu => hunique u t hu htold⟩

end LightClient
