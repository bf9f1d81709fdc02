import Mathlib.Order.Compare
import LightClient.Chain
import LightClient.Proofs.Header
/-!
# What enough work means

A hash and a target are compared byte by byte from the top one down, until two of them differ. Since the bytes below one
place never make up for a byte at that place, this is the comparison of the two numbers (`Bytes.order_reverse`), for any
two byte strings of one length.

So a header meets its target exactly if the target is not zero and the number of its hash does not exceed that of the
target, and a target that stands for a greater number is met by all that met the smaller one
(`Header.meetsTarget_exact`). No hash meets the target zero, not even the hash zero.
-/
namespace LightClient

/-! ## Bytes as numbers -/

namespace Bytes

theorem toNat_lt : ∀ bs : Bytes, toNat bs < 256 ^ bs.length
  | [] => by decide
  | b :: bs => by
    have hhigh := toNat_lt bs
    have hlow : b.toNat < 256 := b.toNat_lt
    rw [toNat, List.length_cons, Nat.pow_succ]
    omega

theorem toNat_pos_iff : ∀ {bs : Bytes}, 0 < toNat bs ↔ ∃ b ∈ bs, b ≠ 0
  | [] => by simp [toNat]
  | b :: bs => by
    have hlow : b ≠ 0 ↔ 0 < b.toNat := by rw [ne_eq, ← UInt8.toNat_inj, UInt8.toNat_zero, Nat.pos_iff_ne_zero]
    rw [toNat, List.exists_mem_cons_iff, ← toNat_pos_iff, hlow]
    omega

theorem toNat_reverse_cons (b : UInt8) (bs : Bytes) :
    toNat (b :: bs).reverse = toNat bs.reverse + 256 ^ bs.length * b.toNat := by
  rw [List.reverse_cons, toNat_append, List.length_reverse, toNat, toNat, Nat.mul_zero, Nat.add_zero]

/-- Whatever lies below a place, the smaller byte at that place makes the smaller number. -/
theorem toNat_reverse_cons_lt {a b : UInt8} (hlt : a < b) {as bs : Bytes} (h : as.length = bs.length) :
    toNat (a :: as).reverse < toNat (b :: bs).reverse := by
  have hbelow : toNat as.reverse < 256 ^ bs.length := by
    rw [← h, ← List.length_reverse]
    exact toNat_lt _
  rw [toNat_reverse_cons, toNat_reverse_cons, h]
  calc toNat as.reverse + 256 ^ bs.length * a.toNat
      < 256 ^ bs.length * (a.toNat + 1) := by rw [Nat.mul_succ]; omega
    _ ≤ 256 ^ bs.length * b.toNat := Nat.mul_le_mul_left _ (UInt8.lt_iff_toNat_lt.1 hlt)
    _ ≤ toNat bs.reverse + 256 ^ bs.length * b.toNat := Nat.le_add_left _ _

/-- The order of byte strings of one length is that of the numbers that they spell with the top byte first. -/
theorem order_eq_compare : ∀ {as bs : Bytes}, as.length = bs.length →
    order as bs = compare (toNat as.reverse) (toNat bs.reverse)
  | [], [], _ => rfl
  | a :: as, b :: bs, h => by
    have hlength : as.length = bs.length := Nat.succ.inj h
    rw [order]
    -- as long as the first bytes are equal they add the same to both numbers; the first two that differ decide
    split
    · rename_i hlt
      exact (Nat.compare_eq_lt.2 (toNat_reverse_cons_lt hlt hlength)).symm
    split
    · rename_i hgt
      exact (Nat.compare_eq_gt.2 (toNat_reverse_cons_lt hgt hlength.symm)).symm
    · rename_i hge hle
      have heq : a = b := UInt8.le_antisymm (UInt8.not_lt.1 hle) (UInt8.not_lt.1 hge)
      rw [order_eq_compare hlength, toNat_reverse_cons, toNat_reverse_cons, heq, hlength]
      simp only [Nat.compare_eq_ite_lt, Nat.add_lt_add_iff_right]

/-- **From the top byte down.** Two byte strings of one length, read with the least significant byte first, compare as
their reversals do at the first byte in which these differ. -/
theorem order_reverse {as bs : Bytes} (h : as.length = bs.length) :
    order as.reverse bs.reverse = compare (toNat as) (toNat bs) := by
  have hreverse : as.reverse.length = bs.reverse.length := by rw [List.length_reverse, List.length_reverse, h]
  rw [order_eq_compare hreverse, List.reverse_reverse, List.reverse_reverse]

end Bytes

/-! ## Hashes and targets -/

namespace Digest

variable {hash : Digest} {target easier : Bytes}

/-- The test of a header, for any hash and any bytes of a target. -/
def meets (hash : Digest) (target : Bytes) : Bool :=
  target ≠ List.replicate 32 0 && Bytes.order hash.bytes.reverse target.reverse != .gt

theorem meets_iff (htarget : target.length = 32) :
    hash.meets target = true ↔ (∃ b ∈ target, b ≠ 0) ∧ Bytes.toNat hash.bytes ≤ Bytes.toNat target := by
  have hzero : target ≠ List.replicate 32 0 ↔ ∃ b ∈ target, b ≠ 0 := by
    rw [ne_eq, List.eq_replicate_iff, and_iff_right htarget]
    push Not
    rfl
  have horder : Bytes.order hash.bytes.reverse target.reverse ≠ .gt ↔ Bytes.toNat hash.bytes ≤ Bytes.toNat target := by
    rw [Bytes.order_reverse (hash.length_bytes.trans htarget.symm), Nat.compare_ne_gt]
  rw [meets, Bool.and_eq_true, decide_eq_true_iff, bne_iff_ne, hzero, horder]

theorem meets_mono (htarget : target.length = 32) (heasier : easier.length = 32)
    (hle : Bytes.toNat target ≤ Bytes.toNat easier) (h : hash.meets target = true) : hash.meets easier = true := by
  obtain ⟨hsome, hhash⟩ := (meets_iff htarget).1 h
  have hpos : 0 < Bytes.toNat easier := (Bytes.toNat_pos_iff.2 hsome).trans_le hle
  exact (meets_iff heasier).2 ⟨Bytes.toNat_pos_iff.1 hpos, hhash.trans hle⟩

end Digest

namespace Header

theorem meetsTarget_eq (h : Header) : h.meetsTarget = h.hash.meets h.bits.target := rfl

theorem meetsTarget_iff (h : Header) :
    h.meetsTarget = true ↔
      (∃ b ∈ h.bits.target, b ≠ 0) ∧ Bytes.toNat h.hash.bytes ≤ Bytes.toNat h.bits.target := by
  rw [meetsTarget_eq, Digest.meets_iff h.bits.length_target]

/-- **Work is a comparison of numbers.** A header meets its target exactly if some byte of the target is not zero and
the number of the hash is at most that of the target, and the chain's check refuses every other header by its hash. The
same holds of the test that headers undergo for any hash and any thirty-two bytes of target. So whatever the hash, if it
meets a target, it meets all that stand for greater numbers. -/
theorem meetsTarget_exact :
    (∀ h : Header,
      (h.meetsTarget = true ↔
        (∃ b ∈ h.bits.target, b ≠ 0) ∧ Bytes.toNat h.hash.bytes ≤ Bytes.toNat h.bits.target) ∧
      h.checkWork =
        (if (∃ b ∈ h.bits.target, b ≠ 0) ∧ Bytes.toNat h.hash.bytes ≤ Bytes.toNat h.bits.target then .ok ()
          else .error (.insufficientWork h.hash)) ∧
      h.meetsTarget = h.hash.meets h.bits.target) ∧
    ∀ (hash : Digest) (target : Bytes), target.length = 32 →
      (hash.meets target = true ↔ (∃ b ∈ target, b ≠ 0) ∧ Bytes.toNat hash.bytes ≤ Bytes.toNat target) ∧
      ∀ easier : Bytes, easier.length = 32 → Bytes.toNat target ≤ Bytes.toNat easier →
        hash.meets target = true → hash.meets easier = true := by
  constructor
  · intro h
    exact ⟨h.meetsTarget_iff, if_congr h.meetsTarget_iff rfl rfl, h.meetsTarget_eq⟩
  · intro hash target htarget
    exact ⟨Digest.meets_iff htarget, fun easier heasier hle => Digest.meets_mono htarget heasier hle⟩

/-- A header with its work, and a hash that is its target: where it first differs from the easier target, it is below,
and in the bytes after that one it is above. -/
theorem meetsTarget_exact_equal :
    let block : Header := ⟨1, .zero, .zero, 1, 0x203fffff, 0, 0⟩
    let hash : Digest := ⟨Compact.target 0x1d00ffff, Compact.length_target _⟩
    block.meetsTarget = true ∧ hash.meets (Compact.target 0x1d00ffff) = true ∧
      Bytes.toNat (Compact.target 0x1d00ffff) ≤ Bytes.toNat (Compact.target 0x1d010000) ∧
      hash.meets (Compact.target 0x1d010000) = true := by
  intro block hash
  have hwork : block.meetsTarget = true := (meetsTarget_exact.1 block).1.2 (by decide +kernel)
  obtain ⟨hmeets, hmono⟩ := meetsTarget_exact.2 hash (Compact.target 0x1d00ffff) (Compact.length_target _)
  have hequal : hash.meets (Compact.target 0x1d00ffff) = true := hmeets.2 ⟨by decide, Nat.le_refl _⟩
  have hle : Bytes.toNat (Compact.target 0x1d00ffff) ≤ Bytes.toNat (Compact.target 0x1d010000) := by decide
  exact ⟨hwork, hequal, hle, hmono _ (Compact.length_target _) hle hequal⟩

end Header
end LightClient
