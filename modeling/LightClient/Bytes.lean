/-!
# Byte strings

Whole numbers as bytes, least significant byte first, and the comparison of two byte strings
from their first byte on.
-/
namespace LightClient

-- A power of a natural number is the core one, whatever else is imported.
attribute [instance (high), default_instance 10001] instPowNat

abbrev Bytes := List UInt8

namespace Bytes

/-- The low `k` bytes of `n`, least significant first. -/
def littleEndian : Nat → Nat → Bytes
  | 0, _ => []
  | k + 1, n => UInt8.ofNat n :: littleEndian k (n / 256)

/-- The number that a byte string spells, least significant byte first. -/
def toNat : Bytes → Nat
  | [] => 0
  | b :: bs => b.toNat + 256 * toNat bs

def bigEndian (k n : Nat) : Bytes := (littleEndian k n).reverse

/-- The order of two byte strings decided at the first byte in which they differ. -/
def order : Bytes → Bytes → Ordering
  | [], [] => .eq
  | [], _ :: _ => .lt
  | _ :: _, [] => .gt
  | a :: as, b :: bs => if a < b then .lt else if b < a then .gt else order as bs

@[simp] theorem length_littleEndian (k n : Nat) : (littleEndian k n).length = k := by
  induction k generalizing n with
  | zero => rfl
  | succ k ih => simp [littleEndian, ih]

@[simp] theorem length_bigEndian (k n : Nat) : (bigEndian k n).length = k := by
  simp [bigEndian]

theorem toNat_littleEndian (k n : Nat) : toNat (littleEndian k n) = n % 256 ^ k := by
  induction k generalizing n with
  | zero => simp [littleEndian, toNat, Nat.mod_one]
  | succ k ih =>
    have hb : (UInt8.ofNat n).toNat = n % 256 := UInt8.toNat_ofNat'
    rw [littleEndian, toNat, ih, hb, Nat.pow_succ', Nat.mod_mul]

end Bytes
end LightClient
