import Mathlib.Algebra.Order.Floor.Semifield
import Mathlib.Data.Rat.Floor
import LightClient.Header
/-!
# What a compact difficulty stands for

A compact difficulty is a floating-point number with base 256: the coefficient times a power of 256 whose exponent is
three less than the one given (`Compact.value`). It stands for the whole part of that number, or for no target at all if
it is negative or needs more than 256 bits (`Compact.denoted`).

The bytes of the target spell exactly this number if the exponent is at most thirty-two (`Compact.toNat_target`). With
the exponents 33 and 34 a coefficient of two bytes or of one still denotes a number of 256 bits, but every exponent
above thirty-two gives the zero target. These are the only encodings with a wrong target
(`Compact.toNat_target_eq_denoted_iff`).
-/
namespace LightClient

/-! ## Bytes in a row -/

namespace Bytes

theorem toNat_append (as bs : Bytes) : toNat (as ++ bs) = toNat as + 256 ^ as.length * toNat bs := by
  induction as with
  | nil => rw [List.nil_append, toNat, List.length_nil, Nat.pow_zero, Nat.zero_add, Nat.one_mul]
  | cons a as ih => rw [List.cons_append, toNat, ih, toNat, List.length_cons, Nat.pow_succ]; ring

theorem toNat_replicate_zero (n : Nat) : toNat (List.replicate n 0) = 0 := by
  induction n with
  | zero => rfl
  | succ n ih => rw [List.replicate_succ, toNat, ih]; rfl

end Bytes

namespace Compact

/-! ## The number of an encoding -/

/-- The size of the number: the coefficient, moved up by as many bytes as the exponent exceeds three, or down. -/
def value (bits : Compact) : ℚ := bits.coefficient * 256 ^ ((bits.exponent : ℤ) - 3)

/-- The target that an encoding stands for: the whole part of a number that is not negative and below 2^256. -/
def denoted (bits : Compact) : Nat :=
  if bits.isNegative = false ∧ ⌊bits.value⌋₊ < 2 ^ 256 then ⌊bits.value⌋₊ else 0

theorem coefficient_lt (bits : Compact) : bits.coefficient < 2 ^ 23 := Nat.mod_lt _ (Nat.two_pow_pos 23)

theorem floor_value (bits : Compact) :
    ⌊bits.value⌋₊ = if bits.exponent ≤ 3 then bits.coefficient / 256 ^ (3 - bits.exponent)
      else bits.coefficient * 256 ^ (bits.exponent - 3) := by
  unfold value
  split
  · rename_i hle
    have hexponent : (bits.exponent : ℤ) - 3 = -((3 - bits.exponent : ℕ) : ℤ) := by omega
    rw [hexponent, zpow_neg, zpow_natCast, ← div_eq_mul_inv]
    exact_mod_cast Nat.floor_div_eq_div (K := ℚ) bits.coefficient (256 ^ (3 - bits.exponent))
  · rename_i hgt
    have hexponent : (bits.exponent : ℤ) - 3 = ((bits.exponent - 3 : ℕ) : ℤ) := by omega
    rw [hexponent, zpow_natCast]
    exact_mod_cast Nat.floor_natCast (R := ℚ) (bits.coefficient * 256 ^ (bits.exponent - 3))

/-! ## The number of a target -/

theorem toNat_target_of_le {bits : Compact} (hsign : bits.isNegative = false) (hle : bits.exponent ≤ 32) :
    Bytes.toNat bits.target = ⌊bits.value⌋₊ := by
  have hlt := bits.coefficient_lt
  rw [floor_value]
  unfold target
  by_cases hzero : bits.coefficient = 0
  · rw [if_pos (.inr (.inl hzero)), Bytes.toNat_replicate_zero, hzero, Nat.zero_div, Nat.zero_mul, ite_self]
  · rw [if_neg (by simp [hsign, hzero, hle])]
    split
    · -- at most the coefficient itself, which fits into four bytes
      have hdiv := Nat.div_le_self bits.coefficient (256 ^ (3 - bits.exponent))
      rw [Bytes.toNat_littleEndian, Nat.mod_eq_of_lt (by omega)]
    · rw [Bytes.toNat_append, Bytes.toNat_append, Bytes.toNat_replicate_zero, Bytes.toNat_replicate_zero,
        Bytes.toNat_littleEndian, Nat.mod_eq_of_lt (by omega), List.length_replicate]
      ring

/-- **The bytes of a target** spell the whole part of the value, but for negative encodings and for exponents above
thirty-two. -/
theorem toNat_target (bits : Compact) :
    Bytes.toNat bits.target = if bits.isNegative = false ∧ bits.exponent ≤ 32 then ⌊bits.value⌋₊ else 0 := by
  split
  · rename_i h
    exact toNat_target_of_le h.1 h.2
  · rename_i h
    have hrefused : bits.isNegative ∨ bits.coefficient = 0 ∨ 32 < bits.exponent := by
      by_cases hsign : bits.isNegative = true
      · exact .inl hsign
      · exact .inr (.inr (by simp_all))
    rw [target, if_pos hrefused, Bytes.toNat_replicate_zero]

/-! ## Numbers that fit -/

theorem floor_value_lt_of_le {bits : Compact} (hle : bits.exponent ≤ 32) : ⌊bits.value⌋₊ < 2 ^ 256 := by
  have hlt := bits.coefficient_lt
  rw [floor_value]
  split
  · have hdiv := Nat.div_le_self bits.coefficient (256 ^ (3 - bits.exponent))
    omega
  · have hpow : 256 ^ (bits.exponent - 3) ≤ 256 ^ 29 := Nat.pow_le_pow_right (by decide) (by omega)
    calc bits.coefficient * 256 ^ (bits.exponent - 3)
        ≤ bits.coefficient * 256 ^ 29 := Nat.mul_le_mul_left _ hpow
      _ < 2 ^ 23 * 256 ^ 29 := Nat.mul_lt_mul_of_pos_right hlt (by decide)
      _ < 2 ^ 256 := by decide

/-- The number has at most 256 bits, though its exponent is above thirty-two. -/
def IsOverlooked (bits : Compact) : Prop :=
  bits.isNegative = false ∧ 0 < bits.coefficient ∧
    (bits.exponent = 33 ∧ bits.coefficient < 2 ^ 16 ∨ bits.exponent = 34 ∧ bits.coefficient < 2 ^ 8)

instance (bits : Compact) : Decidable bits.IsOverlooked := by unfold IsOverlooked; infer_instance

theorem floor_value_lt_iff {bits : Compact} (hgt : 32 < bits.exponent) :
    ⌊bits.value⌋₊ < 2 ^ 256 ↔ bits.coefficient = 0 ∨
      bits.exponent = 33 ∧ bits.coefficient < 2 ^ 16 ∨ bits.exponent = 34 ∧ bits.coefficient < 2 ^ 8 := by
  rw [floor_value, if_neg (by omega)]
  by_cases h33 : bits.exponent = 33
  · rw [h33]
    omega
  by_cases h34 : bits.exponent = 34
  · rw [h34]
    omega
  · have hpow : 256 ^ 32 ≤ 256 ^ (bits.exponent - 3) := Nat.pow_le_pow_right (by decide) (by omega)
    constructor
    · intro hlt
      by_contra hsome
      have hmul := Nat.le_mul_of_pos_left (256 ^ (bits.exponent - 3)) (show 0 < bits.coefficient by omega)
      omega
    · rintro (hzero | ⟨h, -⟩ | ⟨h, -⟩)
      · rw [hzero, Nat.zero_mul]
        decide
      · exact absurd h h33
      · exact absurd h h34

theorem denoted_of_isOverlooked {bits : Compact} (h : bits.IsOverlooked) :
    bits.denoted = bits.coefficient * 256 ^ (bits.exponent - 3) := by
  obtain ⟨hsign, -, hfits⟩ := h
  have hgt : 32 < bits.exponent := by omega
  rw [denoted, if_pos ⟨hsign, (floor_value_lt_iff hgt).2 (.inr hfits)⟩, floor_value, if_neg (by omega)]

/-- **When a target is right.** The thirty-two bytes of a target spell the number that the encoding denotes, exactly but
for the encodings whose exponent is 33 with a coefficient of at most two bytes, or 34 with one of a single byte: they
denote a number above zero, and their target is zero. -/
theorem toNat_target_eq_denoted_iff (bits : Compact) :
    bits.target.length = 32 ∧ (Bytes.toNat bits.target = bits.denoted ↔ ¬ bits.IsOverlooked) ∧
      (bits.IsOverlooked → Bytes.toNat bits.target = 0 ∧
        bits.denoted = bits.coefficient * 256 ^ (bits.exponent - 3) ∧ 0 < bits.denoted) := by
  have hoverlooked : bits.IsOverlooked → Bytes.toNat bits.target = 0 ∧
      bits.denoted = bits.coefficient * 256 ^ (bits.exponent - 3) ∧ 0 < bits.denoted := by
    intro h
    have hdenoted := denoted_of_isOverlooked h
    obtain ⟨-, hpos, hfits⟩ := h
    refine ⟨?_, hdenoted, ?_⟩
    · rw [toNat_target, if_neg (by omega)]
    · rw [hdenoted]
      exact Nat.mul_pos hpos (Nat.pow_pos (by decide))
  refine ⟨length_target bits, ⟨fun heq h => ?_, fun h => ?_⟩, hoverlooked⟩
  · obtain ⟨hzero, -, hpos⟩ := hoverlooked h
    omega
  · rw [toNat_target, denoted]
    by_cases hsign : bits.isNegative = false
    · by_cases hle : bits.exponent ≤ 32
      · rw [if_pos ⟨hsign, hle⟩, if_pos ⟨hsign, floor_value_lt_of_le hle⟩]
      · rw [if_neg (by omega)]
        split
        · rename_i hfits
          -- the only number that fits and is not overlooked is zero
          have hfits' := (floor_value_lt_iff (by omega)).1 hfits.2
          have hzero : bits.coefficient = 0 := by
            by_contra hpos
            exact h ⟨hsign, by omega, hfits'.resolve_left hpos⟩
          rw [floor_value, if_neg (by omega), hzero, Nat.zero_mul]
        · rfl
    · rw [if_neg (by simp [hsign]), if_neg (by simp [hsign])]

theorem target_overlooked :
    IsOverlooked 0x2100ffff ∧ Bytes.toNat (target 0x2100ffff) = 0 ∧ denoted 0x2100ffff = 0xffff * 256 ^ 30 := by
  have h : IsOverlooked 0x2100ffff := by decide
  obtain ⟨hzero, hdenoted, -⟩ := (toNat_target_eq_denoted_iff 0x2100ffff).2.2 h
  exact ⟨h, hzero, hdenoted⟩

end Compact
end LightClient
