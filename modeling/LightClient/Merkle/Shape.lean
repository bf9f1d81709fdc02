/-!
# The shape of a tree over transactions

A tree has its leaves at height zero. Each level above pairs up the nodes below it, and a node
without a partner is paired with itself.
-/
namespace LightClient.Merkle

/-- Number of nodes at a height of the tree over `total` leaves. -/
def width (total height : Nat) : Nat := (total + 2 ^ height - 1) / 2 ^ height

/-- The least height at which a single node is left. -/
def height (total : Nat) : Nat := if total ≤ 1 then 0 else (total - 1).log2 + 1

theorem width_zero (total : Nat) : width total 0 = total := by simp [width]

theorem width_le_one_iff (total h : Nat) : width total h ≤ 1 ↔ total ≤ 2 ^ h := by
  have hp : 0 < 2 ^ h := Nat.two_pow_pos h
  unfold width
  rw [← Nat.lt_succ_iff, Nat.div_lt_iff_lt_mul hp]
  omega

theorem lt_width_iff {total h pos : Nat} : pos < width total h ↔ pos * 2 ^ h < total := by
  have hp : 0 < 2 ^ h := Nat.two_pow_pos h
  unfold width
  rw [← Nat.succ_le_iff, Nat.le_div_iff_mul_le hp, Nat.succ_mul]
  omega

/-- One node is left exactly from `height total` on. -/
theorem height_le_iff (total h : Nat) : height total ≤ h ↔ width total h ≤ 1 := by
  rw [width_le_one_iff]
  unfold height
  split
  · next hle =>
    have := Nat.two_pow_pos h
    omega
  · next hgt =>
    rw [Nat.succ_le_iff, Nat.log2_lt (by omega)]
    omega

theorem width_height {total : Nat} (h : 0 < total) : width total (height total) = 1 := by
  have hle : width total (height total) ≤ 1 := (height_le_iff total _).1 (Nat.le_refl _)
  have hpos : 0 < width total (height total) := lt_width_iff.2 (by simpa using h)
  omega

end LightClient.Merkle
