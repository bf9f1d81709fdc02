import LightClient.Bytes
/-!
# Bits packed into bytes

Eight bits share a byte, the first in the lowest place; the last byte is filled up with zeros.
-/
namespace LightClient.Bits

/-- The eight bits of a byte, lowest first. -/
def ofByte (b : UInt8) : List Bool := (List.range 8).map b.toNat.testBit

def ofBytes (bs : Bytes) : List Bool := bs.flatMap ofByte

/-- The number whose binary places, lowest first, are the given bits. -/
def value : List Bool → Nat
  | [] => 0
  | b :: bs => b.toNat + 2 * value bs

/-- The first `count` bytes that hold a list of bits. -/
def packBytes : Nat → List Bool → Bytes
  | 0, _ => []
  | count + 1, bits => UInt8.ofNat (value (bits.take 8)) :: packBytes count (bits.drop 8)

def pack (bits : List Bool) : Bytes := packBytes ((bits.length + 7) / 8) bits

@[simp] theorem length_ofBytes (bs : Bytes) : (ofBytes bs).length = 8 * bs.length := by
  induction bs with
  | nil => rfl
  | cons b bs ih =>
    simp only [ofBytes, List.flatMap_cons, List.length_append, List.length_cons] at ih ⊢
    simp only [ih, ofByte, List.length_map, List.length_range]
    omega

@[simp] theorem length_packBytes (count : Nat) (bits : List Bool) :
    (packBytes count bits).length = count := by
  induction count generalizing bits with
  | zero => rfl
  | succ count ih => simp [packBytes, ih]

@[simp] theorem length_pack (bits : List Bool) : (pack bits).length = (bits.length + 7) / 8 := by
  simp [pack]

/-! ## Unpacking what was packed -/

theorem testBit_value : ∀ (bits : List Bool) (i : Nat), (value bits).testBit i = bits.getD i false
  | [], i => by simp [value]
  | b :: bs, 0 => by
    rw [value, Nat.testBit_zero]
    cases b <;> simp
  | b :: bs, i + 1 => by
    have hhalf : (b.toNat + 2 * value bs) / 2 = value bs := by
      have := b.toNat_lt
      omega
    rw [value, Nat.testBit_succ, hhalf, testBit_value bs i]
    rfl

theorem value_lt : ∀ bits : List Bool, value bits < 2 ^ bits.length
  | [] => Nat.one_pos
  | b :: bs => by
    have := value_lt bs
    have hb : b.toNat ≤ 1 := Bool.toNat_le b
    rw [value, List.length_cons, Nat.pow_succ]
    omega

/-- What is missing of a byte is filled up with zeros. -/
theorem ofByte_value {bits : List Bool} (h : bits.length ≤ 8) :
    ofByte (UInt8.ofNat (value bits)) = bits ++ List.replicate (8 - bits.length) false := by
  have hlt : value bits < 2 ^ 8 := Nat.lt_of_lt_of_le (value_lt bits) (Nat.pow_le_pow_right (by decide) h)
  have hbyte : (UInt8.ofNat (value bits)).toNat = value bits := UInt8.toNat_ofNat_of_lt' hlt
  apply List.ext_getElem
  · simp only [ofByte, List.length_map, List.length_range, List.length_append, List.length_replicate]
    omega
  · intro i hi _
    simp only [ofByte, List.getElem_map, List.getElem_range, hbyte, testBit_value]
    rw [List.getElem_append]
    split
    · rename_i hlt
      rw [List.getD_eq_getElem?_getD, List.getElem?_eq_getElem hlt, Option.getD_some]
    · rename_i hge
      rw [List.getD_eq_getElem?_getD, List.getElem?_eq_none (by omega), List.getElem_replicate, Option.getD_none]

theorem ofBytes_packBytes : ∀ (count : Nat) {bits : List Bool}, bits.length ≤ 8 * count →
    ofBytes (packBytes count bits) = bits ++ List.replicate (8 * count - bits.length) false
  | 0, [], _ => rfl
  | count + 1, bits, h => by
    have hbyte : ofByte (UInt8.ofNat (value (bits.take 8))) =
        bits.take 8 ++ List.replicate (8 - (bits.take 8).length) false :=
      ofByte_value (by rw [List.length_take]; exact Nat.min_le_left ..)
    have hrest : ofBytes (packBytes count (bits.drop 8)) =
        bits.drop 8 ++ List.replicate (8 * count - (bits.drop 8).length) false :=
      ofBytes_packBytes count (by rw [List.length_drop]; omega)
    rw [packBytes, ofBytes, List.flatMap_cons, hbyte, ← ofBytes, hrest]
    rw [List.length_take, List.length_drop]
    rcases Nat.le_total 8 bits.length with hlong | hshort
    · rw [Nat.min_eq_left hlong, Nat.sub_self, List.replicate_zero, List.append_nil, ← List.append_assoc,
        List.take_append_drop]
      congr 2
      omega
    · rw [Nat.min_eq_right hshort, List.take_of_length_le hshort, List.drop_eq_nil_of_le hshort, List.nil_append,
        List.append_assoc, List.replicate_append_replicate]
      congr 2
      omega

/-- Unpacking gives the bits back, with less than a byte of zeros after them. -/
theorem ofBytes_pack (bits : List Bool) :
    ∃ padding, padding.length < 8 ∧ ofBytes (pack bits) = bits ++ padding := by
  refine ⟨List.replicate (8 * ((bits.length + 7) / 8) - bits.length) false, ?_, ofBytes_packBytes _ (by omega)⟩
  rw [List.length_replicate]
  omega

end LightClient.Bits
