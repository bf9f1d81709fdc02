import LightClient.Bits
import LightClient.Message
import LightClient.SipHash
/-!
# Bloom filters

A filter is a row of bits. Adding an element sets the bits that its hashes select, and an element is
held when all of its bits are set, so an element that was added is always held.
-/
namespace LightClient

inductive FilterError where
  | rate
  | size
  | hashCount
  deriving DecidableEq

def FilterError.message : FilterError → String
  | .rate => "False positive rate must be between 0.0 and 1.0"
  | .size => "Filter size must be greater than 0"
  | .hashCount => "Hash count must be greater than 0"

structure Bloom where
  size : Nat
  hashCount : Nat
  tweak : UInt32
  size_pos : 0 < size
  hashCount_pos : 0 < hashCount
  bits : Vector Bool size
  elements : Nat

namespace Bloom

/-! ## Dimensions -/

def defaultSize : Nat := 1024

/-- The number of bits, `-(n ln p) / (ln 2)²` rounded up, that keeps `n` elements at rate `p`. -/
def optimalSize (n : Nat) (p : Float) : Nat :=
  if n = 0 ∨ p ≤ 0 ∨ 1 ≤ p then defaultSize
  else
    let ln2 := Float.log 2
    (-(Float.ofNat n * Float.log p) / (ln2 * ln2)).ceil.toUInt64.toNat

/-- The number of hashes, `(m / n) ln 2` rounded up and kept between one and fifty. -/
def optimalHashCount (size n : Nat) : Nat :=
  if n = 0 then 1
  else
    let k := (Float.ofNat size / Float.ofNat n * Float.log 2).ceil
    if k < 1 then 1 else if 50 < k then 50 else k.toUInt32.toNat

/-! ## Building -/

def ofSize (size hashCount : Nat) (tweak : UInt32) : Except FilterError Bloom :=
  if hs : 0 < size then
    if hk : 0 < hashCount then .ok ⟨size, hashCount, tweak, hs, hk, Vector.replicate size false, 0⟩
    else .error .hashCount
  else .error .size

/-- The value of the hash of a given number, keyed by the tweak. -/
def hashOf (tweak : UInt32) (number : Nat) (data : Bytes) : Nat :=
  (SipHash.hash tweak.toUInt64 (UInt64.ofNat number) data).toNat

/-- What filters are made by. -/
structure Scheme where
  /-- The bits and the hashes that a filter with room for so many elements gets. -/
  dimensions : Nat → Except FilterError (Nat × Nat)
  /-- The value of the hash of a given number under a tweak. -/
  hashOf : UInt32 → Nat → Bytes → Nat

def Scheme.ofRate (p : Float) : Scheme where
  dimensions n :=
    if p ≤ 0 ∨ 1 ≤ p then .error .rate
    else
      let size := optimalSize n p
      .ok (size, optimalHashCount size n)
  hashOf := Bloom.hashOf

/-- A filter without elements that has room for so many of them. -/
def Scheme.blank (s : Scheme) (room : Nat) (tweak : UInt32) : Except FilterError Bloom := do
  let (size, hashCount) ← s.dimensions room
  ofSize size hashCount tweak

def ofRate (n : Nat) (p : Float) (tweak : UInt32) : Except FilterError Bloom :=
  (Scheme.ofRate p).blank n tweak

/-! ## Elements -/

section
variable (hashOf : UInt32 → Nat → Bytes → Nat)

def indexBy (b : Bloom) (data : Bytes) (number : Nat) : Fin b.size :=
  ⟨hashOf b.tweak number data % b.size, Nat.mod_lt _ b.size_pos⟩

def addBy (b : Bloom) (data : Bytes) : Bloom :=
  { b with
    bits := (List.range b.hashCount).foldl (fun bits k => bits.set (b.indexBy hashOf data k) true) b.bits
    elements := b.elements + 1 }

def containsBy (b : Bloom) (data : Bytes) : Bool :=
  (List.range b.hashCount).all fun k => b.bits[b.indexBy hashOf data k]

end

def add : Bloom → Bytes → Bloom := addBy hashOf

def contains : Bloom → Bytes → Bool := containsBy hashOf

def clear (b : Bloom) : Bloom := { b with bits := Vector.replicate b.size false, elements := 0 }

def toBytes (b : Bloom) : Bytes := Bits.pack b.bits.toList

def toLoad (b : Bloom) : FilterLoad := ⟨b.toBytes, b.size, b.hashCount, b.tweak⟩

/-- The rate of false positives, `(1 - e^(-kn/m))^k`, that the elements so far lead to. -/
def estimatedRate (b : Bloom) : Float :=
  if b.elements = 0 then 0
  else
    let k := Float.ofNat b.hashCount
    (1 - Float.exp (-k * Float.ofNat b.elements / Float.ofNat b.size)).pow k

end Bloom

/-- What a peer that loads the filter finds for an element. -/
def FilterLoad.contains (l : FilterLoad) (data : Bytes) : Bool :=
  let bits := (Bits.ofBytes l.filter).toArray
  (List.range l.hashCount).all fun k => bits.getD (Bloom.hashOf l.tweak k data % l.bitCount) false

end LightClient
