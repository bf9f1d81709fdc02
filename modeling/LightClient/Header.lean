import LightClient.Digest
/-!
# Block headers

The hash of a header covers every field but the height, which the chain assigns. A header carries
enough work when its hash, read as a number with the least significant byte first, is no larger
than the target that its compact difficulty stands for.
-/
namespace LightClient

/-- Difficulty in compact form: a byte of exponent over a sign bit and a coefficient. -/
abbrev Compact := UInt32

namespace Compact

def exponent (bits : Compact) : Nat := bits.toNat / 2 ^ 24

def coefficient (bits : Compact) : Nat := bits.toNat % 2 ^ 23

def isNegative (bits : Compact) : Bool := bits.toNat.testBit 23

/-- The target as thirty-two bytes, least significant first. Negative encodings and exponents above
thirty-two give the zero target, which no hash meets. -/
def target (bits : Compact) : Bytes :=
  if bits.isNegative ∨ bits.coefficient = 0 ∨ 32 < bits.exponent then List.replicate 32 0
  else if bits.exponent ≤ 3 then
    Bytes.littleEndian 32 (bits.coefficient / 256 ^ (3 - bits.exponent))
  else
    List.replicate (bits.exponent - 3) 0 ++ Bytes.littleEndian 3 bits.coefficient
      ++ List.replicate (32 - bits.exponent) 0

@[simp] theorem length_target (bits : Compact) : bits.target.length = 32 := by
  unfold target
  split
  · simp
  · split
    · simp
    · simp
      omega

end Compact

structure Header where
  version : UInt32
  previous : Digest
  merkleRoot : Digest
  timestamp : UInt64
  bits : Compact
  nonce : UInt32
  /-- Place in the chain; not part of the hash. -/
  height : Nat
  deriving DecidableEq

namespace Header

def toBytes (h : Header) : Bytes :=
  Bytes.littleEndian 4 h.version.toNat ++ h.previous.bytes ++ h.merkleRoot.bytes
    ++ Bytes.littleEndian 8 h.timestamp.toNat ++ Bytes.littleEndian 4 h.bits.toNat
    ++ Bytes.littleEndian 4 h.nonce.toNat

def hash (h : Header) : Digest := Digest.ofBytes h.toBytes

/-- The hash does not exceed a target that is not zero, comparing from the top byte down. -/
def meetsTarget (h : Header) : Bool :=
  let target := h.bits.target
  target ≠ List.replicate 32 0 && Bytes.order h.hash.bytes.reverse target.reverse != .gt

def bumpNonce (h : Header) : Header := { h with nonce := h.nonce + 1 }

/-- Tries at most `tries` further nonces until the test passes; also counts those tried. -/
def search (done : Header → Bool) : Nat → Header → Header × Nat
  | 0, h => (h, 0)
  | tries + 1, h =>
    if done h then (h, 0)
    else
      let r := search done tries h.bumpNonce
      (r.1, r.2 + 1)

def describe (h : Header) : String :=
  "BlockHeader \x7b hash: " ++ h.hash.toHex ++ ", previous: " ++ h.previous.toHex
    ++ ", height: " ++ toString h.height
    ++ ", bits: 0x" ++ String.ofList (Nat.toDigits 16 h.bits.toNat)
    ++ ", nonce: " ++ toString h.nonce.toNat ++ " \x7d"

@[simp] theorem hash_with_height (h : Header) (n : Nat) : { h with height := n }.hash = h.hash := rfl

end Header
end LightClient
