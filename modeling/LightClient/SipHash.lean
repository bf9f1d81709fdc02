import LightClient.Bytes
/-!
# SipHash-2-4

A keyed hash of a byte string to sixty-four bits: two rounds for every eight bytes, four to finish.
-/
namespace LightClient.SipHash

structure State where
  v0 : UInt64
  v1 : UInt64
  v2 : UInt64
  v3 : UInt64

def rotateLeft (x n : UInt64) : UInt64 := (x <<< n) ||| (x >>> (64 - n))

def initial (key0 key1 : UInt64) : State where
  v0 := key0 ^^^ 0x736f6d6570736575
  v1 := key1 ^^^ 0x646f72616e646f6d
  v2 := key0 ^^^ 0x6c7967656e657261
  v3 := key1 ^^^ 0x7465646279746573

def round (s : State) : State :=
  let v0 := s.v0 + s.v1
  let v1 := rotateLeft s.v1 13 ^^^ v0
  let v0 := rotateLeft v0 32
  let v2 := s.v2 + s.v3
  let v3 := rotateLeft s.v3 16 ^^^ v2
  let v0 := v0 + v3
  let v3 := rotateLeft v3 21 ^^^ v0
  let v2 := v2 + v1
  let v1 := rotateLeft v1 17 ^^^ v2
  let v2 := rotateLeft v2 32
  { v0, v1, v2, v3 }

def absorbWord (s : State) (word : UInt64) : State :=
  let s := round (round { s with v3 := s.v3 ^^^ word })
  { s with v0 := s.v0 ^^^ word }

def absorb : Nat → Bytes → State → State
  | 0, _, s => s
  | count + 1, bytes, s =>
    absorb count (bytes.drop 8) (absorbWord s (UInt64.ofNat (Bytes.toNat (bytes.take 8))))

/-- The bytes left over from whole words, with the length of the message in the top byte. -/
def lastWord (message : Bytes) : UInt64 :=
  let rest := message.drop (8 * (message.length / 8))
  UInt64.ofNat (Bytes.toNat rest + 2 ^ 56 * (message.length % 256))

def hash (key0 key1 : UInt64) (message : Bytes) : UInt64 :=
  let s := absorbWord (absorb (message.length / 8) message (initial key0 key1)) (lastWord message)
  let s := round (round (round (round { s with v2 := s.v2 ^^^ 0xff })))
  s.v0 ^^^ s.v1 ^^^ s.v2 ^^^ s.v3

end LightClient.SipHash
