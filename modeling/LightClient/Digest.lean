import LightClient.Hex
import LightClient.Sha256
/-!
# Digests

Blocks and transactions are named by the thirty-two bytes of a double SHA-256.
-/
namespace LightClient

structure Digest where
  bytes : Bytes
  length_bytes : bytes.length = 32
  deriving DecidableEq

namespace Digest

def zero : Digest := ⟨List.replicate 32 0, rfl⟩

def isZero (d : Digest) : Bool := d = zero

def ofBytes (message : Bytes) : Digest :=
  ⟨Sha256.digest (Sha256.digest message), Sha256.length_digest _⟩

/-- Digest of a tree node over the digests of its two children. -/
def join (left right : Digest) : Digest := ofBytes (left.bytes ++ right.bytes)

def toHex (d : Digest) : String := Hex.encode d.bytes

/-- The first eight bytes, enough to tell digests apart in a trace. -/
def abbreviated (d : Digest) : String := "Hash256(" ++ Hex.encode (d.bytes.take 8) ++ ")"

def ofHex (text : Bytes) : Except Hex.ReadError Digest :=
  match h : Hex.decode 32 text with
  | .ok bytes => .ok ⟨bytes, Hex.length_of_decode h⟩
  | .error e => .error e

end Digest
end LightClient
