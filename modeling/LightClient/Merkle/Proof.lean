import LightClient.Bits
import LightClient.Digest
import LightClient.Merkle.Shape
/-!
# Partial trees

A proof that some transactions belong to a block lists the tree depth first. Every node that is
visited has a flag: whether a proved transaction lies below it. A node without that flag, and every
leaf, is given by its digest; any other node is given by its children.

`Proof.ofLeaves` writes the proof of a choice of leaves. `Proof.provedLeaves` walks a proof, rebuilds the
root and returns the proved leaves.
-/
namespace LightClient.Merkle

/-- The flags and digests of a partial tree, depth first. -/
structure Trail where
  bits : List Bool
  hashes : List Digest
  deriving DecidableEq

def Trail.append (a b : Trail) : Trail := ⟨a.bits ++ b.bits, a.hashes ++ b.hashes⟩

instance : Append Trail := ⟨Trail.append⟩

/-! ## Writing -/

def nodeDigest (leaves : List Digest) : Nat → Nat → Digest
  | 0, pos => leaves.getD pos Digest.zero
  | height + 1, pos =>
    let left := nodeDigest leaves height (2 * pos)
    if 2 * pos + 1 < width leaves.length height then
      Digest.join left (nodeDigest leaves height (2 * pos + 1))
    else Digest.join left left

def root (leaves : List Digest) : Digest := nodeDigest leaves (height leaves.length) 0

/-- Some chosen leaf lies below the node at a height and position. -/
def covers (leaves : List Digest) (chosen : List Bool) (height pos : Nat) : Bool :=
  (((chosen.take leaves.length).drop (pos * 2 ^ height)).take (2 ^ height)).any id

def trailBelow (leaves : List Digest) (chosen : List Bool) : Nat → Nat → Trail
  | 0, pos => ⟨[covers leaves chosen 0 pos], [nodeDigest leaves 0 pos]⟩
  | height + 1, pos =>
    if covers leaves chosen (height + 1) pos then
      let left := trailBelow leaves chosen height (2 * pos)
      let children :=
        if 2 * pos + 1 < width leaves.length height then
          left ++ trailBelow leaves chosen height (2 * pos + 1)
        else left
      { children with bits := true :: children.bits }
    else ⟨[false], [nodeDigest leaves (height + 1) pos]⟩

/-- A partial tree as it is sent: the flags are packed into bytes. -/
structure Proof where
  total : UInt32
  hashes : List Digest
  flags : Bytes
  deriving DecidableEq

/-- The proof of those leaves whose choice is `true`; choices that are missing count as `false`. -/
def Proof.ofLeaves (leaves : List Digest) (chosen : List Bool) : Proof :=
  if leaves.isEmpty then ⟨0, [], []⟩
  else
    let trail := trailBelow leaves chosen (height leaves.length) 0
    ⟨UInt32.ofNat leaves.length, trail.hashes, Bits.pack trail.bits⟩

/-! ## Reading -/

/-- The lists that make up a proof. -/
inductive Part where
  | flagBits
  | flagBytes
  | hashes
  deriving DecidableEq

def Part.describe : Part → String
  | .flagBits => "flag bits"
  | .flagBytes => "flag bytes"
  | .hashes => "hashes"

inductive ProofError where
  | noTransactions
  | tooManyHashes (hashes transactions : Nat)
  | exhausted (part : Part)
  | unconsumed (part : Part)
  | duplicateNode
  | rootMismatch (expected actual : Digest)
  deriving DecidableEq

def ProofError.message : ProofError → String
  | .noTransactions => "Filtered block claims no transactions"
  | .tooManyHashes hashes transactions =>
    "More hashes (" ++ toString hashes ++ ") than transactions (" ++ toString transactions ++ ")"
  | .exhausted part => "Proof ran out of " ++ part.describe
  | .unconsumed part => "Proof left unused " ++ part.describe
  | .duplicateNode => "Duplicate right-hand node in proof"
  | .rootMismatch expected actual =>
    "Merkle root mismatch: header " ++ expected.toHex ++ ", proof " ++ actual.toHex

def Trail.takeBit (t : Trail) : Except ProofError (Bool × Trail) :=
  match t.bits with
  | [] => .error (.exhausted .flagBits)
  | bit :: bits => .ok (bit, { t with bits })

def Trail.takeHash (t : Trail) : Except ProofError (Digest × Trail) :=
  match t.hashes with
  | [] => .error (.exhausted .hashes)
  | hash :: hashes => .ok (hash, { t with hashes })

/-- What walking a node found, and what it left of the proof. -/
structure Visit where
  root : Digest
  leaves : List Digest
  rest : Trail
  deriving DecidableEq

/-- Walks the node at a height and position of the tree over `total` leaves. Two equal children
are refused: they would let a list of leaves with a repeated end pass for a shorter one. -/
def walk (total : Nat) : Nat → Nat → Trail → Except ProofError Visit
  | 0, _, trail => do
    let (flag, trail) ← trail.takeBit
    let (hash, trail) ← trail.takeHash
    return ⟨hash, if flag then [hash] else [], trail⟩
  | height + 1, pos, trail => do
    let (flag, trail) ← trail.takeBit
    if flag then
      let left ← walk total height (2 * pos) trail
      if 2 * pos + 1 < width total height then
        let right ← walk total height (2 * pos + 1) left.rest
        if right.root = left.root then throw .duplicateNode
        return ⟨Digest.join left.root right.root, left.leaves ++ right.leaves, right.rest⟩
      else
        return ⟨Digest.join left.root left.root, left.leaves, left.rest⟩
    else
      let (hash, trail) ← trail.takeHash
      return ⟨hash, [], trail⟩

namespace Proof

def trail (p : Proof) : Trail := ⟨Bits.ofBytes p.flags, p.hashes⟩

/-- The proved leaves, in order, if the proof has exactly the flags and digests that its tree calls
for and leads to the given root. -/
def provedLeaves (p : Proof) (root : Digest) : Except ProofError (List Digest) := do
  let total := p.total.toNat
  if total = 0 then throw .noTransactions
  if total < p.hashes.length then throw (.tooManyHashes p.hashes.length total)
  if p.flags.length * 8 < p.hashes.length then throw (.exhausted .flagBits)
  let visit ← walk total (height total) 0 p.trail
  if 8 ≤ visit.rest.bits.length then throw (.unconsumed .flagBytes)
  if visit.rest.hashes ≠ [] then throw (.unconsumed .hashes)
  if visit.root ≠ root then throw (.rootMismatch root visit.root)
  return visit.leaves

end Proof
end LightClient.Merkle
