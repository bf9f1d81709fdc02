import LightClient.Header
import LightClient.Merkle.Proof
/-!
# Filtered blocks

A header with the proof of those transactions that a peer's filter let through.
-/
namespace LightClient

structure FilteredBlock where
  header : Header
  proof : Merkle.Proof
  deriving DecidableEq

namespace FilteredBlock

/-- The filtered block over a list of transactions; the header takes the root of a list that is not
empty. -/
def ofTxids (header : Header) (txids : List Digest) (chosen : List Bool) : FilteredBlock where
  header := if txids.isEmpty then header else { header with merkleRoot := Merkle.root txids }
  proof := Merkle.Proof.ofLeaves txids chosen

def hash (b : FilteredBlock) : Digest := b.header.hash

def previous (b : FilteredBlock) : Digest := b.header.previous

/-- The transactions that the proof shows to belong to the block. -/
def provedTxids (b : FilteredBlock) : Except Merkle.ProofError (List Digest) :=
  b.proof.provedLeaves b.header.merkleRoot

end FilteredBlock
end LightClient
