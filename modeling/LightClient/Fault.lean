import LightClient.Chain
import LightClient.Peer
/-!
# Faults

What can be wrong with a message from a peer or with the work it causes, and how serious it is.
-/
namespace LightClient

inductive Severity where
  /-- The peer broke the protocol and loses its connection. -/
  | protocol
  | validation
  /-- The data was there already; nothing changed. -/
  | duplicate
  /-- Our own chain store failed. -/
  | internal
  deriving DecidableEq

inductive Fault where
  | unsupportedMessage (command : String)
  | incompatiblePeer (reason : String)
  | duplicateBlock (hash : Digest)
  | invalidHeader (hash : Digest) (cause : ChainError)
  | invalidProof (hash : Digest) (cause : Merkle.ProofError)
  | alreadyCached (txid : Digest)
  | nonSyncPeer (peer : PeerId) (expected : Option PeerId)
  | notFound (peer : PeerId) (count : Nat)
  | commitFailed (cause : ChainError)
  | chain (cause : ChainError)
  deriving DecidableEq

namespace Fault

def severity : Fault → Severity
  | .unsupportedMessage _ | .incompatiblePeer _ | .nonSyncPeer _ _ | .notFound _ _ => .protocol
  | .duplicateBlock _ | .invalidHeader _ _ | .invalidProof _ _ => .validation
  | .alreadyCached _ => .duplicate
  | .commitFailed _ | .chain _ => .internal

def shouldDisconnect (f : Fault) : Bool := f.severity = .protocol

def message : Fault → String
  | .unsupportedMessage command => "Received unsupported message, CMD " ++ command
  | .incompatiblePeer reason => "Incompatible peer: " ++ reason
  | .duplicateBlock hash => "Received block that is already known: " ++ hash.toHex
  | .invalidHeader hash cause => "Invalid header in block " ++ hash.toHex ++ ": " ++ cause.message
  | .invalidProof hash cause =>
    "Invalid merkle proof in block " ++ hash.toHex ++ ": " ++ cause.message
  | .alreadyCached txid => "Received transaction that is already cached: " ++ txid.toHex
  | .nonSyncPeer peer _ =>
    "Received message from non sync peer " ++ peer.describe ++ ", disconnecting"
  | .notFound peer count =>
    "Peer " ++ peer.describe ++ " does not have " ++ toString count ++ " requested item(s)"
  | .commitFailed cause => "Failed to commit sync round: " ++ cause.message
  | .chain cause => "Chain store error: " ++ cause.message

end Fault
end LightClient
