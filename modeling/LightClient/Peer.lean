/-!
# Peers

A peer is known by the identity it announced. The same identity may be connected more than once.
-/
namespace LightClient

structure PeerId where
  number : Nat
  deriving DecidableEq

/-- Sixteen hexadecimal digits, filled up with zeros. -/
def PeerId.describe (id : PeerId) : String :=
  let digits := Nat.toDigits 16 id.number
  "peer-" ++ String.ofList (List.replicate (16 - digits.length) '0' ++ digits)

inductive PeerState where
  | init
  | handshake
  | established
  | inactive
  deriving DecidableEq

structure Peer where
  id : PeerId
  height : Nat
  state : PeerState
  /-- When the peer last delivered a message. -/
  lastActive : Nat
  deriving DecidableEq

def Peer.isEstablished (p : Peer) : Bool := p.state = .established

/-- A peer that we have met, with whether it is in the pool of connections now. -/
structure Contact where
  peer : Peer
  isConnected : Bool
  deriving DecidableEq

/-- Everyone we have met, in the order in which we met. -/
abbrev Contacts := List Contact

namespace Contacts

def connected (cs : Contacts) : List Peer := (cs.filter Contact.isConnected).map Contact.peer

/-- The last peer met under an identity. -/
def latest? (cs : Contacts) (id : PeerId) : Option Peer :=
  (cs.reverse.find? fun c => c.peer.id = id).map Contact.peer

def disconnect (cs : Contacts) (id : PeerId) : Contacts :=
  cs.map fun c => if c.peer.id = id then { c with isConnected := false } else c

def updateLatest (cs : Contacts) (id : PeerId) (f : Contact → Contact) : Contacts :=
  match cs with
  | [] => []
  | c :: rest =>
    if rest.any (fun c => c.peer.id = id) then c :: updateLatest rest id f
    else if c.peer.id = id then f c :: rest
    else c :: rest

end Contacts
end LightClient
