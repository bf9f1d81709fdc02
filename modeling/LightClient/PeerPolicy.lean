import LightClient.Peer
import LightClient.Table
/-!
# Choosing the peer to catch up with

The best peer is the one with the greatest height, and of several such the one with the lowest
identity. A peer that was at fault lately is chosen only when there is no other.
-/
namespace LightClient

structure PeerPolicy where
  cooldown : Nat
  /-- When each peer was last at fault. -/
  faults : Table PeerId Nat

namespace PeerPolicy

def ofCooldown (cooldown : Nat) : PeerPolicy := ⟨cooldown, ∅⟩

def recordFault (p : PeerPolicy) (id : PeerId) (now : Nat) : PeerPolicy :=
  { p with faults := p.faults.insert id now }

def isCoolingDown (p : PeerPolicy) (id : PeerId) (now : Nat) : Bool :=
  (p.faults.get? id).any fun since => now - since < p.cooldown

def prune (p : PeerPolicy) (now : Nat) : PeerPolicy :=
  { p with faults := p.faults.filter fun _ since => now - since < p.cooldown }

/-- The peer ranks above another one: it is higher, or as high with a lower identity. -/
def outranks (a b : Peer) : Bool :=
  b.height < a.height || (a.height = b.height && a.id.number < b.id.number)

def best? : List Peer → Option Peer
  | [] => none
  | p :: rest =>
    match best? rest with
    | none => some p
    | some q => some (if outranks p q then p else q)

/-- Peers that could serve us: established, above our height, and not the excluded one. -/
def candidates (peers : List Peer) (localHeight : Nat) (exclude : Option PeerId) : List Peer :=
  peers.filter fun p => p.isEstablished && localHeight < p.height && some p.id ≠ exclude

/-- The peer to catch up with. The preferred one wins if it is a candidate in good standing. -/
def select (p : PeerPolicy) (peers : List Peer) (localHeight : Nat) (exclude prefer : Option PeerId)
    (now : Nat) : Option PeerId :=
  let all := candidates peers localHeight exclude
  let good := all.filter fun c => !p.isCoolingDown c.id now
  match prefer.filter fun id => good.any (·.id = id) with
  | some id => some id
  | none => ((best? good).or (best? all)).map Peer.id

end PeerPolicy
end LightClient
