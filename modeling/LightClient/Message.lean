import LightClient.Fault
/-!
# Messages

The messages exchanged with peers and the commands that name them on the wire. How a message is laid
out in bytes is left to the transport.
-/
namespace LightClient

inductive ItemKind where
  | tx
  | block
  | filteredBlock
  deriving DecidableEq

structure InventoryItem where
  kind : ItemKind
  hash : Digest
  deriving DecidableEq

namespace InventoryItem

def tx (hash : Digest) : InventoryItem := ⟨.tx, hash⟩

def filteredBlock (hash : Digest) : InventoryItem := ⟨.filteredBlock, hash⟩

def isBlock (i : InventoryItem) : Bool := i.kind ≠ .tx

end InventoryItem

structure Version where
  version : UInt32
  services : UInt64
  timestamp : UInt64
  port : UInt16
  nonce : UInt64
  height : Nat
  relay : Bool
  deriving DecidableEq

structure FilterLoad where
  filter : Bytes
  bitCount : Nat
  hashCount : Nat
  tweak : UInt32
  deriving DecidableEq

inductive Message where
  | version (v : Version)
  | verAck
  | ping (height : Nat)
  | pong (height : Nat)
  | inventory (items : List InventoryItem)
  | getBlocks (locator : List Digest) (stop : Digest)
  | getData (items : List InventoryItem)
  | notFound (items : List InventoryItem)
  | filteredBlock (block : FilteredBlock)
  | tx (tx : Transaction)
  | filterLoad (load : FilterLoad)
  deriving DecidableEq

def Message.command : Message → String
  | .version _ => "version"
  | .verAck => "verack"
  | .ping _ => "ping"
  | .pong _ => "pong"
  | .inventory _ => "inv"
  | .getBlocks _ _ => "getblocks"
  | .getData _ => "getdata"
  | .notFound _ => "notfound"
  | .filteredBlock _ => "merkleblock"
  | .tx _ => "tx"
  | .filterLoad _ => "filterload"

/-- The kinds of message that a peer may send us once the handshake is over. -/
inductive MessageKind where
  | ping
  | pong
  | inventory
  | tx
  | filteredBlock
  | notFound
  deriving DecidableEq

namespace MessageKind

def all : List MessageKind := [.ping, .pong, .inventory, .tx, .filteredBlock, .notFound]

def command : MessageKind → String
  | .ping => "ping"
  | .pong => "pong"
  | .inventory => "inv"
  | .tx => "tx"
  | .filteredBlock => "merkleblock"
  | .notFound => "notfound"

def ofCommand (command : String) : Except Fault MessageKind :=
  match all.find? fun k => k.command = command with
  | some kind => .ok kind
  | none => .error (.unsupportedMessage command)

end MessageKind

def Message.kind (m : Message) : Except Fault MessageKind := MessageKind.ofCommand m.command

inductive Command where
  | send (peer : PeerId) (message : Message)
  | broadcast (message : Message)
  | disconnect (peer : PeerId)
  /-- The peer that catching up is bound to from now on, if any. -/
  | bind (peer : Option PeerId)
  | announce (height : Nat)
  deriving DecidableEq

end LightClient
