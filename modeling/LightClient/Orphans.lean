import LightClient.FilteredBlock
import LightClient.Peer
import LightClient.Table
import LightClient.Transaction
/-!
# Orphans

Blocks and transactions that arrived before they could be used. The pool is bounded twice: the oldest
entry makes room for a new one, and entries that have waited too long are dropped.
-/
namespace LightClient

inductive OrphanItem where
  | block (block : FilteredBlock)
  | tx (tx : Transaction)
  deriving DecidableEq

namespace OrphanItem

def isBlock : OrphanItem → Bool
  | .block _ => true
  | .tx _ => false

def previous? : OrphanItem → Option Digest
  | .block b => some b.previous
  | .tx _ => none

end OrphanItem

structure Orphan where
  item : OrphanItem
  peer : PeerId
  received : Nat
  deriving DecidableEq

structure Orphans where
  entries : Table Digest Orphan
  /-- The hashes in the pool, the one that has waited longest first. -/
  queue : List Digest
  capacity : Nat
  lifetime : Nat

namespace Orphans

/-- An empty pool, with room for one entry at least. -/
def ofCapacity (n lifetime : Nat) : Orphans := ⟨∅, [], max n 1, lifetime⟩

def size (o : Orphans) : Nat := o.entries.size

def get? (o : Orphans) (hash : Digest) : Option Orphan := o.entries.get? hash

def contains (o : Orphans) (hash : Digest) : Bool := o.entries.contains hash

/-- The entries, oldest first. -/
def toList (o : Orphans) : List (Digest × Orphan) :=
  o.queue.filterMap fun hash => (o.entries.get? hash).map (hash, ·)

def erase (o : Orphans) (hash : Digest) : Orphans :=
  if o.contains hash then
    { o with entries := o.entries.erase hash, queue := o.queue.filter (· ≠ hash) }
  else o

/-- Drops the oldest entries until there is room for one more. -/
def makeRoom (o : Orphans) : List Digest → Orphans
  | [] => { o with queue := [] }
  | oldest :: queue =>
    if o.capacity ≤ o.size then { o with entries := o.entries.erase oldest }.makeRoom queue
    else { o with queue := oldest :: queue }

/-- Puts an item at the young end of the pool, in place of an entry of the same hash. -/
def insert (o : Orphans) (hash : Digest) (item : OrphanItem) (peer : PeerId) (now : Nat) : Orphans :=
  let o := o.erase hash
  let o := o.makeRoom o.queue
  { o with entries := o.entries.insert hash ⟨item, peer, now⟩, queue := o.queue ++ [hash] }

def retain (o : Orphans) (keep : Digest → Orphan → Bool) : Orphans :=
  let entries := o.entries.filter keep
  { o with entries, queue := o.queue.filter entries.contains }

def expire (o : Orphans) (now : Nat) : Orphans :=
  o.retain fun _ e => now - e.received < o.lifetime

end Orphans
end LightClient
