import LightClient.Chain
/-!
# Requests of a round

A round asks for blocks, and each block that arrives makes it ask for the transactions that its proof
names. The round is finished once everything it asked for has arrived.

A block may arrive before its parent. It is then held back, still awaited, until the parent is
there.
-/
namespace LightClient

/-- A block that arrived, with the transactions that its proof names. -/
structure Arrival where
  block : FilteredBlock
  txids : List Digest
  deriving DecidableEq

structure Requests where
  /-- The blocks asked for, in that order. -/
  requested : List Digest
  awaitedBlocks : List Digest
  awaitedTxids : List Digest
  blocks : Table Digest Arrival
  transactions : Table Digest Transaction
  /-- Awaited blocks that are here but whose parent is not. -/
  heldBack : Table Digest FilteredBlock

namespace Requests

def empty : Requests := ⟨[], [], [], ∅, ∅, ∅⟩

def isAwaitedBlock (r : Requests) (hash : Digest) : Bool := hash ∈ r.awaitedBlocks

def isAwaitedTx (r : Requests) (txid : Digest) : Bool := txid ∈ r.awaitedTxids

def isAwaited (r : Requests) (hash : Digest) : Bool := r.isAwaitedBlock hash || r.isAwaitedTx hash

def hasBlock (r : Requests) (hash : Digest) : Bool := r.blocks.contains hash

/-- The block was asked for, whether it has arrived or not. -/
def isTracked (r : Requests) (hash : Digest) : Bool := r.isAwaitedBlock hash || r.hasBlock hash

def isHeldBack (r : Requests) (hash : Digest) : Bool := r.heldBack.contains hash

def isEmpty (r : Requests) : Bool := r.requested.isEmpty

def awaitedCount (r : Requests) : Nat := r.awaitedBlocks.length + r.awaitedTxids.length

def isFinished (r : Requests) : Bool :=
  !r.isEmpty && r.awaitedBlocks.isEmpty && r.awaitedTxids.isEmpty

def trackOne (r : Requests) (hash : Digest) : Requests :=
  { r with requested := r.requested ++ [hash], awaitedBlocks := r.awaitedBlocks ++ [hash] }

/-- Asks for more blocks. Answers those that were not asked for before. -/
def track (r : Requests) : List Digest → Requests × List Digest
  | [] => (r, [])
  | hash :: hashes =>
    if r.isTracked hash then r.track hashes
    else
      let (r, added) := (r.trackOne hash).track hashes
      (r, hash :: added)

def ofHashes (hashes : List Digest) : Requests := (empty.track hashes).1

def holdBack (r : Requests) (block : FilteredBlock) : Requests :=
  let hash := block.hash
  if r.isAwaitedBlock hash then { r with heldBack := r.heldBack.insert hash block } else r

/-- The parent of a block is here, or known by other means. -/
def isReady (r : Requests) (knows : Digest → Bool) (block : FilteredBlock) : Bool :=
  r.hasBlock block.previous || knows block.previous

/-- Lets go of the block that has been held back longest among those whose parent is here. -/
def releaseReady? (r : Requests) (knows : Digest → Bool) : Option (FilteredBlock × Requests) :=
  (r.heldBack.entries.find? fun e => r.isReady knows e.2).map fun e =>
    (e.2, { r with heldBack := r.heldBack.erase e.1 })

/-- Awaits those of the transactions that are neither here nor awaited. Answers them in order. -/
def awaitTxs (r : Requests) : List Digest → Requests × List Digest
  | [] => (r, [])
  | txid :: txids =>
    if r.transactions.contains txid || r.isAwaitedTx txid then r.awaitTxs txids
    else
      let (r, wanted) := { r with awaitedTxids := r.awaitedTxids ++ [txid] }.awaitTxs txids
      (r, txid :: wanted)

/-- Records an awaited block with the transactions that its proof names. Answers those that have to
be fetched. -/
def receiveBlock (r : Requests) (block : FilteredBlock) (txids : List Digest) :
    Requests × List Digest :=
  let hash := block.hash
  if r.isAwaitedBlock hash then
    let (r, wanted) := r.awaitTxs txids
    ({ r with
        awaitedBlocks := r.awaitedBlocks.erase hash
        heldBack := r.heldBack.erase hash
        blocks := r.blocks.insert hash ⟨block, txids⟩ }, wanted)
  else (r, [])

def receiveTx (r : Requests) (tx : Transaction) : Requests × Bool :=
  let txid := tx.txid
  if r.isAwaitedTx txid then
    ({ r with
        awaitedTxids := r.awaitedTxids.erase txid
        transactions := r.transactions.insert txid tx }, true)
  else (r, false)

/-! ## The finished round -/

def arrivals (r : Requests) : List (Digest × Arrival) :=
  r.requested.filterMap fun hash => (r.blocks.get? hash).map (hash, ·)

/-- Those of some arrived blocks that name `parent` as their parent. -/
def childrenAmong (arrived : List (Digest × Arrival)) (parent : Digest) : List (Digest × Arrival) :=
  arrived.filter fun a => a.2.block.previous = parent

/-- A block and everything that builds on it, at most `depth` generations in all, each block before
those that build on it. -/
def familyAmong (arrived : List (Digest × Arrival)) :
    (depth : Nat) → Digest × Arrival → List (Digest × Arrival)
  | 0, _ => []
  | depth + 1, a => a :: (childrenAmong arrived a.1).flatMap (familyAmong arrived depth)

/-- The arrived blocks, parents before children, otherwise in the order in which they were asked
for. -/
def ordered (r : Requests) : List (Digest × Arrival) :=
  let arrived := r.arrivals
  (arrived.filter fun a => !r.hasBlock a.2.block.previous).flatMap
    (familyAmong arrived arrived.length)

def batch (r : Requests) : List ConfirmedBlock :=
  r.ordered.map fun a => ⟨a.2.block, a.2.txids.filterMap r.transactions.get?⟩

end Requests
end LightClient
