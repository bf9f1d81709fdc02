import LightClient.FilteredBlock
import LightClient.Table
import LightClient.Transaction
/-!
# The chain

The main chain runs from the genesis block to the tip. A batch of blocks is connected as a whole: it
may fork off below the tip, and then the blocks above the fork are rolled back first. A batch that
does not fit changes nothing.
-/
namespace LightClient

inductive ChainError where
  | insufficientWork (block : Digest)
  | unknownParent (block parent : Digest)
  | emptyBatch
  | closed
  | storage (reason : String)
  deriving DecidableEq

namespace ChainError

def alreadyStored (block : Digest) : ChainError :=
  .storage ("block " ++ block.toHex ++ " already stored")

def message : ChainError → String
  | .insufficientWork block => "Proof of work check failed for block " ++ block.toHex
  | .unknownParent block parent =>
    "Block " ++ block.toHex ++ " does not connect: unknown parent " ++ parent.toHex
  | .emptyBatch => "Block batch is empty"
  | .closed => "Chain store is closed"
  | .storage reason => "Storage error: " ++ reason

end ChainError

def Header.checkWork (h : Header) : Except ChainError Unit :=
  if h.meetsTarget then .ok () else .error (.insufficientWork h.hash)

/-- A filtered block with the proved transactions that were fetched for it. -/
structure ConfirmedBlock where
  block : FilteredBlock
  transactions : List Transaction
  deriving DecidableEq

/-- What the chain reports about itself, in the order in which it happened. -/
inductive ChainEvent where
  /-- A transaction was stored, with its height once it is in a block. -/
  | stored (tx : Transaction) (height : Option Nat)
  | connected (header : Header)
  | rolledBack (header : Header)
  deriving DecidableEq

structure Chain where
  headers : Table Digest Header
  /-- Hashes of the main chain, genesis first. -/
  main : List Digest
  /-- The transactions that came with each block. -/
  blockTxids : Table Digest (List Digest)
  confirmed : Table Digest Transaction
  unconfirmed : Table Digest Transaction
  watched : List Bytes
  isClosed : Bool

namespace Chain

def ofGenesis (genesis : Header) : Chain where
  headers := (∅ : Table Digest Header).insert genesis.hash { genesis with height := 0 }
  main := [genesis.hash]
  blockTxids := ∅
  confirmed := ∅
  unconfirmed := ∅
  watched := []
  isClosed := false

def watch (c : Chain) (address : Bytes) : Chain := { c with watched := c.watched.insert address }

def close (c : Chain) : Chain := { c with isClosed := true }

def knows (c : Chain) (hash : Digest) : Bool := c.headers.contains hash

def height (c : Chain) : Nat := c.main.length - 1

def hashAt? (c : Chain) (height : Nat) : Option Digest := c.main[height]?

def noTip : Header where
  version := 1
  previous := Digest.zero
  merkleRoot := Digest.zero
  timestamp := 0
  bits := 0
  nonce := 0
  height := 0

def tip (c : Chain) : Header := (c.main.getLast?.bind c.headers.get?).getD noTip

/-! ## Locator -/

/-- Number of blocks below the tip that a locator lists one by one. -/
def denseEntries : Nat := 10

/-- The heights that a locator lists from `height` down, ending with zero. Once ten are listed the
steps double. -/
def locatorHeights : (height step listed : Nat) → List Nat
  | 0, _, _ => [0]
  | height + 1, step, listed =>
    let step := if denseEntries ≤ listed + 1 then step * 2 else step
    (height + 1) :: locatorHeights (height - (step - 1)) step (listed + 1)
  termination_by height => height

/-- Hashes of the main chain from the tip to the genesis block, ever further apart, by which a peer
finds the last block that it shares with us. -/
def locator (c : Chain) : List Digest :=
  if c.main.isEmpty then [] else (locatorHeights c.height 1 0).filterMap c.hashAt?

/-! ## Unconfirmed transactions -/

/-- The transaction pays a watched address or spends a transaction that we hold. -/
def isRelevant (c : Chain) (tx : Transaction) : Bool :=
  tx.addresses.any (c.watched.contains ·)
    || tx.inputs.any fun i => c.unconfirmed.contains i.spends.txid || c.confirmed.contains i.spends.txid

/-- Keeps a relevant transaction as unconfirmed. Answers whether the filter let it through by
mistake. -/
def commitUnconfirmed (c : Chain) (tx : Transaction) :
    Except ChainError (Bool × Chain × List ChainEvent) :=
  if c.isClosed then .error .closed
  else if c.isRelevant tx then
    .ok (false, { c with unconfirmed := c.unconfirmed.insert tx.txid tx }, [.stored tx none])
  else .ok (true, c, [])

/-! ## Blocks -/

def firstGap? : List ConfirmedBlock → Option FilteredBlock
  | a :: b :: rest => if b.block.previous = a.block.hash then firstGap? (b :: rest) else some b.block
  | _ => none

/-- How many blocks of the main chain stay when a batch is connected to the given parent. -/
def keptBelow? (c : Chain) (parent : Digest) : Option Nat :=
  (c.main.reverse.idxOf? parent).map (c.main.length - ·)

/-- Takes one block that is no longer in the main chain out of the store. -/
def forget (c : Chain) (hash : Digest) : Chain × List ChainEvent :=
  let txids := (c.blockTxids.get? hash).getD []
  ({ c with
      headers := c.headers.erase hash
      blockTxids := c.blockTxids.erase hash
      confirmed := txids.foldl Table.erase c.confirmed },
    (c.headers.get? hash).toList.map .rolledBack)

/-- Cuts the main chain to its first `kept` blocks, from the tip down. -/
def rollBack (c : Chain) (kept : Nat) : Chain × List ChainEvent :=
  (c.main.drop kept).reverse.foldl
    (fun (c, events) hash => ((c.forget hash).1, events ++ (c.forget hash).2))
    ({ c with main := c.main.take kept }, [])

def connect (c : Chain) (b : ConfirmedBlock) : Chain × List ChainEvent :=
  let height := c.main.length
  let header := { b.block.header with height }
  let hash := header.hash
  ({ c with
      unconfirmed := b.transactions.foldl (fun t tx => t.erase tx.txid) c.unconfirmed
      confirmed := b.transactions.foldl (fun t tx => t.insert tx.txid tx) c.confirmed
      blockTxids := c.blockTxids.insert hash (b.transactions.map Transaction.txid)
      headers := c.headers.insert hash header
      main := c.main ++ [hash] },
    b.transactions.map (.stored · (some height)) ++ [.connected header])

def connectAll (c : Chain) (batch : List ConfirmedBlock) : Chain × List ChainEvent :=
  batch.foldl (fun (c, events) b => ((c.connect b).1, events ++ (c.connect b).2)) (c, [])

/-- Cuts the main chain to its first `kept` blocks and puts a batch on top of them. -/
def reorganise (c : Chain) (kept : Nat) (batch : List ConfirmedBlock) : Chain × List ChainEvent :=
  let (shorter, undone) := c.rollBack kept
  let (longer, done) := shorter.connectAll batch
  (longer, undone ++ done)

/-- Connects a batch of blocks, in order, to the block that the first one names as its parent. -/
def commit (c : Chain) (batch : List ConfirmedBlock) : Except ChainError (Chain × List ChainEvent) :=
  if c.isClosed then .error .closed
  else match batch with
  | [] => .error .emptyBatch
  | first :: _ =>
    match c.keptBelow? first.block.previous with
    | none => .error (.unknownParent first.block.hash first.block.previous)
    | some kept =>
      match firstGap? batch with
      | some b => .error (.unknownParent b.hash b.previous)
      | none =>
        match batch.find? fun b => c.knows b.block.hash with
        | some b => .error (.alreadyStored b.block.hash)
        | none => .ok (c.reorganise kept batch)

/-! ## Histories -/

/-- What a chain can become from its genesis block on, as long as no batch names a block twice. -/
inductive Reachable : Chain → Prop where
  | genesis (header : Header) : Reachable (.ofGenesis header)
  | commit {c c' : Chain} {batch : List ConfirmedBlock} {events : List ChainEvent} :
      Reachable c → (batch.map fun b => b.block.hash).Nodup → c.commit batch = .ok (c', events) → Reachable c'
  | unconfirmed {c c' : Chain} {tx : Transaction} {spurious : Bool} {events : List ChainEvent} :
      Reachable c → c.commitUnconfirmed tx = .ok (spurious, c', events) → Reachable c'
  | watch {c : Chain} (address : Bytes) : Reachable c → Reachable (c.watch address)
  | close {c : Chain} : Reachable c → Reachable c.close

end Chain

/-! ## The store -/

/-- A chain on a disk that may refuse to write, with the events that nobody has heard of yet. -/
structure Store where
  chain : Chain
  outages : Nat
  events : List ChainEvent

namespace Store

def ofChain (chain : Chain) : Store := ⟨chain, 0, []⟩

def commit (s : Store) (batch : List ConfirmedBlock) : Store × Except ChainError Unit :=
  match s.outages with
  | n + 1 => ({ s with outages := n }, .error (.storage "disk full"))
  | 0 =>
    match s.chain.commit batch with
    | .ok (chain, events) => ({ s with chain, events := s.events ++ events }, .ok ())
    | .error e => (s, .error e)

def commitUnconfirmed (s : Store) (tx : Transaction) : Store × Except ChainError Bool :=
  match s.chain.commitUnconfirmed tx with
  | .ok (spurious, chain, events) => ({ s with chain, events := s.events ++ events }, .ok spurious)
  | .error e => (s, .error e)

end Store
end LightClient
