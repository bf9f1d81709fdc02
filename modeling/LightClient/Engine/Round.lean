import LightClient.AddressFilter
import LightClient.FalsePositives
import LightClient.Orphans
import LightClient.PeerPolicy
import LightClient.Recent
import LightClient.Requests
import LightClient.Settings
/-!
# Rounds

The engine works in rounds. A bulk round catches up with one peer, to which it is bound; a tip round
fetches the transactions of one new block while nothing else goes on. Here are the engine's state and
how rounds begin and end.
-/
namespace LightClient

inductive RoundMode where
  | bulk (peer : PeerId)
  | tip (peer : PeerId)
  deriving DecidableEq

structure Round where
  /-- The first and last block of the latest request, for reports. -/
  start : Option Digest
  stop : Option Digest
  locator : List Digest
  mode : RoundMode
  requests : Requests
  started : Nat
  /-- When the round last asked for or received something new. -/
  lastProgress : Nat

namespace Round

def bulk (peer : PeerId) (locator : List Digest) (now : Nat) : Round where
  start := none
  stop := none
  locator := locator
  mode := .bulk peer
  requests := .empty
  started := now
  lastProgress := now

def tip (hash : Digest) (peer : PeerId) (now : Nat) : Round where
  start := some hash
  stop := some hash
  locator := []
  mode := .tip peer
  requests := .ofHashes [hash]
  started := now
  lastProgress := now

def withLocator (r : Round) (locator : List Digest) : Round := { r with locator }

def holdBack (r : Round) (block : FilteredBlock) : Round :=
  { r with requests := r.requests.holdBack block }

/-- Records a block with the transactions that its proof names. Answers those that have to be
fetched. -/
def receiveBlock (r : Round) (now : Nat) (block : FilteredBlock) (txids : List Digest) :
    Round × List Digest :=
  let (requests, wanted) := r.requests.receiveBlock block txids
  ({ r with requests, lastProgress := now }, wanted)

/-- Records a transaction; one that was awaited is progress. -/
def receiveTx (r : Round) (now : Nat) (tx : Transaction) : Round :=
  match r.requests.receiveTx tx with
  | (requests, true) => { r with requests, lastProgress := now }
  | (_, false) => r

def syncPeer (r : Round) : Option PeerId :=
  match r.mode with
  | .bulk peer => some peer
  | .tip _ => none

end Round

/-- What the engine sees of the outside: the time and the connected peers. -/
structure Outlook where
  now : Nat
  peers : List Peer

/-- A finished round as it was handed to the chain, and what the chain said. -/
structure Attempt where
  round : Round
  result : Except ChainError Unit

structure Engine where
  store : Store
  filter : AddressFilter
  round : Option Round
  orphans : Orphans
  txCache : Recent Digest
  falsePositives : FalsePositives
  policy : PeerPolicy
  /-- A round without progress for longer than this is given up. -/
  patience : Nat
  commands : List Command
  /-- Every round that was handed to the chain so far, in order. A record only: no decision looks
  at it. -/
  attempts : List Attempt
  /-- What the chain last said of each transaction that it was handed: whether the filter had let it
  through by mistake. A record only, like the attempts. -/
  verdicts : Table Digest Bool

namespace Engine

/-- An engine without a round; none if the settings ask for too long a patience. -/
def ofSettings? (s : SyncSettings) (store : Store) (filter : AddressFilter) : Option Engine :=
  s.keepAlive?.map fun patience =>
    { store, filter
      round := none
      orphans := .ofCapacity s.maxOrphans.toNat s.orphanLifetime
      txCache := .ofCapacity s.txCacheSize.toNat
      falsePositives := .ofThreshold s.falsePositiveThreshold.toNat s.falsePositiveWindow
      policy := .ofCooldown s.faultCooldown
      patience
      commands := []
      attempts := []
      verdicts := ∅ }

def chain (e : Engine) : Chain := e.store.chain

def syncPeer (e : Engine) : Option PeerId := e.round.bind Round.syncPeer

def isSyncing (e : Engine) : Bool := e.syncPeer.isSome

def command (e : Engine) (c : Command) : Engine := { e with commands := e.commands ++ [c] }

def send (e : Engine) (peer : PeerId) (message : Message) : Engine := e.command (.send peer message)

def isAwaitedBlock (e : Engine) (hash : Digest) : Bool := e.round.any (·.requests.isAwaitedBlock hash)

def isAwaitedTx (e : Engine) (txid : Digest) : Bool := e.round.any (·.requests.isAwaitedTx txid)

def hasBlock (e : Engine) (hash : Digest) : Bool := e.round.any (·.requests.hasBlock hash)

/-! ## Beginning -/

def askForBlocks (e : Engine) (peer : PeerId) (locator : List Digest) : Engine :=
  e.send peer (.getBlocks locator Digest.zero)

def beginRound (env : Outlook) (e : Engine) (peer : PeerId) : Engine :=
  let locator := e.chain.locator
  { e with round := some (.bulk peer locator env.now) }.command (.bind (some peer))
    |>.askForBlocks peer locator

/-- Begins a bulk round if there is no round and some peer is ahead of us. Answers whether it did. -/
def startSync (env : Outlook) (e : Engine) (prefer : Option PeerId) : Engine × Bool :=
  if e.round.isSome then (e, false)
  else
    match e.policy.select env.peers e.chain.height none prefer env.now with
    | some peer => (e.beginRound env peer, true)
    | none => (e, false)

def requestMissingRange (e : Engine) (peer : PeerId) : Engine :=
  let locator := e.chain.locator
  { e with round := e.round.map (Round.withLocator · locator) }.askForBlocks peer locator

/-! ## Ending -/

/-- Drops the offender, gives up the round and begins another one with a different peer. The peer
that the round was bound to counts as being at fault, too. -/
def restartWithout (env : Outlook) (e : Engine) (offender : PeerId) : Engine :=
  let policy := e.policy.recordFault offender env.now
  let policy :=
    match e.syncPeer.filter (· ≠ offender) with
    | some bound => policy.recordFault bound env.now
    | none => policy
  let e := { e with policy, round := none }.command (.disconnect offender) |>.command (.bind none)
  match policy.select env.peers e.chain.height (some offender) none env.now with
  | some peer => e.beginRound env peer
  | none => e

def attempt (e : Engine) (round : Round) (store : Store) (result : Except ChainError Unit) : Engine :=
  { e with store, attempts := e.attempts ++ [⟨round, result⟩] }

/-- Lays aside a round that the chain took and remembers its transactions. -/
def closeRound (e : Engine) (round : Round) : Engine :=
  let txids := round.requests.batch.flatMap fun b => b.transactions.map Transaction.txid
  { e with
      round := none
      txCache := txids.foldl Recent.insert e.txCache
      verdicts := txids.foldl (fun t txid => t.insert txid false) e.verdicts }.command
    (.announce e.chain.height)

/-- Hands a finished round to the chain and goes on with the next one. A round that the chain refuses
is kept, to be tried again. -/
def finishIfComplete (env : Outlook) (e : Engine) : Engine × Except Fault Unit :=
  match e.round.filter (·.requests.isFinished) with
  | none => (e, .ok ())
  | some round =>
    match e.store.commit round.requests.batch with
    | (store, .error cause) => (e.attempt round store (.error cause), .error (.commitFailed cause))
    | (store, .ok ()) =>
      let (e, started) := ((e.attempt round store (.ok ())).closeRound round).startSync env round.syncPeer
      (if !started && round.syncPeer.isSome then e.command (.bind none) else e, .ok ())

end Engine
end LightClient
