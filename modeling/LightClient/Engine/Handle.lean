import LightClient.Engine.Resolve
/-!
# The engine's calls

One function for each kind of message and one for the regular upkeep. Each leaves its outside effects
in `commands`.
-/
namespace LightClient

structure SyncStatus where
  syncing : Bool
  syncPeer : Option PeerId
  start : Option Digest
  stop : Option Digest
  awaited : Nat
  orphans : Nat
  height : Nat
  deriving DecidableEq

namespace Engine

def status (e : Engine) : SyncStatus where
  syncing := e.isSyncing
  syncPeer := e.syncPeer
  start := e.round.bind Round.start
  stop := e.round.bind Round.stop
  awaited := (e.round.map (·.requests.awaitedCount)).getD 0
  orphans := e.orphans.size
  height := e.chain.height

def takeCommands (e : Engine) : List Command × Engine := (e.commands, { e with commands := [] })

def receiveBlock (env : Outlook) (e : Engine) (peer : PeerId) (block : FilteredBlock) :
    Engine × Except Fault Unit :=
  let (e, result) := e.processBlock env peer block
  (e.resolveOrphans env, result)

def receiveTx (env : Outlook) (e : Engine) (peer : PeerId) (tx : Transaction) :
    Engine × Except Fault Unit :=
  let (e, result) := e.processTx env peer tx
  (e.resolveOrphans env, result)

/-- The blocks of an offer; the transactions in it are ignored. -/
def receiveInventory (env : Outlook) (e : Engine) (peer : PeerId) (items : List InventoryItem) :
    Engine × Except Fault Unit :=
  let hashes := (items.filter InventoryItem.isBlock).map InventoryItem.hash
  if hashes.isEmpty then (e, .ok ())
  else ((e.processOffer env peer hashes).resolveOrphans env, .ok ())

/-- A peer lacks what we asked for: it is dropped, and the round begins again elsewhere. -/
def receiveNotFound (env : Outlook) (e : Engine) (peer : PeerId) (items : List InventoryItem) :
    Engine × Except Fault Unit :=
  ((e.restartWithout env peer).resolveOrphans env, .error (.notFound peer items.length))

/-! ## Upkeep -/

/-- An unfinished round has made no progress for too long. -/
def isStalled (e : Engine) (now : Nat) (round : Round) : Bool :=
  !round.requests.isFinished && e.patience < now - round.lastProgress

def isReachable (env : Outlook) (peer : PeerId) : Bool :=
  env.peers.any fun p => p.id = peer && p.isEstablished

/-- Gives up a round whose peer is gone or that is stalled. -/
def checkRound (env : Outlook) (e : Engine) (now : Nat) : Engine :=
  match e.round with
  | none => e
  | some round =>
    match round.mode with
    | .bulk peer =>
      if !isReachable env peer || e.isStalled now round then e.restartWithout env peer else e
    | .tip _ => if e.isStalled now round then { e with round := none } else e

/-- Regular upkeep: tries a refused round again, gives up a round that leads nowhere, drops what has
expired and begins to catch up if some peer is ahead. Stalls and the ends of cooldowns are judged at
the time `now`. -/
def upkeepAt (env : Outlook) (e : Engine) (now : Nat) : Engine × Except Fault Unit :=
  let (e, result) := e.finishIfComplete env
  let e := e.checkRound env now
  let e := { e with orphans := e.orphans.expire env.now, policy := e.policy.prune now }
  ((e.startSync env none).1.resolveOrphans env, result)

def upkeep (env : Outlook) (e : Engine) : Engine × Except Fault Unit := e.upkeepAt env env.now

end Engine
end LightClient
