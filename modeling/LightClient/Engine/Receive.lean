import LightClient.Engine.Round
/-!
# Receiving blocks, transactions and offers

What one delivered item does to the engine, before the items that were waiting for it get their turn.
-/
namespace LightClient
namespace Engine

def addOrphan (env : Outlook) (e : Engine) (hash : Digest) (item : OrphanItem) (peer : PeerId) :
    Engine :=
  { e with orphans := e.orphans.insert hash item peer env.now }

/-- A peer other than the one the round is bound to delivered what was asked of that one. -/
def rejectNonSyncPeer (env : Outlook) (e : Engine) (peer bound : PeerId) :
    Engine × Except Fault Unit :=
  (e.restartWithout env peer, .error (.nonSyncPeer peer (some bound)))

/-! ## Blocks -/

/-- Holds back a block whose parent is neither known nor here. If nobody asked for the parent, the
range before the block is asked for again. -/
def holdBack (e : Engine) (bound : PeerId) (block : FilteredBlock) : Engine :=
  let parentAwaited := e.isAwaitedBlock block.previous
  let e := { e with round := e.round.map (Round.holdBack · block) }
  if parentAwaited then e else e.requestMissingRange bound

/-- Records a block in a round, which becomes the current one, and asks its sender for the proved
transactions. -/
def recordBlock (env : Outlook) (e : Engine) (round : Round) (peer : PeerId) (block : FilteredBlock)
    (txids : List Digest) : Engine :=
  let (round, wanted) := round.receiveBlock env.now block txids
  let e := { e with round := some round }
  if wanted.isEmpty then e else e.send peer (.getData (wanted.map InventoryItem.tx))

def acceptBlock (env : Outlook) (e : Engine) (peer : PeerId) (block : FilteredBlock)
    (txids : List Digest) : Engine × Except Fault Unit :=
  match e.round with
  | none => (e, .ok ())
  | some round => (e.recordBlock env round peer block txids).finishIfComplete env

/-- Where a valid block goes while a bulk round is bound to a peer. -/
def placeInBulk (env : Outlook) (e : Engine) (bound peer : PeerId) (block : FilteredBlock)
    (txids : List Digest) : Engine × Except Fault Unit :=
  let hash := block.hash
  if !e.isAwaitedBlock hash then (e.addOrphan env hash (.block block) peer, .ok ())
  else if peer ≠ bound then e.rejectNonSyncPeer env peer bound
  else if !e.chain.knows block.previous && !e.hasBlock block.previous then
    (e.holdBack bound block, .ok ())
  else e.acceptBlock env peer block txids

/-- Where a valid block goes while no bulk round is on. A block on top of the tip begins a tip
round. -/
def placeAtTip (env : Outlook) (e : Engine) (peer : PeerId) (block : FilteredBlock)
    (txids : List Digest) : Engine × Except Fault Unit :=
  let hash := block.hash
  match e.round with
  | some round =>
    if round.requests.isTracked hash then (e, .ok ())
    else (e.addOrphan env hash (.block block) peer, .ok ())
  | none =>
    let tip := e.chain.tip.hash
    if tip = hash then (e, .ok ())
    else if block.previous ≠ tip then (e.addOrphan env hash (.block block) peer, .ok ())
    else { e with round := some (.tip hash peer env.now) }.acceptBlock env peer block txids

def processBlock (env : Outlook) (e : Engine) (peer : PeerId) (block : FilteredBlock) :
    Engine × Except Fault Unit :=
  let hash := block.hash
  if e.chain.knows hash then (e, .error (.duplicateBlock hash))
  else
    match block.header.checkWork, block.provedTxids with
    | .error cause, _ => (e, .error (.invalidHeader hash cause))
    | _, .error cause => (e, .error (.invalidProof hash cause))
    | .ok (), .ok txids =>
      match e.syncPeer with
      | some bound => e.placeInBulk env bound peer block txids
      | none => e.placeAtTip env peer block txids

/-! ## Transactions -/

/-- Counts a transaction that the filter let through by mistake, and gives the peers a new filter when
there were too many. -/
def countFalsePositive (env : Outlook) (e : Engine) : Engine :=
  match e.falsePositives.record env.now with
  | (falsePositives, false) => { e with falsePositives }
  | (falsePositives, true) =>
    let filter := e.filter.reload
    { e with falsePositives, filter }.command (.broadcast filter.loadMessage)

def offerUnconfirmed (env : Outlook) (e : Engine) (tx : Transaction) : Engine × Except Fault Unit :=
  match e.store.commitUnconfirmed tx with
  | (store, .error cause) => ({ e with store }, .error (.chain cause))
  | (store, .ok spurious) =>
    let e := { e with store }
    let e := if spurious then e.countFalsePositive env else e
    ({ e with
        txCache := e.txCache.insert tx.txid
        verdicts := e.verdicts.insert tx.txid spurious }, .ok ())

def acceptTx (env : Outlook) (e : Engine) (tx : Transaction) : Engine × Except Fault Unit :=
  { e with round := e.round.map (Round.receiveTx · env.now tx) }.finishIfComplete env

def processTx (env : Outlook) (e : Engine) (peer : PeerId) (tx : Transaction) :
    Engine × Except Fault Unit :=
  let txid := tx.txid
  let awaited := e.isAwaitedTx txid
  match e.syncPeer with
  | some bound =>
    if !awaited then (e.addOrphan env txid (.tx tx) peer, .ok ())
    else if peer ≠ bound then e.rejectNonSyncPeer env peer bound
    else e.acceptTx env tx
  | none =>
    if e.txCache.contains txid then
      if awaited then e.acceptTx env tx else (e, .error (.alreadyCached txid))
    else
      match e.offerUnconfirmed env tx with
      | (e, .error fault) => (e, .error fault)
      | (e, .ok ()) => if awaited then e.acceptTx env tx else (e, .ok ())

/-! ## Offers -/

/-- Blocks offered by the peer that a bulk round is bound to. The first offer answers our request;
if it has nothing new, we are done. Later offers extend the round. -/
def extendRound (env : Outlook) (e : Engine) (bound : PeerId) (round : Round)
    (unknown : List Digest) : Engine :=
  if unknown.isEmpty && round.requests.isEmpty then { e with round := none }.command (.bind none)
  else
    let (requests, fresh) := round.requests.track unknown
    if fresh.isEmpty then e
    else
      let round :=
        { round with
          requests
          start := round.start.or fresh.head?
          stop := fresh.getLast?
          lastProgress := env.now }
      { e with round := some round }.send bound (.getData (fresh.map InventoryItem.filteredBlock))

/-- Asks for blocks offered outside a bulk round, but for those that we hold or await. -/
def fetchOffered (e : Engine) (peer : PeerId) (unknown : List Digest) : Engine :=
  let wanted := unknown.filter fun hash =>
    !e.orphans.contains hash && !e.round.any (·.requests.isTracked hash)
  if wanted.isEmpty then e else e.send peer (.getData (wanted.map InventoryItem.filteredBlock))

def processOffer (env : Outlook) (e : Engine) (peer : PeerId) (hashes : List Digest) : Engine :=
  let unknown := hashes.filter (!e.chain.knows ·)
  match e.round with
  | none => e.fetchOffered peer unknown
  | some round =>
    match round.syncPeer with
    | none => e.fetchOffered peer unknown
    | some bound => if peer = bound then e.extendRound env bound round unknown else e

end Engine
end LightClient
