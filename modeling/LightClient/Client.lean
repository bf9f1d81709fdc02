import LightClient.Engine.Handle
import LightClient.Handshake
import LightClient.Transport
/-!
# The client

The client owns the engine and the connections. It hands each message to the engine, carries out the
commands that come back, and keeps the connections alive in regular passes.

Everything that reaches the outside is recorded in `effects`, in order.
-/
namespace LightClient

inductive Effect where
  | network (command : Command)
  | connect
  | start
  | chain (event : ChainEvent)
  deriving DecidableEq

inductive SetupError where
  | settings (cause : SettingsError)
  /-- The span after which a silent peer is dropped cannot be represented. -/
  | keepAliveTooLong
  deriving DecidableEq

structure Client where
  settings : Settings
  engine : Engine
  contacts : Contacts
  /-- The time left until the next liveness pass, while they run. -/
  untilPass : Option Nat
  effects : List Effect

namespace Client

def setUp (settings : Settings) (store : Store) (filter : AddressFilter) (contacts : Contacts) :
    Except SetupError Client :=
  match settings.validate with
  | .error cause => .error (.settings cause)
  | .ok () =>
    match Engine.ofSettings? settings.sync store filter with
    | none => .error .keepAliveTooLong
    | some engine => .ok { settings, engine, contacts, untilPass := none, effects := [] }

def chain (c : Client) : Chain := c.engine.chain

def isRunning (c : Client) : Bool := c.untilPass.isSome

def effect (c : Client) (e : Effect) : Client := { c with effects := c.effects ++ [e] }

def perform (c : Client) (command : Command) : Client := c.effect (.network command)

def outlook (c : Client) (now : Nat) : Outlook := ⟨now, c.contacts.connected⟩

def disconnect (c : Client) (peer : PeerId) : Client :=
  { c with contacts := c.contacts.disconnect peer }.perform (.disconnect peer)

def publishEvents (c : Client) : Client :=
  let store := c.engine.store
  { c with
    engine := { c.engine with store := { store with events := [] } }
    effects := c.effects ++ store.events.map .chain }

/-! ## Carrying out commands -/

def connections (c : Client) : Table PeerId Peer := c.contacts.connected.foldl (fun t p => t.insert p.id p) ∅

def act (c : Client) : Deed Peer → Client
  | .send peer _ message => c.perform (.send peer message)
  | .broadcast message => c.perform (.broadcast message)
  | .disconnect peer => c.disconnect peer
  | .bind peer => c.perform (.bind peer)
  | .announce height => c.perform (.announce height)

/-- The client's own connections. Every command that is not dropped is recorded among the effects. -/
def transport : Transport Client Peer := ⟨connections, act⟩

def carryOut (c : Client) (commands : List Command) : Client := (transport.carryOut c commands).state

/-- Lets the engine do something and carries out what it asks for. -/
def withEngine {α : Type} (c : Client) (act : Engine → Engine × α) : Client × α :=
  let (engine, answer) := act c.engine
  let (commands, engine) := engine.takeCommands
  ({ c with engine }.publishEvents.carryOut commands, answer)

/-! ## Messages -/

/-- Handles a message from a peer. One that has not finished the handshake is refused before anything
changes. -/
def deliver (c : Client) (now : Nat) (peer : Peer) (message : Message) : Client × Except Fault Unit :=
  let heard (height : Nat) : Client :=
    { c with contacts := c.contacts.updateLatest peer.id fun k => { k with peer := { k.peer with height } } }
  if !peer.isEstablished then
    (c, .error (.incompatiblePeer
      ("peer " ++ peer.id.describe ++ " sent " ++ message.command
        ++ " before completing the handshake")))
  else
    match message with
    | .ping height => ((heard height).perform (.send peer.id (.pong c.chain.height)), .ok ())
    | .pong height => (heard height, .ok ())
    | .inventory items => c.withEngine fun e => e.receiveInventory (c.outlook now) peer.id items
    | .filteredBlock block => c.withEngine fun e => e.receiveBlock (c.outlook now) peer.id block
    | .tx tx => c.withEngine fun e => e.receiveTx (c.outlook now) peer.id tx
    | .notFound items => c.withEngine fun e => e.receiveNotFound (c.outlook now) peer.id items
    | .version _ | .verAck | .getBlocks _ _ | .getData _ | .filterLoad _ =>
      (c, .error (.unsupportedMessage message.command))

def greet (c : Client) (peer : PeerId) : Client := c.perform (.send peer c.engine.filter.loadMessage)

def checkVersion (c : Client) (version : Version) : Except Fault Unit :=
  version.check c.settings.network.minVersion

def localVersion (c : Client) (timestamp : UInt64) : Version :=
  c.settings.localVersion c.chain.height timestamp

/-! ## The wallet's side -/

def reloadFilter (c : Client) : Client :=
  { c with engine := { c.engine with filter := c.engine.filter.reload } }

/-- Watches one more address and loads the new filter on every peer. -/
def watchAddress (c : Client) (address : Bytes) : Client :=
  let filter := (c.engine.filter.watch address).reload
  { c with engine := { c.engine with filter } }.perform (.broadcast filter.loadMessage)

def broadcastTx (c : Client) (tx : Transaction) : Client := c.perform (.broadcast (.tx tx))

def announceHeight (c : Client) : Client := c.perform (.announce c.chain.height)

/-! ## Liveness -/

/-- Asks a peer for a sign of life, or drops it after too long a silence. -/
def probe (now : Nat) (c : Client) (peer : Peer) : Client :=
  if !peer.isEstablished then c
  else if c.engine.patience < now - peer.lastActive then c.disconnect peer.id
  else c.perform (.send peer.id (.ping c.chain.height))

/-- One liveness pass over those who were connected when it began. -/
def pass (now : Nat) (c : Client) : Client :=
  let c := (c.contacts.connected.foldl (probe now) c).effect .connect
  (c.withEngine fun e => e.upkeep (c.outlook now)).1.announceHeight

def passes (now : Nat) : Nat → Client → Client
  | 0, c => c
  | count + 1, c => passes now count (c.pass now)

def start (c : Client) : Client :=
  if c.isRunning then c
  else { c.announceHeight.effect .start with untilPass := some c.settings.sync.updateInterval }

def stop (c : Client) : Client :=
  let store := c.engine.store
  { c with
    untilPass := none
    engine := { c.engine with store := { store with chain := store.chain.close } } }

/-- Lets a span of time that ends at `now` go by, and makes the passes that came due in it. -/
def elapse (c : Client) (now span : Nat) : Client :=
  match c.untilPass with
  | none => c
  | some left =>
    if span < left then { c with untilPass := some (left - span) }
    else
      let interval := c.settings.sync.updateInterval
      let late := span - left
      { passes now (late / interval + 1) c with untilPass := some (interval - late % interval) }

end Client
end LightClient
