import LightClient.Engine.Handle
/-!
# Runs

What can happen to an engine once it is set up: its calls, in any order and from any peers, each with its own view of
the time and of the connections, and what the rest of the client does between them.
-/
namespace LightClient

inductive Call where
  | deliver (peer : PeerId) (item : OrphanItem)
  | offer (peer : PeerId) (items : List InventoryItem)
  | lack (peer : PeerId) (items : List InventoryItem)
  /-- Stalls and the ends of cooldowns are judged at the time `at_`. -/
  | upkeep (at_ : Nat)

inductive Turn where
  | call (env : Outlook) (call : Call)
  /-- The commands and the events that have gathered are taken away. -/
  | drain
  /-- The filter is another one from now on. -/
  | reload (filter : AddressFilter)
  | watch (address : Bytes)
  /-- Somebody else hands the chain an unconfirmed transaction. -/
  | submit (tx : Transaction)
  | outage (count : Nat)
  | close

namespace Engine

def receive (env : Outlook) (e : Engine) (peer : PeerId) : OrphanItem → Engine × Except Fault Unit
  | .block block => e.receiveBlock env peer block
  | .tx tx => e.receiveTx env peer tx

def call (env : Outlook) (e : Engine) : Call → Engine × Except Fault Unit
  | .deliver peer item => e.receive env peer item
  | .offer peer items => e.receiveInventory env peer items
  | .lack peer items => e.receiveNotFound env peer items
  | .upkeep at_ => e.upkeepAt env at_

def withStore (e : Engine) (store : Store) : Engine := { e with store }

def turn (e : Engine) : Turn → Engine
  | .call env call => (e.call env call).1
  | .drain => { e with commands := [] }.withStore { e.store with events := [] }
  | .reload filter => { e with filter }
  | .watch address => e.withStore { e.store with chain := e.chain.watch address }
  | .submit tx =>
    let answer := e.store.commitUnconfirmed tx
    { e with
        store := answer.1
        verdicts :=
          match answer.2 with
          | .ok spurious => e.verdicts.insert tx.txid spurious
          | .error _ => e.verdicts }
  | .outage count => e.withStore { e.store with outages := e.store.outages + count }
  | .close => e.withStore { e.store with chain := e.chain.close }

def run (e : Engine) (turns : List Turn) : Engine := turns.foldl turn e

/-- An engine that was just set up over a chain. -/
def IsNew (c : Chain) (e : Engine) : Prop :=
  ∃ settings store filter, store.chain = c ∧ ofSettings? settings store filter = some e

/-- Some run from a new engine over the chain leads here. -/
def Reachable (c : Chain) (e : Engine) : Prop := ∃ e₀ turns, IsNew c e₀ ∧ e₀.run turns = e

end Engine

def Delivered (turns : List Turn) (peer : PeerId) (item : OrphanItem) : Prop :=
  ∃ env, Turn.call env (.deliver peer item) ∈ turns

end LightClient
