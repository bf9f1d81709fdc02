import LightClient.Message
import LightClient.Table
/-!
# Carrying out commands

Commands are carried out on a transport: whoever keeps the connections. It says who is connected and does what it is
told. What is sent goes over a connection, so a message for a peer that is not connected is dropped.
-/
namespace LightClient

/-- What a transport is told to do. A message goes over the connection that was found for its peer. -/
inductive Deed (ρ : Type) where
  | send (peer : PeerId) (connection : ρ) (message : Message)
  | broadcast (message : Message)
  | disconnect (peer : PeerId)
  | bind (peer : Option PeerId)
  | announce (height : Nat)
  deriving DecidableEq

/-- A transport with its state and its connections. -/
structure Transport (σ ρ : Type) where
  connected : σ → Table PeerId ρ
  act : σ → Deed ρ → σ

/-- A list of commands halfway. -/
structure Execution (σ ρ : Type) where
  state : σ
  /-- Who is connected, once that was looked up. -/
  known : Option (Table PeerId ρ)
  /-- What was done so far, in order. A record only. -/
  deeds : List (Deed ρ)

namespace Transport

variable {σ ρ : Type}

def perform (t : Transport σ ρ) (x : Execution σ ρ) (deed : Deed ρ) : Execution σ ρ :=
  { x with state := t.act x.state deed, deeds := x.deeds ++ [deed] }

/-- Carries out one command. Who is connected is looked up once, at the first message to be sent, and from then on only
those whom a command disconnects are taken off the list. -/
def carryOutOne (t : Transport σ ρ) (x : Execution σ ρ) : Command → Execution σ ρ
  | .send peer message =>
    let known := x.known.getD (t.connected x.state)
    let x := { x with known := some known }
    match known.get? peer with
    | some connection => t.perform x (.send peer connection message)
    | none => x
  | .broadcast message => t.perform x (.broadcast message)
  | .disconnect peer => t.perform { x with known := x.known.map (·.erase peer) } (.disconnect peer)
  | .bind peer => t.perform x (.bind peer)
  | .announce height => t.perform x (.announce height)

def carryOut (t : Transport σ ρ) (s : σ) (commands : List Command) : Execution σ ρ :=
  commands.foldl t.carryOutOne ⟨s, none, []⟩

end Transport
end LightClient
