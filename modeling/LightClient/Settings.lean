/-!
# Settings

Spans of time are in milliseconds.
-/
namespace LightClient

structure NetworkSettings where
  magic : UInt32
  /-- Addresses of the first peers to try, with or without a port. -/
  seeds : List String
  /-- The port on which full nodes serve filtered blocks. -/
  serverPort : UInt16
  clientPort : UInt16
  minVersion : UInt32
  clientId : UInt64
  deriving DecidableEq

structure SyncSettings where
  updateInterval : Nat
  /-- A peer that is silent for so many intervals is dropped. -/
  keepAliveMultiplier : UInt32
  maxOrphans : UInt64
  orphanLifetime : Nat
  txCacheSize : UInt64
  falsePositiveThreshold : UInt32
  falsePositiveWindow : Nat
  faultCooldown : Nat
  deriving DecidableEq

structure Settings where
  network : NetworkSettings
  sync : SyncSettings
  deriving DecidableEq

def protocolVersion : UInt32 := 1

inductive SettingsError where
  /-- A source could not be read or has a value of the wrong form. -/
  | load
  | encode
  | invalidPort (reason : String)
  | invalidValue (reason : String)
  deriving DecidableEq

def SettingsError.message? : SettingsError → Option String
  | .load | .encode => none
  | .invalidPort reason => some ("Invalid port: " ++ reason)
  | .invalidValue reason => some ("Invalid value: " ++ reason)

namespace NetworkSettings

def default (clientId : UInt64) : NetworkSettings where
  magic := 7630401
  seeds := ["127.0.0.1:20338", "127.0.0.1:20339"]
  serverPort := 20866
  clientPort := 20867
  minVersion := protocolVersion
  clientId := clientId

def validate (s : NetworkSettings) : Except SettingsError Unit :=
  if s.serverPort = 0 ∨ s.clientPort = 0 then .error (.invalidPort "SPV ports cannot be 0")
  else .ok ()

end NetworkSettings

/-- The text before the last colon, if there is a colon that is not the first character. -/
def hostOf? (seed : List Char) : Option (List Char) :=
  match seed.reverse.dropWhile (· ≠ ':') with
  | _ :: host => if host = [] then none else some host.reverse
  | [] => none

/-- An address with its port, if it has one, replaced. -/
def withPort (port : UInt16) (seed : String) : String :=
  String.ofList ((hostOf? seed.toList).getD seed.toList) ++ ":" ++ toString port.toNat

def NetworkSettings.seedAddresses (s : NetworkSettings) : List String :=
  s.seeds.map (withPort s.serverPort)

namespace SyncSettings

def second : Nat := 1000

def minute : Nat := 60 * second

def default : SyncSettings where
  updateInterval := 15 * second
  keepAliveMultiplier := 3
  maxOrphans := 1024
  orphanLifetime := 30 * minute
  txCacheSize := 4096
  falsePositiveThreshold := 7
  falsePositiveWindow := 10 * minute
  faultCooldown := 10 * minute

def mustBePositive (name : String) : SettingsError :=
  .invalidValue ("sync." ++ name ++ " must be greater than 0")

def validate (s : SyncSettings) : Except SettingsError Unit :=
  if s.updateInterval = 0 then .error (mustBePositive "info_update_interval")
  else if s.keepAliveMultiplier = 0 then .error (mustBePositive "keep_alive_multiplier")
  else if s.maxOrphans = 0 then .error (mustBePositive "max_orphans")
  else if s.txCacheSize = 0 then .error (mustBePositive "tx_cache_size")
  else if s.falsePositiveThreshold = 0 then .error (mustBePositive "false_positive_threshold")
  else .ok ()

/-- How long a peer may be silent; none if the span has more than 2^64 - 1 seconds. -/
def keepAlive? (s : SyncSettings) : Option Nat :=
  let span := s.updateInterval * s.keepAliveMultiplier.toNat
  if span / second < 2 ^ 64 then some span else none

end SyncSettings

namespace Settings

def default (clientId : UInt64) : Settings := ⟨.default clientId, .default⟩

def validate (s : Settings) : Except SettingsError Unit := do
  s.network.validate
  s.sync.validate

end Settings
end LightClient
