import LightClient.Decimal.Shortest
import LightClient.Settings
import LightClient.Toml.Printer
import LightClient.Toml.Value
/-!
# Settings as entries

Each setting is an entry of a section. Spans of time are in whole seconds there. A section may also be a
list, whose items are the settings in the order in which they are written.
-/
namespace LightClient

open Toml (Field Value)

/-! ## Writing -/

def NetworkSettings.fields (s : NetworkSettings) : List (String × Field) :=
  [("magic", .number s.magic.toNat),
   ("seed_list", .strings s.seeds),
   ("spv_server_port", .number s.serverPort.toNat),
   ("spv_client_port", .number s.clientPort.toNat),
   ("min_protocol_version", .number s.minVersion.toNat),
   ("client_id", .number s.clientId.toNat)]

def SyncSettings.fields (s : SyncSettings) : List (String × Field) :=
  [("info_update_interval", .number (s.updateInterval / second)),
   ("keep_alive_multiplier", .number s.keepAliveMultiplier.toNat),
   ("max_orphans", .number s.maxOrphans.toNat),
   ("orphan_ttl", .number (s.orphanLifetime / second)),
   ("tx_cache_size", .number s.txCacheSize.toNat),
   ("false_positive_threshold", .number s.falsePositiveThreshold.toNat),
   ("false_positive_window", .number (s.falsePositiveWindow / second)),
   ("peer_fault_cooldown", .number (s.faultCooldown / second))]

def Settings.sections (s : Settings) : List (String × List (String × Field)) :=
  [("network", s.network.fields), ("sync", s.sync.fields)]

def Toml.Field.value : Field → Value
  | .number n => .integer n
  | .strings items => .list (items.map .string)

def Settings.layer (s : Settings) : List (String × Value) :=
  s.sections.map fun (name, fields) => (name, .table (fields.map fun (key, f) => (key, f.value)))

/-! ## Reading -/

namespace Toml.Value

/-- A number without a sign, or with a plus sign. -/
def readCount (s : String) : Option Nat :=
  let digits := if s.toList.head? = some '+' then s.toList.drop 1 else s.toList
  let n := Nat.ofDigitChars 10 digits 0
  if !digits.isEmpty && digits.all Char.isDigit && n < 2 ^ 64 then some n else none

/-- A value as a count below 2^64. A fraction is rounded, and a number out of range becomes the nearest
end of the range. -/
def count? : Value → Option Nat
  | .integer n => if 0 ≤ n then some n.toNat else none
  | .boolean b => some b.toNat
  | .float x => some x.round.toUInt64.toNat
  | .string s =>
    if ["true", "on", "yes"].contains s.toLower then some 1
    else if ["false", "off", "no"].contains s.toLower then some 0
    else readCount s
  | _ => none

def text? : Value → Option String
  | .string s => some s
  | .integer n => some (toString n)
  | .boolean b => some (toString b)
  | .float x => some (Decimal.render x)
  | _ => none

def texts? : Value → Option (List String)
  | .list items => items.mapM text?
  | _ => none

/-- A setting of a section, by its name or by its position in a list. -/
def setting? (v : Value) (position : Nat) (name : String) : Option Value :=
  match v with
  | .table _ => v.get? name
  | .list items => items[position]?
  | _ => none

def countAt? (v : Value) (position : Nat) (name : String) : Option Nat :=
  (v.setting? position name).bind count?

end Toml.Value

/-- Numbers that are too great for their setting keep their last 16 or 32 bits. -/
def NetworkSettings.ofValue? (v : Value) : Option NetworkSettings := do
  return {
    magic := .ofNat (← v.countAt? 0 "magic")
    seeds := ← (v.setting? 1 "seed_list").bind Toml.Value.texts?
    serverPort := .ofNat (← v.countAt? 2 "spv_server_port")
    clientPort := .ofNat (← v.countAt? 3 "spv_client_port")
    minVersion := .ofNat (← v.countAt? 4 "min_protocol_version")
    clientId := .ofNat (← v.countAt? 5 "client_id") }

def SyncSettings.ofValue? (v : Value) : Option SyncSettings := do
  return {
    updateInterval := (← v.countAt? 0 "info_update_interval") * second
    keepAliveMultiplier := .ofNat (← v.countAt? 1 "keep_alive_multiplier")
    maxOrphans := .ofNat (← v.countAt? 2 "max_orphans")
    orphanLifetime := (← v.countAt? 3 "orphan_ttl") * second
    txCacheSize := .ofNat (← v.countAt? 4 "tx_cache_size")
    falsePositiveThreshold := .ofNat (← v.countAt? 5 "false_positive_threshold")
    falsePositiveWindow := (← v.countAt? 6 "false_positive_window") * second
    faultCooldown := (← v.countAt? 7 "peer_fault_cooldown") * second }

/-- Settings from all their layers. Entries with other names are passed over. -/
def Settings.ofValue? (v : Value) : Option Settings := do
  return {
    network := ← (v.get? "network").bind NetworkSettings.ofValue?
    sync := ← (v.get? "sync").bind SyncSettings.ofValue? }

end LightClient
