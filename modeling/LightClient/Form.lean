import LightClient.Engine.Handle
/-!
# Structured forms

Messages and reports as plain data: numbers, texts, lists and records. A variant is a record with its
name as the only field, or the bare name if it carries nothing. Digests and byte strings are lists of
numbers.

`Message.ofForm?` reads back what `Message.toForm` writes.
-/
namespace LightClient

inductive Form where
  | null
  | flag (b : Bool)
  | number (n : Nat)
  | text (s : String)
  | list (items : List Form)
  | record (fields : List (String × Form))

namespace Form

def ofList {α : Type} (write : α → Form) (xs : List α) : Form := .list (xs.map write)

def ofOption {α : Type} (write : α → Form) : Option α → Form
  | none => .null
  | some a => write a

def ofBytes (bs : Bytes) : Form := ofList (fun b => .number b.toNat) bs

def ofDigest (d : Digest) : Form := ofBytes d.bytes

def tagged (name : String) (content : Form) : Form := .record [(name, content)]

def field? (name : String) : Form → Option Form
  | .record fields => (fields.find? fun f => f.1 = name).map Prod.snd
  | _ => none

def flag? : Form → Option Bool
  | .flag b => some b
  | _ => none

def below? (bound : Nat) : Form → Option Nat
  | .number n => if n < bound then some n else none
  | _ => none

def word16? (f : Form) : Option UInt16 := (f.below? (2 ^ 16)).map UInt16.ofNat

def word32? (f : Form) : Option UInt32 := (f.below? (2 ^ 32)).map UInt32.ofNat

def word64? (f : Form) : Option UInt64 := (f.below? (2 ^ 64)).map UInt64.ofNat

def count? (f : Form) : Option Nat := f.below? (2 ^ 64)

def list? {α : Type} (read : Form → Option α) : Form → Option (List α)
  | .list items => items.mapM read
  | _ => none

def bytes? (f : Form) : Option Bytes := f.list? fun b => (b.below? 256).map UInt8.ofNat

def digest? (f : Form) : Option Digest :=
  f.bytes?.bind fun bytes => if h : bytes.length = 32 then some ⟨bytes, h⟩ else none

/-- A named field, read by a reader of its own. -/
def get? {α : Type} (f : Form) (name : String) (read : Form → Option α) : Option α :=
  (f.field? name).bind read

end Form

open Form (ofList ofOption ofBytes ofDigest tagged)

/-! ## Writing -/

def Version.toForm (v : Version) : Form :=
  .record [("version", .number v.version.toNat), ("services", .number v.services.toNat),
    ("timestamp", .number v.timestamp.toNat), ("port", .number v.port.toNat),
    ("nonce", .number v.nonce.toNat), ("height", .number v.height), ("relay", .flag v.relay)]

def ItemKind.name : ItemKind → String
  | .tx => "Tx"
  | .block => "Block"
  | .filteredBlock => "FilteredBlock"

def InventoryItem.toForm (i : InventoryItem) : Form :=
  .record [("kind", .text i.kind.name), ("hash", ofDigest i.hash)]

def Header.toForm (h : Header) : Form :=
  .record [("version", .number h.version.toNat), ("previous", ofDigest h.previous),
    ("merkle_root", ofDigest h.merkleRoot), ("timestamp", .number h.timestamp.toNat),
    ("bits", .number h.bits.toNat), ("nonce", .number h.nonce.toNat), ("height", .number h.height)]

def FilteredBlock.toForm (b : FilteredBlock) : Form :=
  .record [("header", b.header.toForm), ("total_transactions", .number b.proof.total.toNat),
    ("hashes", ofList ofDigest b.proof.hashes), ("flags", ofBytes b.proof.flags)]

def OutPoint.toForm (o : OutPoint) : Form :=
  .record [("txid", ofDigest o.txid), ("index", .number o.index.toNat)]

def TxInput.toForm (i : TxInput) : Form :=
  .record [("previous_output", i.spends.toForm), ("signature", ofBytes i.signature),
    ("sequence", .number i.sequence.toNat)]

def TxOutput.toForm (o : TxOutput) : Form :=
  .record [("value", .number o.value.toNat), ("address", ofBytes o.address)]

def Transaction.toForm (t : Transaction) : Form :=
  .record [("version", .number t.version.toNat), ("inputs", ofList TxInput.toForm t.inputs),
    ("outputs", ofList TxOutput.toForm t.outputs), ("lock_time", .number t.lockTime.toNat)]

def FilterLoad.toForm (l : FilterLoad) : Form :=
  .record [("filter", ofBytes l.filter), ("bit_count", .number l.bitCount),
    ("hash_count", .number l.hashCount), ("tweak", .number l.tweak.toNat)]

def Message.toForm : Message → Form
  | .version v => tagged "Version" v.toForm
  | .verAck => .text "VerAck"
  | .ping height => tagged "Ping" (.record [("height", .number height)])
  | .pong height => tagged "Pong" (.record [("height", .number height)])
  | .inventory items => tagged "Inventory" (ofList InventoryItem.toForm items)
  | .getBlocks locator stop =>
    tagged "GetBlocks" (.record [("locator", ofList ofDigest locator), ("stop", ofDigest stop)])
  | .getData items => tagged "GetData" (ofList InventoryItem.toForm items)
  | .notFound items => tagged "NotFound" (ofList InventoryItem.toForm items)
  | .filteredBlock block => tagged "MerkleBlock" block.toForm
  | .tx t => tagged "Tx" t.toForm
  | .filterLoad load => tagged "FilterLoad" load.toForm

def SyncStatus.toForm (s : SyncStatus) : Form :=
  .record [("syncing", .flag s.syncing), ("sync_peer", ofOption (fun p => .number p.number) s.syncPeer),
    ("start_hash", ofOption ofDigest s.start), ("stop_hash", ofOption ofDigest s.stop),
    ("pending_requests", .number s.awaited), ("orphans", .number s.orphans),
    ("height", .number s.height)]

/-! ## Reading -/

def Version.ofForm? (f : Form) : Option Version := do
  return {
    version := ← f.get? "version" Form.word32?
    services := ← f.get? "services" Form.word64?
    timestamp := ← f.get? "timestamp" Form.word64?
    port := ← f.get? "port" Form.word16?
    nonce := ← f.get? "nonce" Form.word64?
    height := ← f.get? "height" Form.count?
    relay := ← f.get? "relay" Form.flag? }

def ItemKind.ofForm? : Form → Option ItemKind
  | .text name => [ItemKind.tx, .block, .filteredBlock].find? fun k => k.name = name
  | _ => none

def InventoryItem.ofForm? (f : Form) : Option InventoryItem := do
  return ⟨← f.get? "kind" ItemKind.ofForm?, ← f.get? "hash" Form.digest?⟩

def Header.ofForm? (f : Form) : Option Header := do
  return {
    version := ← f.get? "version" Form.word32?
    previous := ← f.get? "previous" Form.digest?
    merkleRoot := ← f.get? "merkle_root" Form.digest?
    timestamp := ← f.get? "timestamp" Form.word64?
    bits := ← f.get? "bits" Form.word32?
    nonce := ← f.get? "nonce" Form.word32?
    height := ← f.get? "height" Form.count? }

def FilteredBlock.ofForm? (f : Form) : Option FilteredBlock := do
  return {
    header := ← f.get? "header" Header.ofForm?
    proof := {
      total := ← f.get? "total_transactions" Form.word32?
      hashes := ← f.get? "hashes" (Form.list? Form.digest?)
      flags := ← f.get? "flags" Form.bytes? } }

def OutPoint.ofForm? (f : Form) : Option OutPoint := do
  return ⟨← f.get? "txid" Form.digest?, ← f.get? "index" Form.word32?⟩

def TxInput.ofForm? (f : Form) : Option TxInput := do
  return ⟨← f.get? "previous_output" OutPoint.ofForm?, ← f.get? "signature" Form.bytes?,
    ← f.get? "sequence" Form.word32?⟩

def TxOutput.ofForm? (f : Form) : Option TxOutput := do
  return ⟨← f.get? "value" Form.word64?, ← f.get? "address" Form.bytes?⟩

def Transaction.ofForm? (f : Form) : Option Transaction := do
  return ⟨← f.get? "version" Form.word32?, ← f.get? "inputs" (Form.list? TxInput.ofForm?),
    ← f.get? "outputs" (Form.list? TxOutput.ofForm?), ← f.get? "lock_time" Form.word32?⟩

def FilterLoad.ofForm? (f : Form) : Option FilterLoad := do
  return ⟨← f.get? "filter" Form.bytes?, ← f.get? "bit_count" Form.count?,
    ← f.get? "hash_count" (Form.below? (2 ^ 32)), ← f.get? "tweak" Form.word32?⟩

def Message.ofForm? : Form → Option Message
  | .text name => if name = "VerAck" then some .verAck else none
  | .record [(name, f)] =>
    match name with
    | "Version" => (Version.ofForm? f).map .version
    | "Ping" => (f.get? "height" Form.count?).map .ping
    | "Pong" => (f.get? "height" Form.count?).map .pong
    | "Inventory" => (f.list? InventoryItem.ofForm?).map .inventory
    | "GetBlocks" => do
      return .getBlocks (← f.get? "locator" (Form.list? Form.digest?)) (← f.get? "stop" Form.digest?)
    | "GetData" => (f.list? InventoryItem.ofForm?).map .getData
    | "NotFound" => (f.list? InventoryItem.ofForm?).map .notFound
    | "MerkleBlock" => (FilteredBlock.ofForm? f).map .filteredBlock
    | "Tx" => (Transaction.ofForm? f).map .tx
    | "FilterLoad" => (FilterLoad.ofForm? f).map .filterLoad
    | _ => none
  | _ => none

end LightClient
