import LightClient.Digest
/-!
# Transactions

A transaction is named by the digest of its encoding, in which lists and byte strings are preceded
by their length in four bytes.
-/
namespace LightClient

structure OutPoint where
  txid : Digest
  index : UInt32
  deriving DecidableEq

structure TxInput where
  spends : OutPoint
  signature : Bytes
  sequence : UInt32
  deriving DecidableEq

structure TxOutput where
  value : UInt64
  /-- Program hash of the address that is paid. -/
  address : Bytes
  deriving DecidableEq

structure Transaction where
  version : UInt32
  inputs : List TxInput
  outputs : List TxOutput
  lockTime : UInt32
  deriving DecidableEq

def Bytes.withLength (bs : Bytes) : Bytes := Bytes.littleEndian 4 bs.length ++ bs

def TxInput.toBytes (i : TxInput) : Bytes :=
  i.spends.txid.bytes ++ Bytes.littleEndian 4 i.spends.index.toNat ++ i.signature.withLength
    ++ Bytes.littleEndian 4 i.sequence.toNat

def TxOutput.toBytes (o : TxOutput) : Bytes :=
  Bytes.littleEndian 8 o.value.toNat ++ o.address.withLength

namespace Transaction

def toBytes (t : Transaction) : Bytes :=
  Bytes.littleEndian 4 t.version.toNat
    ++ Bytes.littleEndian 4 t.inputs.length ++ t.inputs.flatMap TxInput.toBytes
    ++ Bytes.littleEndian 4 t.outputs.length ++ t.outputs.flatMap TxOutput.toBytes
    ++ Bytes.littleEndian 4 t.lockTime.toNat

def txid (t : Transaction) : Digest := Digest.ofBytes t.toBytes

def addresses (t : Transaction) : List Bytes := t.outputs.map TxOutput.address

end Transaction
end LightClient
