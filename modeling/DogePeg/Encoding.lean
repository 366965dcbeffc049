import DogePeg.Lib.Readers
import DogePeg.Wire

/-!
# The bytes of a transaction

How `btcd/wire` writes a transaction: numbers with the least significant byte first, counts and
lengths in as few bytes as they need.
-/

namespace DogePeg

open Bytes Readers

/-- `WriteVarInt`. -/
def varIntBytes (n : ℕ) : List UInt8 :=
  if n < 0xfd then [UInt8.ofNat n]
  else if n ≤ 0xffff then 0xfd::leBytes 2 n
  else if n ≤ 0xffffffff then 0xfe::leBytes 4 n
  else 0xff::leBytes 8 n

def OutPoint.bytes (op : OutPoint) : List UInt8 := toBytes 32 op.hash.toNat++leBytes 4 op.index.toNat

def TxIn.bytes (i : TxIn) : List UInt8 :=
  i.previousOutPoint.bytes++varIntBytes i.signatureScript.length++i.signatureScript++leBytes 4 i.sequence.toNat

def TxOut.bytes (o : TxOut) : List UInt8 :=
  leBytes 8 o.value.toUInt64.toNat++varIntBytes o.pkScript.length++o.pkScript

/-- `SerializeNoWitness`. -/
def MsgTx.bytesNoWitness (tx : MsgTx) : List UInt8 :=
  leBytes 4 tx.version.toUInt32.toNat++varIntBytes tx.txIn.length++tx.txIn.flatMap TxIn.bytes ++
    varIntBytes tx.txOut.length++tx.txOut.flatMap TxOut.bytes++leBytes 4 tx.lockTime.toNat

end DogePeg
