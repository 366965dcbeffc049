import Mathlib.Data.List.Nodup
import Mathlib.Data.List.Basic
import Mathlib.Algebra.Order.Ring.Int

/-!
# Transactions as the node and the bridge exchange them

The data of `btcd/wire`: outpoints, inputs, outputs and transactions. A hash is kept as one number, its
first byte the most significant. Amounts are Go's `int64`, with its wrap-around, and are Lean's `Int64`.
The hash functions are parameters (`Hashing`); where a statement needs it, it says that two
transactions of its histories do not share an identifier.
-/

namespace DogePeg

open List

variable {i : ℕ} {op : OutPoint}

abbrev Hash := BitVec 256

instance instLawfulBEqHash : LawfulBEq Hash := inferInstance

/-- The hash of a public key or of a redeem script (`[20]byte`). -/
abbrev Hash160 := BitVec 160

abbrev Script := List UInt8

def maxPrevOutIndex : UInt32 := 0xffffffff

def maxTxInSequenceNum : UInt32 := 0xffffffff

/-- The most outputs `MsgTx.BtcDecode` reads: `MaxMessagePayload / MinTxOutPayload + 1`. -/
def maxTxOutPerMessage : ℕ := (1024*1024*32) / 9+1

theorem one_le_maxTxOut : 1 ≤ maxTxOutPerMessage := Nat.le_add_left 1 _

structure OutPoint where
  hash : Hash
  index : UInt32
  deriving DecidableEq, Repr

structure TxIn where
  previousOutPoint : OutPoint
  signatureScript : Script
  witness : List (List UInt8)
  sequence : UInt32
  deriving DecidableEq, Repr

structure TxOut where
  value : Int64
  pkScript : Script
  deriving DecidableEq, Repr

/-- A decoded transaction. Decoding refuses longer output lists, so every output
has an index of its own. -/
structure MsgTx where
  version : Int32
  txIn : List TxIn
  txOut : List TxOut
  lockTime : UInt32
  outputs_le : txOut.length ≤ maxTxOutPerMessage
  deriving DecidableEq

/-- The hash functions of the chains: the double SHA-256 of a transaction's
serialization without witness data, and the RIPEMD-160 of the SHA-256. -/
class Hashing where
  doubleHash : MsgTx → Hash
  hash160 : List UInt8 → Hash160

namespace MsgTx

/-- The transaction as `SerializeNoWitness` writes it. -/
def stripWitness (tx : MsgTx) : MsgTx :=
  { tx with txIn := tx.txIn.map fun i => { i with witness := [] } }

/-- The transaction with its signatures stripped (`unsignedHash` hashes this). -/
def unsigned (tx : MsgTx) : MsgTx :=
  { tx with txIn := tx.txIn.map fun i => { i with signatureScript := [],witness := [] } }

def spends (tx : MsgTx) : List OutPoint := tx.txIn.map (·.previousOutPoint)

variable [Hashing]

def txHash (tx : MsgTx) : Hash := Hashing.doubleHash tx.stripWitness

def outPoint (tx : MsgTx) (i : ℕ) : OutPoint := ⟨tx.txHash,UInt32.ofNat i⟩

def outputs (tx : MsgTx) : List (OutPoint × TxOut) :=
  tx.txOut.zipIdx.map fun p => (tx.outPoint p.2,p.1)

def outputAt (tx : MsgTx) (op : OutPoint) : Option TxOut :=
  if op.hash = tx.txHash then tx.txOut[op.index.toNat]? else none

end MsgTx

/-- `unsignedHash`: a transaction's identifier without its signatures. -/
def unsignedHash [Hashing] (tx : MsgTx) : Hash := tx.unsigned.txHash

def isCoinbase (tx : MsgTx) : Bool :=
  match tx.txIn with
  | [i] => i.previousOutPoint.index = maxPrevOutIndex && i.previousOutPoint.hash = 0
  | _ => false

namespace MsgTx

@[simp] theorem unsigned_txOut (tx : MsgTx) : tx.unsigned.txOut = tx.txOut := rfl

@[simp] theorem stripWitness_txOut (tx : MsgTx) : tx.stripWitness.txOut = tx.txOut := rfl

@[simp] theorem unsigned_spends (tx : MsgTx) : tx.unsigned.spends = tx.spends := by
  simp [unsigned,spends,Function.comp_def]

@[simp] theorem stripWitness_spends (tx : MsgTx) : tx.stripWitness.spends = tx.spends := by
  simp [stripWitness,spends,Function.comp_def]

theorem spends_eq_of_unsigned_eq {t u : MsgTx} (h : t.unsigned=u.unsigned) : t.spends = u.spends := by
  rw [← unsigned_spends t,h,unsigned_spends]

@[simp] theorem stripWitness_stripWitness (tx : MsgTx) : tx.stripWitness.stripWitness = tx.stripWitness := by
  simp [stripWitness,Function.comp_def]

private theorem lt_of_lt_txOut_length (tx : MsgTx) (h : i<tx.txOut.length) : i < 2^32 := by
  have := tx.outputs_le
  unfold maxTxOutPerMessage at this
  omega

variable [Hashing] (tx : MsgTx)

@[simp] theorem txHash_stripWitness : tx.stripWitness.txHash = tx.txHash := by
  simp [txHash]

@[simp] theorem outPoint_hash (i : ℕ) : (tx.outPoint i).hash = tx.txHash := rfl

theorem outPoint_index_toNat (h : i<tx.txOut.length) : (tx.outPoint i).index.toNat = i := by
  change (UInt32.ofNat i).toNat = i
  rw [UInt32.toNat_ofNat',Nat.mod_eq_of_lt (tx.lt_of_lt_txOut_length h)]

theorem outPoint_inj {j : ℕ} (hi : i<tx.txOut.length) (hj : j<tx.txOut.length)
    (h : tx.outPoint i=tx.outPoint j) : i = j := by
  rw [← tx.outPoint_index_toNat hi,h,tx.outPoint_index_toNat hj]

theorem mem_outputs {out : TxOut} : (op,out)∈tx.outputs ↔ ∃ i, tx.txOut[i]? = some out ∧ op = tx.outPoint i := by
  simp only [outputs,mem_map,Prod.mk.injEq,Prod.exists,mem_zipIdx_iff_getElem?]
  constructor
  · rintro ⟨o,i,h,rfl,rfl⟩
    exact ⟨i,h,rfl⟩
  · rintro ⟨i,h,rfl⟩
    exact ⟨out,i,h,rfl,rfl⟩

theorem hash_of_mem_outputs {p : OutPoint × TxOut} (h : p∈tx.outputs) : p.1.hash = tx.txHash := by
  obtain ⟨i,-,hi⟩ := tx.mem_outputs.mp h
  rw [hi,outPoint_hash]

theorem outputs_keys : tx.outputs.map Prod.fst = (List.range tx.txOut.length).map tx.outPoint := by
  have h : tx.txOut.zipIdx.map Prod.snd = List.range tx.txOut.length := by
    rw [zipIdx_map_snd,range_eq_range']
  rw [← h,outputs,map_map,map_map]
  rfl

theorem nodup_outputs_keys : (tx.outputs.map Prod.fst).Nodup := by
  rw [outputs_keys]
  refine List.Nodup.map_on ?_ nodup_range
  intro i hi j hj h
  exact tx.outPoint_inj (mem_range.mp hi) (mem_range.mp hj) h

/-- No output has the index a coinbase's input names. -/
theorem index_ne_max {p : OutPoint × TxOut} (h : p∈tx.outputs) : p.1.index ≠ maxPrevOutIndex := by
  obtain ⟨i,hi,hop⟩ := tx.mem_outputs.mp h
  have hlt : i < tx.txOut.length := (List.getElem?_eq_some_iff.mp hi).1
  have hidx := tx.outPoint_index_toNat hlt
  have hmax : maxPrevOutIndex.toNat = 4294967295 := rfl
  have hle := tx.outputs_le
  intro heq
  rw [← hop,heq,hmax] at hidx
  unfold maxTxOutPerMessage at hle
  omega

theorem outputAt_eq_some {out : TxOut} : (op,out)∈tx.outputs → tx.outputAt op = some out := by
  intro h
  obtain ⟨i,hi,rfl⟩ := tx.mem_outputs.mp h
  have hlt : i < tx.txOut.length := (List.getElem?_eq_some_iff.mp hi).1
  simp [outputAt,tx.outPoint_index_toNat hlt,hi]

end MsgTx

theorem not_coinbase_of_spends {tx : MsgTx} (hop : op∈tx.spends)
    (hidx : op.index≠maxPrevOutIndex) : isCoinbase tx = false := by
  unfold isCoinbase
  split
  · next i hin =>
    rw [MsgTx.spends,hin,map_singleton,mem_singleton] at hop
    rw [← hop,decide_eq_false hidx,Bool.false_and]
  · rfl

/-! ## A hash to evaluate the model with -/

/-- A polynomial digest: enough to tell the transactions of a small history apart. -/
def digest (words : List ℕ) : ℕ := words.foldl (fun acc w => (acc*1000003+w+1) % 2^256) 7

def TxIn.words (i : TxIn) : List ℕ :=
  [i.previousOutPoint.hash.toNat,i.previousOutPoint.index.toNat,
    digest (i.signatureScript.map UInt8.toNat),i.sequence.toNat]

def TxOut.words (o : TxOut) : List ℕ :=
  [o.value.toBitVec.toNat,digest (o.pkScript.map UInt8.toNat)]

/-- Hash functions that compute, for examples. -/
@[reducible] def sampleHashing : Hashing where
  doubleHash tx := BitVec.ofNat 256 (digest (tx.lockTime.toNat::tx.version.toBitVec.toNat ::
    (tx.txIn.flatMap TxIn.words++tx.txOut.flatMap TxOut.words)))
  hash160 script := BitVec.ofNat 160 (digest (script.map UInt8.toNat))

end DogePeg
