import DogePeg.Bridge.Load
import DogePeg.Lib.Checks
import Mathlib.Data.List.Sort

/-!
# The transactions the bridge builds

`buildRelease`, `buildPayout` and `buildCancel`, and the coins the coordinator chooses for
them (`cmd/dogevm/bridge.go`). A signer builds a proposal again from its own view, so each
depends only on its arguments.
-/

namespace DogePeg

open Amounts Checks List

variable {tx : MsgTx}

/-- The least the change of the peg or the reserve holds: `koinuPerDoge / 100`. -/
def pegDust : Int64 := 1000000

inductive BuildError where
  | available (total need : Int64)
  | inputsHold (total need : Int64)
  | paysPeg
  | unneeded (op : OutPoint)
  | feeAndChange (value fee : Int64)
  | anchorBusy
  | noAnchor
  | waitingFor (op : OutPoint)
  | nothingToFence
  deriving DecidableEq

theorem newTx_outputs (pays : TxOut) (change : Option TxOut) (data : List UInt8) :
    (pays::(change.toList++[nullData data])).length ≤ maxTxOutPerMessage := by
  have : change.toList.length ≤ 1 := by cases change <;> simp
  simp only [length_cons,length_append,length_nil,maxTxOutPerMessage]
  omega

/-- An unsigned transaction spending `inputs` in order: a payment, change, and a data output. -/
def newTx (version : Int32) (sequence : UInt32) (inputs : List Utxo) (pays : TxOut)
    (change : Option TxOut) (data : List UInt8) : MsgTx where
  version := version
  txIn := inputs.map fun u => ⟨u.outPoint,[],[],sequence⟩
  txOut := pays::(change.toList++[nullData data])
  lockTime := 0
  outputs_le := newTx_outputs pays change data

/-- `wire.TxVersion`, and the version of the bridge's Dogecoin transactions. -/
def txVersion : Int32 := 1

/-- The sequence number that signals a replaceable transaction. -/
def replaceable : UInt32 := maxTxInSequenceNum-2

def inputsTotal (inputs : List Utxo) : Int64 := total (inputs.map (·.value))

theorem inputsTotal_cons (u : Utxo) (us : List Utxo) : inputsTotal (u::us) = u.value+inputsTotal us := by
  simp only [inputsTotal,total_eq_sum,map_cons,sum_cons]

def Utxo.InRange (u : Utxo) : Prop := 0 ≤ u.value.toInt ∧ u.value.toInt ≤ 10^18

instance instDecidableInRange (u : Utxo) : Decidable u.InRange := inferInstanceAs (Decidable (_ ∧ _))

/-- `d.dest`: the zero destination where the deposit names none. -/
def Deposit.destination (d : Deposit) : Destination := d.dest.getD ⟨.p2pkh,0⟩

def unneededInput (inputs : List Utxo) (need : Int64) : Option Utxo :=
  inputs.tail.find? fun u => need ≤ inputsTotal inputs-u.value

namespace Bridge

variable [Hashing] (b : Bridge)

def buildRelease (inputs : List Utxo) (d : Deposit) : MsgTx :=
  let change := inputsTotal inputs-d.value
  newTx txVersion maxTxInSequenceNum inputs ⟨d.value-b.vmFee,d.destination.pkScript⟩
    (if 0 < change then some ⟨change,b.script⟩ else none) (encodeRelease d.outPoint)

/-- What a payout leaves the peg, and how much of it comes out of the payment. -/
def payoutChange (change : Int64) : Int64 × Int64 :=
  if change < pegDust then (pegDust,pegDust-change) else (change,0)

def buildPayout (inputs : List Utxo) (value : Int64) (dest : Destination) (data : List UInt8)
    (fee : Int64) : Except BuildError MsgTx := do
  let sum := inputsTotal inputs
  ensure (value ≤ sum) (.inputsHold sum value)
  ensure (dest.pkScript ≠ b.script) .paysPeg
  match unneededInput inputs value with
  | some u => .error (.unneeded u.outPoint)
  | none =>
    let (change,topUp) := payoutChange (sum-value)
    let pays := value-fee-topUp
    ensure (pegDust ≤ pays) (.feeAndChange value fee)
    return newTx 1 replaceable inputs ⟨pays,dest.pkScript⟩ (some ⟨change,b.script⟩) data

def buildCancel (inputs : List Utxo) (op : OutPoint) : Except BuildError MsgTx := do
  let need := b.vmFee+pegDust
  let sum := inputsTotal inputs
  ensure (inputs ≠ [] && need ≤ sum) (.inputsHold sum need)
  match unneededInput inputs need with
  | some u => .error (.unneeded u.outPoint)
  | none =>
    return newTx txVersion maxTxInSequenceNum inputs ⟨sum-b.vmFee,b.script⟩ none (encodeCancel op)

end Bridge

/-! ## Choosing the coins -/

/-- The loop of `selectUTXOs`. -/
def takeCoins (amount : Int64) : Int64 → List Utxo → List Utxo × Int64
  | sum, [] => ([],sum)
  | sum, u::us =>
    if amount ≤ sum then ([],sum)
    else
      let (picked,all) := takeCoins amount (sum+u.value) us
      (u::picked,all)

def containsOutPoint (coins : List Utxo) (op : OutPoint) : Bool := coins.any fun u => u.outPoint = op

namespace PegState

variable (s : PegState)

def freeReserveAnchor : Except BuildError Utxo := do
  let anchor ← found s.reserveAnchor .anchorBusy
  ensure (containsOutPoint s.reserveUTXOs anchor.outPoint) .anchorBusy
  return anchor

end PegState

/-! ## What the builders return -/

section NewTx

variable (version : Int32) (sequence : UInt32) (inputs : List Utxo) (pays : TxOut)
  (change : Option TxOut) (data : List UInt8)

@[simp] theorem newTx_spends : (newTx version sequence inputs pays change data).spends = inputs.map (·.outPoint) := by
  simp [newTx,MsgTx.spends,Function.comp_def]

@[simp] theorem newTx_txOut : (newTx version sequence inputs pays change data).txOut =
      pays::(change.toList++[nullData data]) := rfl

@[simp] theorem newTx_unsigned : (newTx version sequence inputs pays change data).unsigned =
      newTx version sequence inputs pays change data := by
  simp [newTx,MsgTx.unsigned,Function.comp_def]

variable {version sequence inputs pays change data}

theorem newTx_carries (hpays : isNullDataScript pays.pkScript=false)
    (hchange : ∀ out∈change, isNullDataScript out.pkScript = false) (hlo : 4≤data.length)
    (hhi : data.length<0x4c) : Carries (newTx version sequence inputs pays change data) data := by
  refine ⟨⟨pays::change.toList,rfl,?_⟩,hlo,hhi⟩
  intro out hout
  rcases mem_cons.mp hout with rfl | hmem
  · exact hpays
  · exact hchange out (Option.mem_toList.mp hmem)

end NewTx

namespace Bridge

variable [Hashing] (b : Bridge)

theorem isNullDataScript_script : isNullDataScript b.script = false := by
  rw [script,p2shScript]
  exact isNullDataScript_pkScript _

theorem nullDataScript_ne_script (data : List UInt8) : nullDataScript data ≠ b.script := by
  simp [script,p2shScript,Destination.pkScript,nullDataScript,opReturn]

theorem paidTo_newTx (version : Int32) (sequence : UInt32) (inputs : List Utxo) (pays : TxOut)
    (change : Option TxOut) (data : List UInt8) : paidTo b.script (newTx version sequence inputs pays change data) =
      (if pays.pkScript = b.script then pays.value else 0) +
        change.elim 0 fun out => if out.pkScript = b.script then out.value else 0 := by
  have hdata : ¬(nullData data).pkScript = b.script := b.nullDataScript_ne_script data
  rw [paidTo,total_eq_sum,newTx_txOut,sum_filter]
  cases change with
  | none => simp [hdata]
  | some out => simp [hdata]

theorem buildRelease_carries (inputs : List Utxo) (d : Deposit) :
    Carries (b.buildRelease inputs d) (encodeRelease d.outPoint) := by
  refine newTx_carries (isNullDataScript_pkScript _) ?_ (by simp [encodeRelease]) (by simp [encodeRelease])
  intro out hout
  split at hout
  · cases hout
    exact b.isNullDataScript_script
  · cases hout

@[simp] theorem buildRelease_spends (inputs : List Utxo) (d : Deposit) :
    (b.buildRelease inputs d).spends = inputs.map (·.outPoint) := newTx_spends ..

variable {inputs : List Utxo}

theorem paidTo_buildRelease {d : Deposit}
    (hdest : d.destination.pkScript≠b.script) (hcovers : 0 ≤ inputsTotal inputs-d.value) :
    paidTo b.script (b.buildRelease inputs d) = inputsTotal inputs-d.value := by
  rw [buildRelease,paidTo_newTx,if_neg hdest]
  by_cases hchange : 0 < inputsTotal inputs-d.value
  · rw [if_pos hchange]
    simp
  · rw [if_neg hchange,← Int64.le_antisymm hcovers (Int64.not_lt.mp hchange)]
    rfl

theorem buildPayout_ok {value : Int64} {dest : Destination} {data : List UInt8}
    {fee : Int64} (h : b.buildPayout inputs value dest data fee = .ok tx) :
    value ≤ inputsTotal inputs ∧ dest.pkScript ≠ b.script ∧ unneededInput inputs value = none ∧
      pegDust ≤ value-fee-(payoutChange (inputsTotal inputs-value)).2 ∧
      tx = newTx 1 replaceable inputs ⟨value-fee-(payoutChange (inputsTotal inputs-value)).2,dest.pkScript⟩
        (some ⟨(payoutChange (inputsTotal inputs-value)).1,b.script⟩) data := by
  simp only [buildPayout,checks_ok,decide_eq_true_eq] at h
  obtain ⟨hsum,hdest,h⟩ := h
  split at h
  · cases h
  · next hnone =>
    simp only [checks_ok,decide_eq_true_eq] at h
    exact ⟨hsum,hdest,hnone,h.1,h.2.symm⟩

theorem buildCancel_ok {op : OutPoint} (h : b.buildCancel inputs op = .ok tx) :
    inputs ≠ [] ∧ b.vmFee+pegDust ≤ inputsTotal inputs ∧ unneededInput inputs (b.vmFee+pegDust) = none ∧
      tx = newTx txVersion maxTxInSequenceNum inputs ⟨inputsTotal inputs-b.vmFee,b.script⟩ none
        (encodeCancel op) := by
  simp only [buildCancel,checks_ok,Bool.and_eq_true,decide_eq_true_eq] at h
  obtain ⟨⟨hne,hneed⟩,h⟩ := h
  split at h
  · cases h
  · next hnone => exact ⟨hne,hneed,hnone,(pure_eq_ok.mp h).symm⟩

theorem buildPayout_carries {value : Int64} {dest : Destination} {data : List UInt8}
    {fee : Int64} (h : b.buildPayout inputs value dest data fee = .ok tx)
    (hlo : 4≤data.length) (hhi : data.length<0x4c) : Carries tx data := by
  obtain ⟨-,-,-,-,rfl⟩ := b.buildPayout_ok h
  refine newTx_carries (isNullDataScript_pkScript _) ?_ hlo hhi
  simpa using b.isNullDataScript_script

theorem buildCancel_carries {op : OutPoint}
    (h : b.buildCancel inputs op = .ok tx) : Carries tx (encodeCancel op) := by
  obtain ⟨-,-,-,rfl⟩ := b.buildCancel_ok h
  exact newTx_carries b.isNullDataScript_script (by simp) (by simp [encodeCancel]) (by simp [encodeCancel])

end Bridge

end DogePeg
