import DogePeg.Lib.Bytes
import DogePeg.Wire

/-!
# Output scripts

The part of `btcd/txscript` the bridge reads: the tokenizer, the test for a data
output (`OP_RETURN` and at most one push), the data such an output pushes, and
the two pay-to-hash scripts of `destination.pkScript`.
-/

namespace DogePeg

open Bytes

def opReturn : UInt8 := 0x6a

def maxDataCarrierSize : ℕ := 80

structure Token where
  opcode : UInt8
  data : Option (List UInt8)
  deriving DecidableEq, Repr

def pushed (opcode : UInt8) (n : ℕ) (rest : Script) : Option (Token × Script) :=
  if n ≤ rest.length then some (⟨opcode,some (rest.take n)⟩,rest.drop n) else none

def pushedLength (opcode : UInt8) (width : ℕ) (rest : Script) : Option (Token × Script) :=
  if rest.length < width then none
  else
    let n := ofBytes (rest.take width).reverse
    -- the length is an int32: one with the top bit set was sign extended
    if n < 2^31 then pushed opcode n (rest.drop width) else none

/-- `ScriptTokenizer.Next`: the first token of a script and what follows it. -/
def nextToken : Script → Option (Token × Script)
  | [] => none
  | op::rest =>
    if op = 0 then some (⟨op,none⟩,rest)
    else if op ≤ 75 then pushed op op.toNat rest
    else if op = 0x4c then pushedLength op 1 rest
    else if op = 0x4d then pushedLength op 2 rest
    else if op = 0x4e then pushedLength op 4 rest
    else some (⟨op,none⟩,rest)

def isSmallInt (op : UInt8) : Bool := op = 0 || (0x51 ≤ op && op ≤ 0x60)

/-- `isNullDataScript`. Every script class tested before it in `typeOfScript` starts
with another opcode, so this decides `GetScriptClass script = NullDataTy`. -/
def isNullDataScript : Script → Bool
  | [] => false
  | op::rest =>
    op = opReturn && (rest = [] ||
        match nextToken rest with
        | some (t,[]) =>
          (isSmallInt t.opcode || t.opcode ≤ 0x4e) && (t.data.getD []).length ≤ maxDataCarrierSize
        | _ => false)

/-- The loop over `ScriptTokenizer.Next`: the tokens before the first that does not parse, and
whether all of the script does. Each token takes at least one byte, so the script's length is
fuel enough. -/
def tokensAux : ℕ → Script → List Token × Bool
  | _, [] => ([],true)
  | 0, _ => ([],false)
  | fuel+1, script =>
    match nextToken script with
    | none => ([],false)
    | some (t,rest) => (t::(tokensAux fuel rest).1,(tokensAux fuel rest).2)

def tokens (script : Script) : List Token × Bool := tokensAux script.length script

/-- `PushedData`: what every token of the script pushes. -/
def pushedData (script : Script) : Option (List (List UInt8)) :=
  if (tokens script).2 then
    some ((tokens script).1.filterMap fun t => t.data.or (if t.opcode = 0 then some [] else none))
  else none

/-- `ScriptBuilder.addData`, for data that fits one `OP_PUSHDATA1`. -/
def addData (data : List UInt8) : Script :=
  match data with
  | [] => [0]
  | [b] =>
    if b = 0 then [0]
    else if b ≤ 16 then [0x50+b]
    else if b = 0x81 then [0x4f]
    else [1,b]
  | _ =>
    if data.length < 0x4c then UInt8.ofNat data.length::data
    else 0x4c::UInt8.ofNat data.length::data

/-- `NullDataScript`, for data within `MaxDataCarrierSize`. -/
def nullDataScript (data : List UInt8) : Script := opReturn::addData data

/-- The two kinds of address a `destination` names. -/
inductive DestKind where
  | p2pkh
  | p2sh
  deriving DecidableEq, Repr

/-- `destination`: a pay-to-hash address in a network-neutral form. -/
structure Destination where
  kind : DestKind
  hash : Hash160
  deriving DecidableEq, Repr

def Destination.pkScript (d : Destination) : Script :=
  match d.kind with
  | .p2sh => [0xa9,0x14]++toBytes 20 d.hash.toNat++[0x87]
  | .p2pkh => [0x76,0xa9,0x14]++toBytes 20 d.hash.toNat++[0x88,0xac]

def p2shScript [Hashing] (redeemScript : Script) : Script :=
  Destination.pkScript ⟨.p2sh,Hashing.hash160 redeemScript⟩

@[simp] theorem isNullDataScript_pkScript (d : Destination) : isNullDataScript d.pkScript = false := by
  cases hk : d.kind <;> simp [Destination.pkScript,hk,isNullDataScript,opReturn]

section OneToken

variable {data : List UInt8}

private theorem nextToken_addData (h2 : 2≤data.length) (h : data.length<0x4c) :
    nextToken (addData data) = some (⟨UInt8.ofNat data.length,some data⟩,[]) := by
  have hadd : addData data = UInt8.ofNat data.length::data := by
    match data, h2 with
    | a::b::rest, _ => simp [addData] at h ⊢; omega
  have hn : (UInt8.ofNat data.length).toNat = data.length := by
    rw [UInt8.toNat_ofNat']; omega
  have h0 : UInt8.ofNat data.length ≠ 0 := by
    intro h0
    rw [h0] at hn
    have : (0 : UInt8).toNat = 0 := rfl
    omega
  have hle : UInt8.ofNat data.length ≤ 75 := by
    rw [UInt8.le_iff_toNat_le,hn]
    exact Nat.le_of_lt_succ h
  simp [hadd,nextToken,h0,hle,pushed,hn]

theorem isNullDataScript_nullDataScript (h2 : 2≤data.length) (h : data.length<0x4c) :
    isNullDataScript (nullDataScript data) = true := by
  have hle : UInt8.ofNat data.length ≤ 0x4e := by
    rw [UInt8.le_iff_toNat_le,UInt8.toNat_ofNat']
    have : (0x4e : UInt8).toNat = 78 := rfl
    omega
  have hsize : data.length ≤ maxDataCarrierSize := by unfold maxDataCarrierSize; omega
  simp [isNullDataScript,nullDataScript,nextToken_addData h2 h,hle,hsize]

theorem pushedData_nullDataScript (h2 : 2≤data.length) (h : data.length<0x4c) :
    pushedData (nullDataScript data) = some [data] := by
  obtain ⟨b,bs,hb⟩ : ∃ b bs, addData data = b::bs := by
    match data, h2 with
    | a::b::rest, _ =>
      simp only [addData]
      split <;> exact ⟨_,_,rfl⟩
  have hret : nextToken (opReturn::b::bs) = some (⟨opReturn,none⟩,b::bs) := rfl
  have hnext := nextToken_addData h2 h
  rw [hb] at hnext
  have htokens : tokens (nullDataScript data) = ([⟨opReturn,none⟩,⟨UInt8.ofNat data.length,some data⟩],true) := by
    rw [nullDataScript,hb,tokens]
    simp [tokensAux,hret,hnext]
  simp [pushedData,htokens,opReturn]

end OneToken

end DogePeg
