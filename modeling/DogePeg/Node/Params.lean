import DogePeg.Wire

/-!
# Consensus parameters

`chaincfg.Params`, as far as block validation reads them, with the peg reserve that
`withPegReserve` adds. A `PegReserve` carries what `withPegReserve` guarantees about
it: the amount is the positive constant and at least one block pays it.
-/

namespace DogePeg.Node

structure PegReserve where
  pkScript : Script
  amount : Int64
  blocks : Int32
  amount_pos : 0 < amount
  blocks_pos : 0 < blocks

structure Checkpoint where
  height : Int32
  hash : Hash
  deriving DecidableEq

structure Params where
  genesisHash : Hash
  powLimit : ℕ
  powLimitBits : UInt32
  poWNoRetargeting : Bool
  bip0034Height : Int32
  bip0065Height : Int32
  bip0066Height : Int32
  coinbaseMaturity : UInt16
  subsidyReductionInterval : Int32
  noBlockSubsidy : Bool
  /-- Durations are in seconds. -/
  targetTimespan : ℕ
  targetTimePerBlock : ℕ
  retargetAdjustmentFactor : ℕ
  reduceMinDifficulty : Bool
  minDiffReductionTime : ℕ
  enforceBIP94 : Bool
  pegReserve : Option PegReserve

def satoshiPerBitcoin : Int64 := 100000000

/-- `btcutil.MaxSatoshi`: ten billion DOGE, the most one transaction may move. -/
def maxSatoshi : Int64 := 10000000000*satoshiPerBitcoin

def pegReserveAmountPerBlock : Int64 := 9000000000*satoshiPerBitcoin

theorem pegReserveAmountPerBlock_pos : 0 < pegReserveAmountPerBlock := by decide

def baseSubsidy : Int64 := 50*satoshiPerBitcoin

/-- `withPegReserve`, after the address has been decoded to its script. -/
def Params.withPegReserve (p : Params) (pkScript : Script) (blocks : Int32) : Option Params :=
  if h : 0 < blocks then
    let reserve : PegReserve :=
      ⟨pkScript,pegReserveAmountPerBlock,blocks,pegReserveAmountPerBlock_pos,h⟩
    some { p with pegReserve := some reserve }
  else none

def Params.pegReserveAt (p : Params) (height : Int32) : Int64 :=
  match p.pegReserve with
  | none => 0
  | some r => if height < 1 ∨ r.blocks < height then 0 else r.amount

def calcBlockSubsidy (height : Int32) (p : Params) : Int64 :=
  if p.noBlockSubsidy then 0
  else if p.subsidyReductionInterval = 0 then baseSubsidy
  else
    let halvings := height / p.subsidyReductionInterval
    -- a negative count is a huge unsigned shift, and shifting by 64 or more leaves nothing
    if halvings < 0 ∨ 64 ≤ halvings then 0 else baseSubsidy >>> halvings.toInt64

/-- `DogecoinVMMainNetParams`, the fields both networks share. -/
def dogecoinVMParams (genesisHash : Hash) : Params where
  genesisHash := genesisHash
  powLimit := 2^255-1
  powLimitBits := 0x1d00ffff
  poWNoRetargeting := false
  bip0034Height := 0
  bip0065Height := 0
  bip0066Height := 0
  coinbaseMaturity := 0
  subsidyReductionInterval := 210000
  noBlockSubsidy := true
  targetTimespan := 60*60*24*14
  targetTimePerBlock := 60*10
  retargetAdjustmentFactor := 4
  reduceMinDifficulty := true
  minDiffReductionTime := 60*20
  enforceBIP94 := false
  pegReserve := none

theorem toInt_maxSatoshi : maxSatoshi.toInt = 10^18 := by decide

theorem calcBlockSubsidy_off {p : Params} (h : p.noBlockSubsidy=true) (height : Int32) :
    calcBlockSubsidy height p = 0 := by
  simp [calcBlockSubsidy,h]

theorem pegReserveAt_eq {p : Params} {r : PegReserve} (h : p.pegReserve=some r) (height : Int32) :
    p.pegReserveAt height =
      if 1 ≤ height.toInt ∧ height.toInt ≤ r.blocks.toInt then r.amount else 0 := by
  have h1 : height < 1 ↔ height.toInt < 1 := Int32.lt_iff_toInt_lt
  have h2 : r.blocks < height ↔ r.blocks.toInt < height.toInt := Int32.lt_iff_toInt_lt
  simp only [Params.pegReserveAt,h,h1,h2]
  split <;> split <;> first | rfl | omega

end DogePeg.Node
