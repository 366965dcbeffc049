import DogePeg.Lib.Amounts
import DogePeg.Node.Utxo

/-!
# Block validation

`btcd/blockchain/validate.go`: the checks on a block by itself, in the context of the
blocks behind it, and against the UTXO set, put together by
`CheckConnectBlockTemplate`.

What reads scripts, signatures, serialized bytes or version votes is a parameter
(`Rules`): each is a function of what the code passes to it.
-/

namespace DogePeg.Node

open Amounts

structure MsgBlock where
  header : BlockHeader
  transactions : List MsgTx
  deriving DecidableEq

inductive Deployment where
  | csv
  | segwit
  | taproot
  deriving DecidableEq

/-- `txscript.ScriptFlags`, as far as `checkConnectBlock` sets them. -/
structure ScriptFlags where
  bip16 : Bool
  derSignatures : Bool
  checkLockTimeVerify : Bool
  checkSequenceVerify : Bool
  witness : Bool
  taproot : Bool

/-- The functions validation calls that read scripts, bytes or votes. -/
structure Rules where
  blockHash : BlockHeader → Hash
  calcMerkleRoot : List MsgTx → Hash
  /-- `MsgTx.SerializeSizeStripped`. -/
  txSize : MsgTx → ℕ
  /-- `MsgBlock.SerializeSizeStripped`. -/
  blockSize : MsgBlock → ℕ
  /-- `GetBlockWeight`. -/
  blockWeight : MsgBlock → ℕ
  countSigOps : MsgTx → ℕ
  /-- `GetSigOpCost`: the transaction, whether it is the first, the scripts of the
  unspent outputs, and the two soft forks. -/
  getSigOpCost : MsgTx → Bool → (OutPoint → Option Script) → Bool → Bool → Except ChainError ℕ
  /-- `deploymentState(prevNode, id) == ThresholdActive`. -/
  deploymentActive : List BlockNode → Deployment → Except ChainError Bool
  validateWitnessCommitment : MsgBlock → Except ChainError Unit
  /-- `calcSequenceLock` and `SequenceLockActive` for a node and the blocks behind it,
  from the heights of the outputs spent. -/
  sequenceLockActive : List BlockNode → MsgTx → (OutPoint → Option Int32) → Except ChainError Bool
  /-- `checkBlockScripts`, which fetches the outputs spent from the view. -/
  checkBlockScripts : MsgBlock → (OutPoint → Option TxOut) → ScriptFlags → Except ChainError Unit

def maxBlockBaseSize : ℕ := 1000000

def maxBlockWeight : ℕ := 4000000

def maxBlockSigOpsCost : ℕ := 80000

def witnessScaleFactor : ℕ := 4

def minCoinbaseScriptLen : ℕ := 2

def maxCoinbaseScriptLen : ℕ := 100

/-! ## A transaction by itself -/

/-- The loop of `CheckTransactionSanity` over the outputs. -/
def checkOutputValues : Int64 → List TxOut → Except ChainError Unit
  | _, [] => .ok ()
  | totalSatoshi, txOut::txOuts => do
    require (0 ≤ txOut.value) .badTxOutValue
    require (txOut.value ≤ maxSatoshi) .badTxOutValue
    let totalSatoshi := totalSatoshi+txOut.value
    require (0 ≤ totalSatoshi) .badTxOutValue
    require (totalSatoshi ≤ maxSatoshi) .badTxOutValue
    checkOutputValues totalSatoshi txOuts

def isNullOutpoint (op : OutPoint) : Bool := op.index = maxPrevOutIndex && op.hash = 0

def checkTransactionSanity (rules : Rules) (tx : MsgTx) : Except ChainError Unit := do
  require (tx.txIn ≠ []) .noTxInputs
  require (tx.txOut ≠ []) .noTxOutputs
  require (rules.txSize tx ≤ maxBlockBaseSize) .txTooBig
  checkOutputValues 0 tx.txOut
  require tx.spends.Nodup .duplicateTxInputs
  if isCoinbase tx then
    let slen := (tx.txIn.head?.map (·.signatureScript.length)).getD 0
    require (minCoinbaseScriptLen ≤ slen && slen ≤ maxCoinbaseScriptLen) .badCoinbaseScriptLen
  else
    require (tx.spends.all fun op => !isNullOutpoint op) .badTxInput

/-! ## A block by itself -/

/-- The signature operation count of `checkBlockSanity`. -/
def checkSigOps (rules : Rules) : ℕ → List MsgTx → Except ChainError Unit
  | _, [] => .ok ()
  | total, tx::txs => do
    let total := total+rules.countSigOps tx*witnessScaleFactor
    require (total ≤ maxBlockSigOpsCost) .tooManySigOps
    checkSigOps rules total txs

def checkBlockSanity [Hashing] (rules : Rules) (now : ℤ) (block : MsgBlock) : Except ChainError Unit := do
  checkBlockHeaderSanity now block.header
  let txs := block.transactions
  require (txs ≠ []) .noTransactions
  require (txs.length ≤ maxBlockBaseSize) .blockTooBig
  require (rules.blockSize block ≤ maxBlockBaseSize) .blockTooBig
  require ((txs.head?.map isCoinbase).getD false) .firstTxNotCoinbase
  require (txs.tail.all fun tx => !isCoinbase tx) .multipleCoinbases
  txs.forM (checkTransactionSanity rules)
  require (block.header.merkleRoot = rules.calcMerkleRoot txs) .badMerkleRoot
  require (txs.map MsgTx.txHash).Nodup .duplicateTx
  checkSigOps rules 0 txs

/-! ## The height in the coinbase -/

def extractCoinbaseHeight (coinbase : MsgTx) : Except ChainError Int32 :=
  match (coinbase.txIn.head?.map (·.signatureScript)).getD [] with
  | [] => .error (.rule .missingCoinbaseHeight)
  | op::rest =>
    if op = 0 then .ok 0
    else if 0x51 ≤ op ∧ op ≤ 0x60 then .ok (Int32.ofNat (op.toNat-0x50))
    else if rest.length < op.toNat then .error (.rule .missingCoinbaseHeight)
    else
      let height := Int32.ofNat (Bytes.ofBytes ((rest.take op.toNat).take 4).reverse)
      -- compareScript: the script must start with the minimal encoding
      if pushInt height.toInt <+: op::rest then .ok height
      else .error (.rule .badCoinbaseHeight)

def checkSerializedHeight (coinbase : MsgTx) (wantHeight : Int32) : Except ChainError Unit := do
  let height ← extractCoinbaseHeight coinbase
  require (height = wantHeight) .badCoinbaseHeight

/-! ## A block in its context -/

def lockTimeThreshold : ℕ := 500000000

def isFinalizedTransaction (tx : MsgTx) (blockHeight : Int32) (blockTime : ℤ) : Bool :=
  let lockTime := tx.lockTime.toNat
  lockTime = 0 || lockTime < (if lockTime < lockTimeThreshold then blockHeight.toInt else blockTime) ||
    tx.txIn.all fun i => i.sequence = maxTxInSequenceNum

def hasWitness (tx : MsgTx) : Bool := tx.txIn.any fun i => i.witness ≠ []

def nextHeight (prev : List BlockNode) : Int32 := (prev.head?.map (·.height+1)).getD 0

/-- The rule that a block's coinbase starts with its height (BIP0034). -/
def checkCoinbaseHeight (p : Params) (block : MsgBlock) (blockHeight : Int32) : Except ChainError Unit :=
  match block.transactions.head? with
  | some coinbase =>
    if 2 ≤ block.header.version ∧ p.bip0034Height ≤ blockHeight then
      checkSerializedHeight coinbase blockHeight
    else .ok ()
  | none => .ok ()

/-- The rules on witness data, which no block may have before segwit is active. -/
def checkWitness (rules : Rules) (block : MsgBlock) (segwitActive : Bool) : Except ChainError Unit :=
  if segwitActive then do
    rules.validateWitnessCommitment block
    require (rules.blockWeight block ≤ maxBlockWeight) .blockWeightTooHigh
  else
    require (block.transactions.all fun tx => !hasWitness tx) .unexpectedWitness

/-- `checkBlockContext` after `CheckBlockHeaderContext`. -/
def checkBlockContents (rules : Rules) (p : Params) (block : MsgBlock) (prev : List BlockNode) :
    Except ChainError Unit := do
  let csvActive ← rules.deploymentActive prev .csv
  let blockTime := if csvActive then calcPastMedianTime prev else block.header.time
  require (block.transactions.all fun tx => isFinalizedTransaction tx (nextHeight prev) blockTime) .unfinalizedTx
  checkCoinbaseHeight p block (nextHeight prev)
  let segwitActive ← rules.deploymentActive prev .segwit
  checkWitness rules block segwitActive

/-! ## A block against the UTXO set -/

def sumInputs (p : Params) (txHeight : Int32) (view : UtxoView) : Int64 → List OutPoint → Except ChainError Int64
  | totalSatoshiIn, [] => .ok totalSatoshiIn
  | totalSatoshiIn, op::ops =>
    match view.unspent op with
    | none => .error (.rule .missingTxOut)
    | some utxo => do
      require (!utxo.isCoinBase || p.coinbaseMaturity.toNat ≤ (txHeight-utxo.blockHeight).toInt) .immatureSpend
      require (0 ≤ utxo.amount) .badTxOutValue
      require (utxo.amount ≤ maxSatoshi) .badTxOutValue
      let total := totalSatoshiIn+utxo.amount
      require (!(total < totalSatoshiIn) && total ≤ maxSatoshi) .badTxOutValue
      sumInputs p txHeight view total ops

/-- `CheckTransactionInputs`: the fee. -/
def checkTransactionInputs (p : Params) (tx : MsgTx) (txHeight : Int32) (view : UtxoView) : Except ChainError Int64 :=
  if isCoinbase tx then .ok 0
  else do
    let totalSatoshiIn ← sumInputs p txHeight view 0 tx.spends
    let totalSatoshiOut := total (tx.txOut.map (·.value))
    require (totalSatoshiOut ≤ totalSatoshiIn) .spendTooHigh
    .ok (totalSatoshiIn-totalSatoshiOut)

def checkPegReserveOutput (coinbase : MsgTx) (r : PegReserve) : Except ChainError Unit :=
  require (coinbase.txOut.any fun o => o.value = r.amount && o.pkScript = r.pkScript) .badPegReserve

section

variable [Hashing]

/-- The loop of `checkConnectBlock` that collects the fees and connects the
transactions to the view. -/
def connectFees (p : Params) (height : Int32) : UtxoView × Int64 → List MsgTx → Except ChainError (UtxoView × Int64)
  | acc, [] => .ok acc
  | (view,totalFees), tx::txs => do
    let txFee ← checkTransactionInputs p tx height view
    require (!(totalFees+txFee < totalFees)) .badFees
    let view ← view.connectTransaction tx height
    connectFees p height (view,totalFees+txFee) txs

/-- The loop of `checkConnectBlock` over the signature operation costs. -/
def checkSigOpCost (rules : Rules) (view : UtxoView) (bip16 segwit : Bool) :
    Bool → ℕ → List MsgTx → Except ChainError Unit
  | _, _, [] => .ok ()
  | first, total, tx::txs => do
    let cost ← rules.getSigOpCost tx first (fun op => (view.unspent op).map (·.pkScript)) bip16 segwit
    require (total+cost ≤ maxBlockSigOpsCost) .tooManySigOps
    checkSigOpCost rules view bip16 segwit false (total+cost) txs

/-- `checkBIP0030`: no transaction may overwrite an unspent output. -/
def checkBIP0030 (s : UtxoSet) (block : MsgBlock) (view : UtxoView) : Except ChainError UtxoView := do
  let fetch := block.transactions.flatMap fun tx => tx.outputs.map Prod.fst
  let view := view.fetchUtxos s fetch
  require (fetch.all fun op => (view.unspent op).isNone) .overwriteTx
  .ok view

def bip16Activation : ℤ := 1333238400

/-- The two bitcoin blocks of `isBIP0030Node`. -/
def isBIP0030Node (node : BlockNode) : Bool :=
  (node.height = 91842 && node.hash = 0xeccae000e3c8e4e093936360431f3b7603c563c1ff6181390a4d0a0000000000) ||
  (node.height = 91880 && node.hash = 0x21d77ccb4c08386a04ac0196ae10f6a1d2c2a377558ca190f143070000000000)

/-- The coinbase checks of `checkConnectBlock`: its value, and the reserve output at
reserve heights. -/
def checkCoinbase (p : Params) (height : Int32) (coinbase : MsgTx) (totalFees : Int64) : Except ChainError Unit := do
  let totalSatoshiOut := total (coinbase.txOut.map (·.value))
  let pegReserve := p.pegReserveAt height
  require (totalSatoshiOut ≤ calcBlockSubsidy height p+totalFees+pegReserve) .badCoinbaseValue
  match p.pegReserve with
  | some r => if 0 < pegReserve then checkPegReserveOutput coinbase r else .ok ()
  | none => .ok ()

def checkCoinbaseValue (p : Params) (height : Int32) (txs : List MsgTx) (totalFees : Int64) : Except ChainError Unit :=
  match txs with
  | coinbase::_ => checkCoinbase p height coinbase totalFees
  | [] => .error .sliceBounds

def checkSequenceLocks (rules : Rules) (csvActive : Bool) (nodes : List BlockNode)
    (block : MsgBlock) (view : UtxoView) : Except ChainError Unit :=
  if csvActive then
    block.transactions.forM fun tx => do
      let met ← rules.sequenceLockActive nodes tx view.blockHeight
      require met .unfinalizedTx
  else .ok ()

/-- The scripts of a block, which are not run up to the latest checkpoint. -/
def checkScripts (rules : Rules) (p : Params) (cps : Checkpoints) (node : BlockNode)
    (block : MsgBlock) (view : UtxoView) (csv segwit taproot : Bool) : Except ChainError Unit :=
  if ∀ c∈cps.latest, c.height < node.height then
    rules.checkBlockScripts block view.fetchPrevOutput
      { bip16 := bip16Activation ≤ node.timestamp
        derSignatures := 3 ≤ block.header.version && p.bip0066Height ≤ node.height
        checkLockTimeVerify := 4 ≤ block.header.version && p.bip0065Height ≤ node.height
        checkSequenceVerify := csv
        witness := segwit
        taproot := taproot }
  else .ok ()

def checkConnectBlock (rules : Rules) (p : Params) (cps : Checkpoints) (s : UtxoSet)
    (node : BlockNode) (prev : List BlockNode) (block : MsgBlock) (view : UtxoView)
    (blockHeight : Int32) : Except ChainError UtxoView := do
  require (node.hash ≠ p.genesisHash) .missingTxOut
  assertThat (view.bestHash = block.header.prevBlock)
  let view ← if isBIP0030Node node = false ∧ node.height < p.bip0034Height then
      checkBIP0030 s block view else .ok view
  let view := view.fetchInputUtxos s block.transactions blockHeight
  let segwit ← rules.deploymentActive prev .segwit
  checkSigOpCost rules view (bip16Activation ≤ node.timestamp) segwit true 0 block.transactions
  let (view,totalFees) ← connectFees p node.height (view,0) block.transactions
  checkCoinbaseValue p node.height block.transactions totalFees
  let csv ← rules.deploymentActive prev .csv
  checkSequenceLocks rules csv (node::prev) block view
  let taproot ← rules.deploymentActive prev .taproot
  checkScripts rules p cps node block view csv segwit taproot
  .ok { view with bestHash := node.hash }

end

end DogePeg.Node
