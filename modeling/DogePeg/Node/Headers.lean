import DogePeg.Node.Params
import DogePeg.Lib.Checks
import Mathlib.Data.List.Sort
import Mathlib.Data.Nat.Size

/-!
# Block headers, difficulty and checkpoints

The header rules of `btcd/blockchain`: the difficulty a block must claim, the past
median time, the checkpoints, and `CheckBlockHeaderContext`, which puts them
together. A node and the blocks behind it are a list, the node first, so that
following `parent` is taking the tail.
-/

namespace DogePeg.Node

open Checks

/-- `wire.BlockHeader`. The wire format keeps the time as a `uint32` of seconds. -/
structure BlockHeader where
  version : Int32
  prevBlock : Hash
  merkleRoot : Hash
  timestamp : UInt32
  bits : UInt32
  nonce : UInt32
  deriving DecidableEq

def BlockHeader.time (h : BlockHeader) : ℤ := h.timestamp.toNat

/-- `blockNode`. Its parent and the blocks behind it are the rest of the list it heads. -/
structure BlockNode where
  hash : Hash
  workSum : ℤ
  height : Int32
  bits : UInt32
  timestamp : ℤ
  deriving DecidableEq

inductive ErrorCode where
  | duplicateBlock | blockTooBig | blockWeightTooHigh | blockVersionTooOld
  | timeTooOld | timeTooNew | difficultyTooLow | unexpectedDifficulty
  | badMerkleRoot | badCheckpoint | forkTooOld | checkpointTimeTooOld
  | noTransactions | noTxInputs | noTxOutputs | txTooBig | badTxOutValue
  | duplicateTxInputs | badTxInput | missingTxOut | unfinalizedTx | duplicateTx
  | overwriteTx | immatureSpend | spendTooHigh | badFees | tooManySigOps
  | firstTxNotCoinbase | multipleCoinbases | badCoinbaseScriptLen | badCoinbaseValue
  | missingCoinbaseHeight | badCoinbaseHeight | scriptMalformed | scriptValidation
  | unexpectedWitness | invalidWitnessCommitment | witnessCommitmentMismatch
  | previousBlockUnknown | invalidAncestorBlock | prevBlockNotBest | timewarpAttack
  | badPegReserve
  deriving DecidableEq

/-- What block processing fails with: a broken rule, or an error that is not one. -/
inductive ChainError where
  | rule (code : ErrorCode)
  | assertion
  | database
  /-- A slice index out of range: the process stops. -/
  | sliceBounds
  deriving DecidableEq

def require (ok : Bool) (code : ErrorCode) : Except ChainError Unit :=
  if ok then .ok () else .error (.rule code)

@[simp] theorem require_eq_ok {ok : Bool} {code : ErrorCode} {u : Unit} : require ok code = .ok u ↔ ok = true := by
  cases ok <;> simp [require]

def assertThat (ok : Bool) : Except ChainError Unit := if ok then .ok () else .error .assertion

theorem forM_eq_ok {α : Type} {f : α → Except ChainError Unit} {l : List α} :
    l.forM f = .ok () ↔ ∀ a∈l, f a = .ok () := by
  induction l with
  | nil => simp [pure,Except.pure]
  | cons a l ih =>
    change (f a >>= fun _ => l.forM f) = .ok () ↔ _
    rw [bind_eq_ok,exists_unit,ih,List.forall_mem_cons]

/-! ## Difficulty -/

def compactToBig (compact : UInt32) : ℤ :=
  let mantissa := compact.toNat % 2^23
  let exponent := compact.toNat / 2^24
  let n : ℕ := if exponent ≤ 3 then mantissa / 2^(8*(3-exponent))
    else mantissa*2^(8*(exponent-3))
  if compact.toNat / 2^23 % 2 = 1 then -n else n

def bigToCompact (n : ℤ) : UInt32 :=
  if n = 0 then 0
  else
    let exponent := (n.natAbs.size+7) / 8
    let mantissa := if exponent ≤ 3 then n.natAbs*2^(8*(3-exponent))
      else (n / 2^(8*(exponent-3))).natAbs
    let (mantissa,exponent) :=
      if mantissa / 2^23 % 2 = 1 then (mantissa / 2^8,exponent+1) else (mantissa,exponent)
    UInt32.ofNat (exponent*2^24+mantissa+if n < 0 then 2^23 else 0)

def calcWork (bits : UInt32) : ℤ :=
  let target := compactToBig bits
  if target ≤ 0 then 0 else 2^256 / (target+1)

namespace Params

variable (p : Params)

def blocksPerRetarget : Int32 := Int32.ofNat (p.targetTimespan / p.targetTimePerBlock)

def minRetargetTimespan : ℤ := p.targetTimespan / p.retargetAdjustmentFactor

def maxRetargetTimespan : ℤ := p.targetTimespan*p.retargetAdjustmentFactor

/-- The loop of `calcEasiestDifficulty`: one adjustment per elapsed retarget span. -/
def easeTarget : ℕ → ℤ → ℤ → ℤ
  | 0, _, target => target
  | fuel+1, duration, target =>
    if 0 < duration ∧ target < p.powLimit then
      easeTarget fuel (duration-p.maxRetargetTimespan) (target*p.retargetAdjustmentFactor)
    else target

def calcEasiestDifficulty (bits : UInt32) (duration : ℤ) : UInt32 :=
  if p.reduceMinDifficulty ∧ p.minDiffReductionTime < duration then p.powLimitBits
  else bigToCompact (min (p.easeTarget duration.toNat duration (compactToBig bits)) p.powLimit)

def findPrevTestNetDifficulty : List BlockNode → UInt32
  | [] => p.powLimitBits
  | node::behind =>
    if node.height % p.blocksPerRetarget ≠ 0 ∧ node.bits = p.powLimitBits then
      findPrevTestNetDifficulty behind
    else node.bits

def calcNextRequiredDifficulty (prev : List BlockNode) (newBlockTime : ℤ) : Except ChainError UInt32 :=
  if p.poWNoRetargeting then .ok p.powLimitBits
  else match prev with
    | [] => .ok p.powLimitBits
    | lastNode::_ =>
      if (lastNode.height+1) % p.blocksPerRetarget ≠ 0 then
        if p.reduceMinDifficulty then
          if lastNode.timestamp+p.minDiffReductionTime < newBlockTime then .ok p.powLimitBits
          else .ok (p.findPrevTestNetDifficulty prev)
        else .ok lastNode.bits
      else
        let first := lastNode.height-(p.blocksPerRetarget-1)
        match if first < 0 then none else prev.find? (·.height = first) with
        | none => .error .assertion
        | some firstNode =>
          let actual := lastNode.timestamp-firstNode.timestamp
          let adjusted := max p.minRetargetTimespan (min actual p.maxRetargetTimespan)
          let oldTarget := compactToBig (if p.enforceBIP94 then firstNode.bits else lastNode.bits)
          .ok (bigToCompact (min (oldTarget*adjusted / p.targetTimespan) p.powLimit))

end Params

/-! ## Past median time -/

def medianTimeBlocks : ℕ := 11

def calcPastMedianTime (prev : List BlockNode) : ℤ :=
  let timestamps := ((prev.take medianTimeBlocks).map (·.timestamp)).insertionSort (· ≤ ·)
  timestamps.getD (timestamps.length / 2) 0

/-- `newBlockNode`, for a header whose hash is `hash`. -/
def newBlockNode (hash : Hash) (header : BlockHeader) (prev : List BlockNode) : BlockNode where
  hash := hash
  workSum := calcWork header.bits+(prev.head?.map (·.workSum)).getD 0
  height := (prev.head?.map (·.height+1)).getD 0
  bits := header.bits
  timestamp := header.time

/-! ## Checkpoints -/

/-- The checkpoints of a `BlockChain`. `blockchain.New` refuses a list that is not
sorted by height above the genesis block. -/
structure Checkpoints where
  list : List Checkpoint
  sorted : list.Pairwise (fun a b => a.height < b.height)
  pos : ∀ c∈list, 0 < c.height

/-- What `findPreviousCheckpoint` caches between calls: `checkpointNode` and
`nextCheckpoint`. -/
structure CheckpointCache where
  checkpointNode : Option BlockNode
  nextCheckpoint : Option Checkpoint
  deriving DecidableEq

namespace Checkpoints

variable (cps : Checkpoints)

/-- `LatestCheckpoint`. -/
def latest : Option Checkpoint := cps.list.getLast?

/-- `verifyCheckpoint`. -/
def verify (height : Int32) (hash : Hash) : Bool :=
  match cps.list.find? (·.height = height) with
  | none => true
  | some c => c.hash = hash

/-- The checkpoint that follows the last one of that hash in the list. -/
def after (hash : Hash) : Option Checkpoint :=
  (cps.list.reverse.takeWhile (·.hash ≠ hash)).getLast?

/-- `findPreviousCheckpoint`, for a best chain (its tip first) and an index in which
`lookupNode` finds nodes by hash. -/
def findPrevious (bestChain : List BlockNode) (lookupNode : Hash → Option BlockNode)
    (cache : CheckpointCache) : Except ChainError (Option BlockNode) × CheckpointCache :=
  match cps.list with
  | [] => (.ok none,cache)
  | firstCheckpoint::_ =>
    match cache.checkpointNode, cache.nextCheckpoint with
    | none, none =>
      -- the first search: the latest checkpoint that is on the best chain
      match cps.list.reverse.findSome? fun c => bestChain.find? (·.hash = c.hash) with
      | some node => (.ok (some node),⟨some node,cps.after node.hash⟩)
      | none => (.ok none,⟨none,some firstCheckpoint⟩)
    | node, none => (.ok node,cache)
    | node, some next =>
      if (bestChain.head?.map (·.height)).getD 0 < next.height then (.ok node,cache)
      else match lookupNode next.hash with
        | none => (.error .assertion,cache)
        | some found => (.ok (some found),⟨some found,cps.after next.hash⟩)

end Checkpoints

/-! ## Header rules -/

def maxTimeOffsetSeconds : ℤ := 2*60*60

def maxTimeWarp : ℤ := 600

/-- `CheckBlockHeaderSanity`: proof of work is not checked, and a decoded time has no
fraction of a second. -/
def checkBlockHeaderSanity (now : ℤ) (header : BlockHeader) : Except ChainError Unit :=
  require (header.time ≤ now+maxTimeOffsetSeconds) .timeTooNew

/-- The checks of `CheckBlockHeaderContext` that come before the checkpoints. -/
def checkHeaderRules (p : Params) (header : BlockHeader) (prev : List BlockNode) : Except ChainError Unit := do
  let blockHeight := (prev.head?.map (·.height+1)).getD 0
  let expected ← p.calcNextRequiredDifficulty prev header.time
  require (header.bits = expected) .unexpectedDifficulty
  require (calcPastMedianTime prev < header.time) .timeTooOld
  require (!p.enforceBIP94 || blockHeight % p.blocksPerRetarget ≠ 0 ||
    (prev.head?.map (·.timestamp)).getD 0-maxTimeWarp ≤ header.time) .timewarpAttack
  require (!((header.version < 2 && p.bip0034Height ≤ blockHeight) ||
    (header.version < 3 && p.bip0066Height ≤ blockHeight) ||
    (header.version < 4 && p.bip0065Height ≤ blockHeight))) .blockVersionTooOld

/-- `CheckBlockHeaderContext` up to its call of `findPreviousCheckpoint`. -/
def checkHeaderBeforeCheckpoint (p : Params) (cps : Checkpoints) (hash : Hash)
    (header : BlockHeader) (prev : List BlockNode) : Except ChainError Unit := do
  checkHeaderRules p header prev
  require (cps.verify ((prev.head?.map (·.height+1)).getD 0) hash) .badCheckpoint

/-- The end of `CheckBlockHeaderContext`: no block may fork off before the checkpoint. -/
def checkForkAge (checkpointNode : Option BlockNode) (blockHeight : Int32) : Except ChainError Unit :=
  require (match checkpointNode with
    | none => true
    | some node => node.height ≤ blockHeight) .forkTooOld

end DogePeg.Node
