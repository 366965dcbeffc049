import DogePeg.Signer.Log

/-!
# The cutover

A log that cannot show what its key signed before it was kept signs only fences, which
spend every coin of the set back to it, until each coin a lost signature could spend is
spent deep enough (`cmd/dogevm/cutover.go`).
-/

namespace DogePeg

open Amounts Checks Signer

/-! ## What a signer reads -/

inductive WritePoint where
  | start
  | advance
  | learn
  | budget
  | record
  deriving DecidableEq

section

variable [Hashing]

/-- What a signer reads while it answers one request: its settings and files, what its nodes
answer, the clock in nanoseconds, and how its writes end. -/
structure SignerView where
  bridge : Bridge
  /-- The nodes as the last load of the request reads them (`catchUp` may load again). -/
  nodes : Nodes
  /-- Whether a node's UTXO set holds an output. -/
  inChain : ChainName → OutPoint → Bool
  /-- Whether a node has a transaction in a block. -/
  confirmedOn : ChainName → Hash → Bool
  /-- Whether the key is in the signer set, and whether a transaction carries its signature, as
  `SignerSet.signedBy` finds it. -/
  inSet : Bool
  signedBy : MsgTx → Bool
  paused : Bool
  /-- Whether the destinations the request names could be registered. -/
  registers : Bool
  forceApproved : OutPoint → Bool
  refundListed : OutPoint → Bool
  refundApproved : OutPoint → Destination → Bool
  maxDaily : Int64
  now : ℤ
  disk : WritePoint → WriteOutcome
  /-- Whether the quarantine marker can be written. -/
  marks : Bool

def SignerView.unix (v : SignerView) : ℤ := v.now / 1000000000

/-- A signer's share of the surplus is one part in `n - t + 1`. -/
def Bridge.share (b : Bridge) : Int64 := Int64.ofInt (max (b.keys-b.required+1 : ℤ) 1)

/-! ## Coins a lost signature could spend -/

/-- One chain as a cutover reads it. -/
structure ChainView where
  txs : List ChainTx
  conflicted : List ChainTx
  depth : ℤ
  isCoin : Script → Bool

namespace ChainView

variable (w : ChainView)

/-- The depth of the deepest transaction in a block that spends an output. -/
def spentAt (op : OutPoint) : ℤ :=
  (((inBlocks w.txs).filter fun t => op ∈ t.tx.spends).map (·.confirmations)).foldl max 0

/-- The depth of what a conflicted transaction conflicts with. -/
def conflictDepth (hash : Hash) : ℤ :=
  ((w.conflicted.filter fun t => t.tx.txHash = hash).map fun t => -t.confirmations).foldl max 0

def funding (hash : Hash) : Option ChainTx :=
  (w.txs++w.conflicted).reverse.find? fun t => t.tx.txHash = hash

/-- `cleared`: spent deep enough, or its funding transaction conflicted deep enough. -/
def cleared (op : OutPoint) : Bool :=
  w.depth ≤ w.spentAt op || w.depth ≤ w.conflictDepth op.hash

def output (op : OutPoint) : Option TxOut :=
  (w.funding op.hash).bind fun f => f.tx.txOut[op.index.toNat]?

end ChainView

namespace PegState

variable (s : PegState) (b : Bridge)

def view : ChainName → ChainView
  | .dogecoin => ⟨s.dogeTxs,s.dogeConflicted,max s.pegLine.rootDepth 1,b.watches⟩
  | .dogecoinVM => ⟨s.vmTxs,[],1,fun script => script = s.reserveLine.script⟩

/-- The coins of the set a chain's history shows. Outputs of a DogecoinVM transaction not in
a block were never signed for. -/
def shownCoins (chain : ChainName) : List OutPoint :=
  let w := s.view b chain
  ((w.txs++w.conflicted).filter fun t => chain = .dogecoin || 0 < t.confirmations).flatMap
    fun t => (coinsWhere w.isCoin t).map (·.outPoint)

/-- The chain of a logged transaction's input. Entries that name none are looked up. -/
def inputChain (t : LoggedTx) (op : OutPoint) : Option ChainName :=
  t.chain.or ([ChainName.dogecoin,.dogecoinVM].find? fun c => ((s.view b c).funding op.hash).isSome)

def loggedInput (key : ActionKey) (t : LoggedTx) (op : OutPoint) : Except Refusal (ChainName × OutPoint) := do
  let chain ← found (s.inputChain b t op) (.unknownInput key op)
  ensure ((s.view b chain).funding op.hash).isSome (.unknownInput key op)
  return (chain,op)

def loggedInputs (log : SigningLog) : Except Refusal (List (ChainName × OutPoint)) :=
  (log.actions.entries.flatMap fun e => e.2.txs.flatMap fun t => t.inputs.map fun op => (e.1,t,op)).mapM
    fun p => s.loggedInput b p.1 p.2.1 p.2.2

def cutoverCoins (log : SigningLog) : Except Refusal (ChainName → List OutPoint) := do
  let logged ← s.loggedInputs b log
  return fun chain =>
    (s.shownCoins b chain++(logged.filter fun p => p.1 = chain).map Prod.snd).filter
      fun op => !(s.view b chain).cleared op

def tipOf (chain : ChainName) (line : Lineage) : Except Refusal (Option OutPoint) :=
  match line.tip with
  | .error why => .error (.noTip chain why)
  | .ok t => .ok (t.map (·.tip))

def tips : Except Refusal (ChainName → Option OutPoint) := do
  let doge ← tipOf .dogecoin s.pegLine
  let vm ← tipOf .dogecoinVM s.reserveLine
  return fun
    | .dogecoin => doge
    | .dogecoinVM => vm

end PegState

namespace SigningLog

def inCutover (log : SigningLog) : Bool :=
  (log.cutover .dogecoin).isSome || (log.cutover .dogecoinVM).isSome

/-- `cutoverLeft`: the recorded coins not yet cleared. -/
def cutoverLeft (log : SigningLog) (s : PegState) (b : Bridge) (chain : ChainName) : List OutPoint :=
  ((log.cutover chain).getD []).filter fun op => !(s.view b chain).cleared op

/-- The chains whose recorded coins are not all cleared stay in the cutover. -/
def cutoverAfter (log : SigningLog) (s : PegState) (b : Bridge) (chain : ChainName) : Option (List OutPoint) :=
  if log.cutoverLeft s b chain = [] then none else log.cutover chain

end SigningLog

section Stages

variable (v : SignerView) (s : PegState)

def startCutover : Stage Refusal Signer Unit := do
  let coins ← Stage.reads fun st => do
    ensure v.inSet .notInSet
    ensure (st.log.history = .unproven) .laterCutover
    s.cutoverCoins v.bridge st.log
  modifyLog fun log => { log with
    cutover := fun chain => some ((log.cutover chain).getD []++coins chain).dedup
    cutoverEpoch := log.cutoverEpoch+1
    cutoverStarted := v.unix }
  write (v.disk .start)

/-- The end of a cutover: the log is fenced, and its anchors are the tips. -/
def fenceLog : Stage Refusal Signer Unit := do
  modifyLog fun log => { log with cutover := fun _ => none, history := .fenced }
  let tips ← Stage.reads fun _ => s.tips
  modifyLog fun log => { log with anchors := fun chain => (tips chain).or (log.anchors chain) }

/-- The second half of `advanceCutover`: the chains whose coins are all cleared leave. -/
def endCutover : Stage Refusal Signer Unit := fun st =>
  let after := st.log.cutoverAfter s v.bridge
  if ∀ chain∈[ChainName.dogecoin,.dogecoinVM], after chain = st.log.cutover chain then (.ok (),st)
  else if ∀ chain∈[ChainName.dogecoin,.dogecoinVM], after chain = none then
    (do fenceLog s; write (v.disk .advance) : Stage Refusal Signer Unit) st
  else
    (do
      modifyLog fun log => { log with cutover := after }
      write (v.disk .advance) : Stage Refusal Signer Unit) st

def advanceCutover : Stage Refusal Signer Unit := fun st =>
  if st.log.history = .unproven ∧ !st.log.inCutover then
    if v.inSet then (do startCutover v s; endCutover v s : Stage Refusal Signer Unit) st
    else (.ok (),st)
  else endCutover v s st

def cutoverGate : Stage Refusal Signer Unit := do
  advanceCutover v s
  Stage.reads fun st => ensure (!st.log.unproven) (.inCutover fun chain => (st.log.cutoverLeft s v.bridge chain).length)

end Stages

/-! ## Fences -/

def isFenceOf (t : ChainTx) (recorded : List OutPoint) : Bool :=
  (parseFence t.tx).isSome && t.tx.spends.any (· ∈ recorded)

namespace PegState

variable (s : PegState) (b : Bridge)

def coinValue (chain : ChainName) (op : OutPoint) : Option Int64 :=
  ((s.view b chain).output op).map (·.value)

/-- What a fence pays, and -1 if an input is unknown. -/
def fenceFeeOf (chain : ChainName) (tx : MsgTx) : Int64 :=
  match tx.spends.mapM (s.coinValue b chain) with
  | none => -1
  | some values => total values-total (tx.txOut.map (·.value))

/-- The unconfirmed fence that pays most, and whether one is in a block short of depth. -/
def fenceState (chain : ChainName) (recorded : List OutPoint) : Option ChainTx × Bool :=
  let w := s.view b chain
  let fences := w.txs.filter fun t => isFenceOf t recorded
  ((fences.filter fun t => t.confirmations = 0).foldl (fun best t => match best with
        | none => some t
        | some p => if s.fenceFeeOf b chain p.tx < s.fenceFeeOf b chain t.tx then some t else some p)
      none,
    fences.any fun t => t.confirmations ≠ 0 && t.confirmations < w.depth)

def isSetFence (tx : MsgTx) : Bool :=
  (parseFence tx).isSome && tx.spends.any fun op =>
    ((s.view b .dogecoin).output op).any fun out => b.watches out.pkScript

def unsettledDogeFence : Option ChainTx :=
  let w := s.view b .dogecoin
  (w.txs.find? fun t => t.confirmations < w.depth && s.isSetFence b t.tx).or
    (w.conflicted.find? fun t => -t.confirmations < w.depth && s.isSetFence b t.tx)

def surplusSpendWait (log : SigningLog) : Except Refusal Unit := do
  let left := log.cutoverLeft s b .dogecoin
  ensure (left = []) (.dogeCutoverLeft left.length)
  match s.unsettledDogeFence b with
  | some t => .error (.unsettledFence t.tx.txHash)
  | none => .ok ()

def pendingOn : ChainName → List ChainTx
  | .dogecoin => s.unconfirmed
  | .dogecoinVM => s.vmUnconfirmed

def anchorOn : ChainName → Option Utxo
  | .dogecoin => s.pegAnchor
  | .dogecoinVM => s.reserveAnchor

def freeOn : ChainName → List Utxo
  | .dogecoin => s.lockedUTXOs.filter fun u => 0 < u.confirmations
  | .dogecoinVM => s.reserveUTXOs

/-- The anchor, unless a fence in the mempool spends it: that is left to its replacement. -/
def freeAnchor (chain : ChainName) : Option Utxo :=
  (s.anchorOn chain).filter fun a => containsOutPoint (s.freeOn chain) a.outPoint

def fenceOrder (chain : ChainName) : Except Refusal (List Utxo) := do
  ensure ((s.pendingOn chain).all fun t => (parseFence t.tx).isSome) (.transactionPending chain)
  let rest := (s.freeOn chain).filter fun u => (s.freeAnchor chain).all fun a => u.outPoint ≠ a.outPoint
  return (s.freeAnchor chain).toList++rest.insertionSort fun u v => olderCoin u v

def maxFenceInputs : ChainName → ℕ
  | .dogecoin => 100
  | .dogecoinVM => 400

def fenceInputs (chain : ChainName) (recorded : List OutPoint) : Except Refusal (List Utxo) := do
  let order ← s.fenceOrder chain
  let inputs := order.take (maxFenceInputs chain)
  ensure (inputs.any fun u => u.outPoint ∈ recorded) (.nothingRecorded chain)
  return inputs

end PegState

def varIntLen (n : ℕ) : ℕ := if n < 0xfd then 1 else if n ≤ 0xffff then 3 else 5

def pushLen (n : ℕ) : ℕ := if n < 76 then 1 else if n ≤ 0xff then 2 else 3

/-- The size of a signed input: the signatures at their largest, and the redeem script. -/
def fenceInputSize (required : ℕ) (redeem : Script) : ℕ :=
  let script := 1+required*(1+73)+pushLen redeem.length+redeem.length
  36+varIntLen script+script+4

def fenceSize (redeems : List Script) (required : ℕ) : ℕ :=
  4+varIntLen redeems.length+1+4+(redeems.map (fenceInputSize required)).sum +
    (8+1+23)+(8+1+2+4+36)

def fenceFee (chain : ChainName) (base : Int64) (size : ℕ) : Int64 :=
  match chain with
  | .dogecoinVM => max base ((Int64.ofNat size*base+249) / 250)
  | .dogecoin => base*max 1 ((Int64.ofNat size+9999) / 10000)

def maxFenceBytes : ℕ := 90000

/-- The loop of `trimToSize`: each round drops at least one input. -/
def trimToSize (size : List Utxo → Except Refusal ℕ) : ℕ → List Utxo → Except Refusal (List Utxo)
  | 0, inputs => .ok inputs
  | n+1, inputs =>
    if inputs.length ≤ 1 then .ok inputs
    else size inputs >>= fun bytes =>
      if bytes ≤ maxFenceBytes then .ok inputs
      else trimToSize size n (inputs.take (max 1 (min (inputs.length*maxFenceBytes / bytes) (inputs.length-1))))

namespace Bridge

variable (b : Bridge)

def fenceBase : ChainName → Int64
  | .dogecoin => b.dogeFee
  | .dogecoinVM => b.vmFee

def buildFence (chain : ChainName) (inputs : List Utxo) (fee : Int64) : Except BuildError MsgTx :=
  match inputs with
  | [] => .error .nothingToFence
  | first::_ => do
    let sum := inputsTotal inputs
    ensure (pegDust ≤ sum-fee) (.inputsHold sum fee)
    let sequence := match chain with
      | .dogecoin => replaceable
      | .dogecoinVM => maxTxInSequenceNum
    return newTx txVersion sequence inputs ⟨sum-fee,b.script⟩ none (encodeFence first.outPoint)

def fenceRedeems (chain : ChainName) (inputs : List Utxo) : Except Refusal (List Script) :=
  match chain with
  | .dogecoinVM => .ok (inputs.map fun _ => b.redeemScript)
  | .dogecoin => inputs.mapM fun u => found (b.redeemFor u.pkScript) (.noRedeem u.outPoint)

def fenceSizeOf (chain : ChainName) (inputs : List Utxo) : Except Refusal ℕ := do
  let redeems ← b.fenceRedeems chain inputs
  return fenceSize redeems b.required

structure BuiltFence where
  tx : MsgTx
  inputs : List Utxo
  fee : Int64

def fenceOf (chain : ChainName) (inputs : List Utxo) (fee : Int64) : Except Refusal BuiltFence := do
  let tx ← (b.buildFence chain inputs fee).mapError .build
  return ⟨tx,inputs,fee⟩

/-- `nextFence` where one is pending: its replacement, once it has waited. -/
def replaceFence (s : PegState) (chain : ChainName) (pending : ChainTx) (now : ℤ) : Except Refusal BuiltFence := do
  ensure (chain = .dogecoin) (.fencePending chain)
  ensure (0 < b.fenceBumpAfter) .bumpOff
  ensure (b.fenceBumpAfter ≤ now-pending.time*1000000000) .bumpWait
  let inputs ← pending.tx.spends.mapM fun op =>
    found (s.pendingCoins.find? fun u => u.outPoint = op) (.pendingCoin op)
  let size ← b.fenceSizeOf chain inputs
  b.fenceOf chain inputs (s.fenceFeeOf b chain pending.tx+fenceFee chain (b.fenceBase chain) size)

def nextFence (s : PegState) (chain : ChainName) (recorded : List OutPoint) (now : ℤ) : Except Refusal BuiltFence :=
  match s.fenceState b chain recorded with
  | (some pending,_) => b.replaceFence s chain pending now
  | (none,shallow) => do
    ensure (!shallow) (.fenceShallow chain)
    let all ← s.fenceInputs chain recorded
    let inputs ← trimToSize (b.fenceSizeOf chain) all.length all
    ensure (inputs.any fun u => u.outPoint ∈ recorded) (.nothingRecorded chain)
    let size ← b.fenceSizeOf chain inputs
    b.fenceOf chain inputs (fenceFee chain (b.fenceBase chain) size)

end Bridge

/-! ## The lifetime budget -/

/-- What `addFenceCapital` makes of a budget and the contributions counted in it. -/
structure Budget where
  budget : Int64
  capital : List OutPoint

namespace Budget

/-- The share of a contribution, once it is deep and if it was not counted before. -/
def add (share : Int64) (deep : ℤ) (w : Budget) (u : Utxo) : Budget :=
  if u.outPoint ∈ w.capital ∨ u.confirmations < deep then w
  else ⟨w.budget+u.value / share,w.capital++[u.outPoint]⟩

/-- The budget the first time: a share of the surplus less the contributions not yet deep. -/
def first (share : Int64) (deep : ℤ) (surplus : Int64) (contributions : List Utxo) : Budget :=
  let shallow := contributions.filter fun u => 0 < u.confirmations && u.confirmations < deep
  ⟨max (surplus-total (shallow.map (·.value))) 0 / share,
    (contributions.filter fun u => deep ≤ u.confirmations).map (·.outPoint)⟩

def isUnset (w : Budget) : Bool := w.budget = 0 && w.capital = []

/-- `addFenceCapital`. -/
def grow (share : Int64) (deep : ℤ) (surplus : Int64) (contributions : List Utxo) (w : Budget) : Budget :=
  contributions.foldl (add share deep) (if w.isUnset then first share deep surplus contributions else w)

end Budget

def cutoverBudgetRoom (v : SignerView) (s : PegState) (key : ActionKey) (fee : Int64) :
    Stage Refusal Signer Unit := fun st =>
  if st.log.cutoverEpoch = 0 then (.ok (),st)
  else
    let old : Budget := ⟨st.log.fenceBudget,st.log.fenceCapital⟩
    let new := old.grow v.bridge.share s.pegLine.rootDepth s.audit.surplus s.contributions
    (do
      modifyLog fun log => { log with fenceBudget := new.budget,fenceCapital := new.capital }
      writeIf (old.isUnset || new.capital ≠ old.capital) (v.disk .budget)
      Stage.reads fun st =>
        let spent := st.log.fenceFees key fee
        ensure (spent ≤ st.log.fenceBudget) (.fenceBudget spent st.log.fenceBudget)
      : Stage Refusal Signer Unit) st

end

end DogePeg
