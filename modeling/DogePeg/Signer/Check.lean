import DogePeg.Signer.Cutover

/-!
# What a signer signs

`cosigner.check` decides from the signer's own view of both chains whether to sign a
proposal, and `handleSign` records the transaction before it answers
(`cmd/dogevm/cosign.go`, `cmd/dogevm/tiers.go`). The checks run in the source's order; a
change of the log stays also where a later check refuses.
-/

namespace DogePeg

open Amounts Checks

/-- A sign request. `chain` is `none` for a name that is neither chain's. -/
structure SignRequest where
  chain : Option ChainName
  action : Action
  tx : MsgTx
  /-- The fee of a replacement, and zero for a new transaction. -/
  fee : Int64

def Action.isFence : Action → Bool
  | .fence _ => true
  | _ => false

structure Draft where
  chain : ChainName
  want : MsgTx
  redeems : List Script
  value : Int64
  /-- The peg's outputs still unspent in this view, as `permit` reads them. -/
  unspent : List OutPoint
  /-- The fee that comes out of the surplus: a cancellation's and a fence's. -/
  surplusFee : Option Int64
  deriving DecidableEq

/-! ## Depth and caps -/

section

variable [Hashing]

namespace Bridge

variable (b : Bridge)

def confirmationsFor (value : Int64) : ℤ :=
  max ((b.confirmationTiers.find? fun t => value ≤ t.upTo).elim b.depositConfirmations (·.confirmations)) b.confFloor

def shallowCap : Int64 :=
  if 0 < b.maxShallow then b.maxShallow else (b.confirmationTiers.getLast?).elim 0 (·.upTo)

def shallowCredited (s : PegState) : Int64 :=
  total ((s.deposits.filter fun d =>
    (s.released d.outPoint).isSome && d.confirmations < b.depositConfirmations).map (·.value))

def shallowRoom (s : PegState) (d : Deposit) (promised : Int64) : Except Refusal Unit :=
  if b.depositConfirmations ≤ d.confirmations then .ok ()
  else
    let sum := b.shallowCredited s+promised+d.value
    ensure (sum ≤ b.shallowCap) (.shallowCap d.outPoint sum b.shallowCap)

def checkBumpFee (fee oldFee value : Int64) : Except Refusal Unit :=
  ensure (oldFee < fee && fee ≤ 4*b.dogeFee && fee ≤ value / 2) (.bumpFee fee oldFee)

def feeRoom (a : Audit) (fee unseen : Int64) : Except Refusal Unit :=
  let surplus := a.surplus+unseen
  ensure ((fee+unseen)*b.share ≤ surplus) (.feeRoom fee unseen surplus)

end Bridge

def findDeposit (ds : List Deposit) (op : OutPoint) : Option Deposit :=
  ds.find? fun d => d.outPoint = op

def findPegOut (ps : List PegOut) (txid : Hash) : Option PegOut := ps.find? fun p => p.txid = txid

/-! ## The proposal's inputs -/

/-- The loop over a proposal's inputs: unsigned, and each spent once. -/
def checkInputs : List OutPoint → List TxIn → Except Refusal Unit
  | _, [] => .ok ()
  | seen, i::rest => do
    ensure (i.signatureScript = [] && i.witness = []) .inputSigned
    ensure (i.previousOutPoint ∉ seen) (.spendsTwice i.previousOutPoint)
    checkInputs (i.previousOutPoint::seen) rest

/-- `pick`: the proposal's inputs as the coins this signer knows. -/
def pick (tx : MsgTx) (available : List Utxo) : Except Refusal (List Utxo) :=
  tx.spends.mapM fun op => found (available.reverse.find? fun u => u.outPoint = op) (.unknownCoin op)

def spendsAnchor (tx : MsgTx) (anchor : Option Utxo) : Except Refusal Unit := do
  let a ← found anchor .noAnchor
  ensure (tx.spends.head? = some a.outPoint) (.notAnchor a.outPoint)

namespace PegState

variable (s : PegState)

def lineOn : ChainName → Lineage
  | .dogecoin => s.pegLine
  | .dogecoinVM => s.reserveLine

/-- `coinsOf`: the coins of the peg a pending transaction spends. -/
def coinsOf (tx : MsgTx) : List Utxo :=
  tx.spends.filterMap fun op => s.pendingCoins.find? fun u => u.outPoint = op

/-- `unconfirmedFor`: the unconfirmed transaction tagged `data` that pays most, and its fee. -/
def unconfirmedFor (data : List UInt8) : Option (ChainTx × Int64) :=
  ((s.unconfirmed.filter fun t => (opReturnData t.tx).any fun p => p.1++p.2 = data).foldl
    (fun (best : Option ChainTx × Int64) t =>
      let fee := inputsTotal (s.coinsOf t.tx)-total (t.tx.txOut.map (·.value))
      if best.2 < fee then (some t,fee) else best)
    (none,-1)) |> fun best => best.1.map fun t => (t,best.2)

end PegState

namespace SignerView

variable (v : SignerView)

def state : PegState := v.bridge.load v.nodes

def evidence : ChainEvidence := newChainEvidence v.bridge v.state v.confirmedOn

/-- The coins `check` knows of: a logged transaction that spends one may still confirm. -/
def known (op : OutPoint) : Bool :=
  containsOutPoint v.state.lockedUTXOs op || containsOutPoint v.state.reserveUTXOs op

def unseen (log : SigningLog) (key : ActionKey) : Int64 :=
  log.unseenFees v.evidence v.known v.inChain key

/-- The state with the fees this signer has promised and not seen. -/
def stateFor (log : SigningLog) (key : ActionKey) : PegState :=
  { v.state with pendingFees := v.state.pendingFees+v.unseen log key }

/-! ## One action at a time -/

section Drafts

variable (req : SignRequest) (log : SigningLog) (s : PegState)

/-- What the log's other releases of shallow deposits would credit. -/
def promised (op : OutPoint) : Int64 :=
  total ((log.actions.entries.filter fun e => match e.1 with
    | .release other => other ≠ op && (s.released other).isNone &&
        (findDeposit s.deposits other).any fun d => d.confirmations < v.bridge.depositConfirmations
    | _ => false).map fun e => e.2.value)

def draftRelease (op : OutPoint) : Except Refusal Draft := do
  ensure (req.chain = some .dogecoinVM) (.wrongChain req.action.key)
  ensure (s.released op).isNone (.alreadyCredited op ((s.released op).getD 0))
  ensure (s.refunded op).isNone (.alreadyRefunded op ((s.refunded op).getD 0))
  ensure (!s.isCancelled op && !log.has (.cancel op)) (.alreadyCancelled op)
  ensure (!log.has (.refund op)) (.refundSigned op)
  let d ← found (findDeposit s.deposits op) (.noDeposit op)
  let need := v.bridge.confirmationsFor d.value
  ensure (need ≤ d.confirmations) (.tooShallow op d.confirmations need)
  ensure (!(0 < v.bridge.maxCirculating && v.bridge.maxCirculating < s.circulating+d.value)) (.circulatingCap op)
  v.bridge.shallowRoom s d (v.promised log s op)
  spendsAnchor req.tx s.reserveAnchor
  let inputs ← pick req.tx s.reserveUTXOs
  ensure (d.value+pegDust ≤ inputsTotal inputs) .notCovered
  return {
    chain := .dogecoinVM
    want := v.bridge.buildRelease inputs d
    redeems := inputs.map fun _ => v.bridge.redeemScript
    value := d.value
    unspent := (v.bridge.vmUnspent s.vmTxs v.nodes.gettxout).map (·.outPoint)
    surplusFee := none }

/-- Whether the operator approved the refund a cancellation starts. -/
def cancelApproved (op : OutPoint) : Except Refusal Unit :=
  match findDeposit s.deposits op with
  | some _ => ensure (v.forceApproved op) (.notApproved op)
  | none => do
    let d ← found (findDeposit s.held op) (.noDeposit op)
    ensure d.dest.isSome (.noDeposit op)
    ensure (v.refundListed op) (.notApproved op)

def draftCancel (op : OutPoint) : Except Refusal Draft := do
  ensure (req.chain = some .dogecoinVM) (.wrongChain req.action.key)
  ensure (s.released op).isNone (.alreadyCredited op ((s.released op).getD 0))
  ensure (s.refunded op).isNone (.alreadyRefunded op ((s.refunded op).getD 0))
  ensure (!s.isCancelled op) (.alreadyCancelled op)
  let anchor ← found s.reserveAnchor .noAnchor
  ensure (log.releasesDeadOrConflicting v.evidence op anchor.outPoint) (.releaseSigned op)
  v.cancelApproved s op
  spendsAnchor req.tx s.reserveAnchor
  let inputs ← pick req.tx s.reserveUTXOs
  let want ← (v.bridge.buildCancel inputs op).mapError .build
  s.surplusSpendWait v.bridge log
  v.bridge.feeRoom s.audit v.bridge.vmFee (v.unseen log req.action.key)
  return {
    chain := .dogecoinVM
    want := want
    redeems := inputs.map fun _ => v.bridge.redeemScript
    value := 0
    unspent := inputs.map (·.outPoint)
    surplusFee := some v.bridge.vmFee }

/-- A DogecoinVM fence waits for the Dogecoin ones. -/
def fenceWait (chain : ChainName) : Except Refusal Unit :=
  match chain with
  | .dogecoin => .ok ()
  | .dogecoinVM => s.surplusSpendWait v.bridge log

def draftFence (op : OutPoint) : Except Refusal Draft := do
  let chain ← found req.chain (.wrongChain req.action.key)
  let coins ← found (log.cutover chain) (.noCutover chain)
  let fence ← v.bridge.nextFence s chain coins v.now
  let redeems ← v.bridge.fenceRedeems chain fence.inputs
  ensure (fence.tx.spends.head? = some op) .fenceCoin
  v.fenceWait log s chain
  v.bridge.feeRoom s.audit fence.fee (v.unseen log req.action.key)
  return {
    chain := chain
    want := fence.tx
    redeems := redeems
    value := 0
    unspent := fence.tx.spends
    surplusFee := some fence.fee }

/-- What a payout or a refund pays, to whom, and its tag. -/
structure Payment where
  value : Int64
  dest : Destination
  data : List UInt8

def payoutOf (txid : Hash) : Except Refusal Payment := do
  ensure ((s.paid txid).all fun paid => 0 < req.fee && s.isUnconfirmed paid) (.alreadyPaid txid ((s.paid txid).getD 0))
  let p ← found (findPegOut s.pegOuts txid) (.noPegOut txid)
  return ⟨p.value,p.dest,encodePayment p.txid⟩

def refundOf (op : OutPoint) (payee : Option Destination) : Except Refusal Payment := do
  ensure ((s.refunded op).all fun txid => 0 < req.fee && s.isUnconfirmed txid)
    (.alreadyRefunded op ((s.refunded op).getD 0))
  ensure (s.released op).isNone (.alreadyCredited op ((s.released op).getD 0))
  let dest ← found payee .badAddress
  ensure (log.releasesDead v.evidence op) (.releaseSigned op)
  ensure (v.refundApproved op dest) (.notApproved op)
  let d ← found (findDeposit (if (s.refunded op).isSome then s.settled else s.held) op) (.noDeposit op)
  ensure (d.dest.isNone || s.cancelled op = some true) (.notCancelled op)
  let need := v.bridge.confirmationsFor d.value
  ensure (need ≤ d.confirmations) (.tooShallow op d.confirmations need)
  return ⟨d.value,dest,encodeRefund op⟩

def replacementInputs (p : Payment) : Except Refusal (List Utxo) := do
  let (r,oldFee) ← found (s.unconfirmedFor p.data) .nothingToReplace
  ensure (req.tx.spends = r.tx.spends) .otherInputs
  ensure (req.fee = oldFee+v.bridge.dogeFee) (.bumpFee req.fee oldFee)
  v.bridge.checkBumpFee req.fee oldFee p.value
  pick req.tx (s.coinsOf r.tx)

def newInputs : Except Refusal (List Utxo) := do
  spendsAnchor req.tx s.pegAnchor
  pick req.tx (s.lockedUTXOs.filter fun u => 0 < u.confirmations)

def paymentInputs (p : Payment) : Except Refusal (List Utxo) :=
  if 0 < req.fee then v.replacementInputs req s p else newInputs req s

def draftPayment (p : Payment) : Except Refusal Draft := do
  ensure (v.bridge.dogeFee < p.value) .belowFee
  let inputs ← v.paymentInputs req s p
  ensure (p.value ≤ inputsTotal inputs) .notCovered
  let fee := if 0 < req.fee then req.fee else v.bridge.dogeFee
  let want ← (v.bridge.buildPayout inputs p.value p.dest p.data fee).mapError .build
  let redeems ← inputs.mapM fun u => found (v.bridge.redeemFor u.pkScript) (.noRedeem u.outPoint)
  return {
    chain := .dogecoin
    want := want
    redeems := redeems
    value := p.value
    unspent := if 0 < req.fee then inputs.map (·.outPoint) else s.lockedUTXOs.map (·.outPoint)
    surplusFee := none }

/-- The switch of `check`, after the audit. -/
def draft : Except Refusal Draft := do
  ensure s.audit.solvent (.insolvent s.audit)
  match req.action with
  | .release op => v.draftRelease req log s op
  | .cancel op => v.draftCancel req log s op
  | .fence op => v.draftFence req log s op
  | .payout txid => do
    ensure (req.chain = some .dogecoin) (.wrongChain req.action.key)
    v.draftPayment req s (← payoutOf req s txid)
  | .refund op payee => do
    ensure (req.chain = some .dogecoin) (.wrongChain req.action.key)
    v.draftPayment req s (← v.refundOf req log s op payee)

/-- A fence of a cutover starts from the line's tip, whatever the log's anchor was. -/
def anchorCheck (chain : ChainName) : Except Refusal Unit :=
  if req.action.isFence && (log.cutover chain).isSome then .ok ()
  else log.anchorMoved chain req.tx (v.inChain chain) (s.lineOn chain)

/-- What `check` asks of the draft: it is the proposal, and the log permits it. -/
def accepts (d : Draft) : Except Refusal Unit := do
  ensure (d.want = req.tx) .otherTransaction
  log.permit req.action.key d.chain req.tx d.unspent v.evidence (v.inChain d.chain)
  v.anchorCheck req log s d.chain
  ensure (!(0 < v.maxDaily && !log.has req.action.key &&
    v.maxDaily < log.volumeSince (v.unix-86400)+d.value)) .dailyLimit

end Drafts

/-! ## The whole check -/

variable (req : SignRequest)

/-- What `check` asks of a proposal before it reads the chains. -/
def proposal : Except Refusal Unit := do
  ensure (!v.paused || req.action.isFence) .paused
  checkInputs [] req.tx.txIn
  ensure v.registers .registration

/-- The transactions listed on either chain that carry the key's signature and are not in
the log. -/
def unlogged (log : SigningLog) : List Hash :=
  ((v.state.vmTxs++v.state.dogeTxs).filter fun t =>
    v.signedBy t.tx && unsignedHash t.tx ∉ log.txids).map (·.tx.txHash)

/-- `cosigner.fence`: a log older than what the chains show quarantines the signer. -/
def quarantine : Stage Refusal Signer Unit := fun st =>
  if st.quarantined then (.error .quarantined,st)
  else
    let missing := v.unlogged st.log
    if missing = [] then (.ok (),st)
    else (.error (.staleLog missing),{ st with quarantined := v.marks })

/-- An unproven log signs fences first, on both chains, before anything else on either. -/
def gate : Stage Refusal Signer Unit :=
  if req.action.isFence then advanceCutover v v.state else cutoverGate v v.state

def learnSigned : Stage Refusal Signer Unit := fun st =>
  (do
    Signer.modifyLog fun log => log.learned v.evidence
    Signer.writeIf (st.log.learns v.evidence) (v.disk .learn) : Stage Refusal Signer Unit) st

def budgetRoom (d : Draft) : Stage Refusal Signer Unit := fun st =>
  match d.surplusFee with
  | none => (.ok (),st)
  | some fee => cutoverBudgetRoom v (v.stateFor st.log req.action.key) req.action.key fee st

def check : Stage Refusal Signer Draft := do
  Stage.reads fun _ => v.proposal req
  v.quarantine
  v.gate req
  v.learnSigned
  let d ← Stage.reads fun st => v.draft req st.log (v.stateFor st.log req.action.key)
  v.budgetRoom req d
  Stage.reads fun st => v.accepts req st.log v.state d
  return d

/-- `handleSign`: what is signed is in the log before the answer leaves. -/
def handleSign : Stage Refusal Signer Draft := do
  let d ← v.check req
  Signer.modifyLog fun log =>
    log.record req.action.key d.chain req.tx d.value (d.surplusFee.getD 0) v.unix
  Signer.write (v.disk .record)
  return d

end SignerView

end

end DogePeg
