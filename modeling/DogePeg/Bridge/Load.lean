import DogePeg.Lib.Sums
import DogePeg.Lineage
import DogePeg.Tags

/-!
# What the bridge reads from the chains

`bridge.load` classifies the transactions each node lists for the signer set's
addresses, and `bridge.audit` adds up what is locked and what is owed
(`cmd/dogevm/bridge.go`). A loop of `load` that fills several sums and maps is one
definition for each of them here.
-/

namespace DogePeg

open Amounts Bytes

/-! ## The bridge's settings -/

structure ConfirmationTier where
  upTo : Int64
  confirmations : ℤ
  deriving DecidableEq

/-- The signer set, the policy and the files a bridge process works with. -/
structure Bridge where
  /-- The redeem script of the peg multisig. -/
  redeemScript : Script
  /-- The number of keys in the set, and of signatures it needs. -/
  keys : ℕ
  required : ℕ
  /-- The destinations with a personal deposit address. -/
  registry : List Destination
  minDeposit : Int64
  /-- Zero for no limit. -/
  maxDeposit : Int64
  minPegOut : Int64
  depositConfirmations : ℤ
  confFloor : ℤ
  confirmationTiers : List ConfirmationTier
  /-- Zero for no limit. -/
  maxCirculating : Int64
  maxShallow : Int64
  vmFee : Int64
  dogeFee : Int64
  fenceBumpAfter : ℤ
  /-- The outputs of the contributions file. -/
  listedContribution : OutPoint → Bool

def DestKind.code : DestKind → UInt8
  | .p2pkh => 0
  | .p2sh => 1

section

variable [Hashing] (b : Bridge)

namespace Bridge

/-- `signers.pkScript()`: the reserve's script on DogecoinVM, the peg's on Dogecoin. -/
def script : Script := p2shScript b.redeemScript

def depositRedeemScript (d : Destination) : Script :=
  [0x15,d.kind.code]++toBytes 20 d.hash.toNat++[0x75]++b.redeemScript

/-- `dogeWatchSet`'s map from a personal deposit script to its destination. -/
def depositDest (s : Script) : Option Destination :=
  b.registry.reverse.find? fun d => p2shScript (b.depositRedeemScript d) = s

/-- `redeemFor`: the redeem script of a script the bridge watches on Dogecoin. -/
def redeemFor (s : Script) : Option Script :=
  match b.depositDest s with
  | some d => some (b.depositRedeemScript d)
  | none => if s = b.script then some b.redeemScript else none

def watches (s : Script) : Bool := (b.redeemFor s).isSome

def depositInRange (value : Int64) : Bool :=
  b.minDeposit ≤ value && (b.maxDeposit = 0 || value ≤ b.maxDeposit)

def creditable (dest : Destination) (value : Int64) : Bool :=
  b.depositInRange value && dest.pkScript ≠ b.script

/-- The depth past which a Dogecoin block is not undone: that of the peg's line. -/
def rootDepth : ℤ := max b.depositConfirmations b.confFloor

end Bridge

/-! ## What the nodes answer -/

/-- The transactions `txsFor` returns: each once, in a block or not. -/
structure Listing where
  txs : List ChainTx
  nodup : (txs.map fun t => t.tx.txHash).Nodup
  nonneg : ∀ t∈txs, 0 ≤ t.confirmations

def Listing.empty : Listing := ⟨[],by simp, by simp⟩

abbrev Listing.of (txs : List ChainTx) (nodup : (txs.map fun t => t.tx.txHash).Nodup := by decide +kernel)
    (nonneg : ∀ t∈txs, 0 ≤ t.confirmations := by decide +kernel) : Listing := ⟨txs,nodup,nonneg⟩

structure Nodes where
  vm : Listing
  /-- Whether DogecoinVM's `gettxout` finds an output. -/
  gettxout : OutPoint → Bool
  doge : Listing
  /-- What `conflictedFor` lists. -/
  dogeConflicted : List ChainTx
  /-- What `listunspent` lists for the watched addresses. -/
  dogeUnspent : List Utxo

def spendsAny (tx : MsgTx) (outs : List OutPoint) : Bool := tx.spends.any (· ∈ outs)

def paidTo (script : Script) (tx : MsgTx) : Int64 :=
  total ((tx.txOut.filter fun out => out.pkScript = script).map (·.value))

omit [Hashing] in
theorem paidTo_congr {script : Script} {t u : MsgTx} (h : t.txOut=u.txOut) : paidTo script t = paidTo script u := by
  rw [paidTo,paidTo,h]

/-! ## DogecoinVM -/

structure PegOut where
  txid : Hash
  value : Int64
  dest : Destination
  confirmations : ℤ
  time : ℤ
  deriving DecidableEq

namespace Bridge

variable (txs : List ChainTx)

def reserveOuts : List OutPoint := txs.flatMap fun t => coinPoints b.script t.tx

/-- A transaction that spends the reserve: only the signers can. -/
def vmSigned (t : ChainTx) : Bool := !isCoinbase t.tx && spendsAny t.tx (b.reserveOuts txs)

/-- Any other transaction that is in a block and is not a coinbase. -/
def vmOutside (t : ChainTx) : Bool :=
  !isCoinbase t.tx && !spendsAny t.tx (b.reserveOuts txs) && t.confirmations ≠ 0

def reserveCreated : Int64 :=
  total ((txs.filter fun t => isCoinbase t.tx && 0 < t.confirmations).map fun t => paidTo b.script t.tx)

def released (op : OutPoint) : Option Hash :=
  (txs.reverse.find? fun t => b.vmSigned txs t && parseRelease t.tx = some op).map (·.tx.txHash)

/-- Whether a cancellation of the deposit is listed, and if so whether one is in a block. -/
def cancelled (op : OutPoint) : Option Bool :=
  match txs.filter fun t => b.vmSigned txs t && parseCancel t.tx = some op with
  | [] => none
  | found => some (found.any fun t => 0 < t.confirmations)

def vmUnconfirmed : List ChainTx := txs.filter fun t => b.vmSigned txs t && t.confirmations = 0

def pegOutOf (t : ChainTx) : Option PegOut :=
  match parseDestinationTag t.tx .pegOut with
  | none => none
  | some dest =>
    if dest.pkScript ≠ b.script ∧ b.minPegOut ≤ paidTo b.script t.tx then
      some ⟨t.tx.txHash,paidTo b.script t.tx,dest,t.confirmations,t.time⟩
    else none

def pegOuts : List PegOut := (txs.filter (b.vmOutside txs)).filterMap b.pegOutOf

def unclaimedOnVM : Int64 :=
  total ((txs.filter fun t => b.vmOutside txs t && (b.pegOutOf t).isNone).map fun t => paidTo b.script t.tx)

variable (gettxout : OutPoint → Bool)

/-- `vmChain.unspent`. -/
def vmUnspent : List Utxo :=
  (txs.flatMap (coinsTo b.script)).filter fun u => gettxout u.outPoint

/-- A coin of the reserve that counts: no listed transaction spends it, and it is in a
block or the change of one the signers have sent. -/
def reserveHeld (u : Utxo) : Bool :=
  !(txs.any fun t => u.outPoint ∈ t.tx.spends) &&
    (u.confirmations ≠ 0 || txs.any fun t => b.vmSigned txs t && t.tx.txHash = u.outPoint.hash)

def reserveUnspent : Int64 :=
  total (((b.vmUnspent txs gettxout).filter (b.reserveHeld txs)).map (·.value))

def reserveUTXOs : List Utxo :=
  (b.vmUnspent txs gettxout).filter fun u => b.reserveHeld txs u && 0 < u.confirmations

def reserveLine : Lineage := newLineage txs b.script 1

def reserveAnchor : Option Utxo :=
  (b.reserveLine txs).anchorIn ((b.vmUnspent txs gettxout).filter fun u => 0 < u.confirmations)

end Bridge

/-! ## Dogecoin -/

/-- A payment to the peg: `dest` is `none` where no destination is named (`hasDest`). -/
structure Deposit where
  outPoint : OutPoint
  value : Int64
  dest : Option Destination
  valid : Bool
  confirmations : ℤ
  time : ℤ
  deriving DecidableEq

/-- The transactions the signers have sent, with the actions they settle. -/
structure Payments where
  unconfirmed : List ChainTx
  paid : Hash → Option Hash
  refunded : OutPoint → Option Hash

def Payments.isUnconfirmed (s : Payments) (txid : Hash) : Bool :=
  s.unconfirmed.any fun t => t.tx.txHash = txid

namespace Bridge

variable (txs : List ChainTx)

def watchedOuts : List OutPoint := txs.flatMap fun t => (coinsWhere b.watches t).map (·.outPoint)

def dogeSigned (t : ChainTx) : Bool := spendsAny t.tx (b.watchedOuts txs)

/-- Records `t` as the transaction that settles `key`. If an action has two transactions
listed, the one in a block is the one that counts. -/
def settleBy {κ : Type} [DecidableEq κ] (unconfirmed : List ChainTx) (t : ChainTx)
    (key : Option κ) (m : κ → Option Hash) : κ → Option Hash :=
  match key with
  | none => m
  | some k =>
    if (m k).all fun prev => unconfirmed.any (fun u => u.tx.txHash = prev) && 0 < t.confirmations then
      Function.update m k (some t.tx.txHash)
    else m

/-- The round of `load`'s loop for a transaction of the signers. -/
def addPayment (s : Payments) (t : ChainTx) : Payments :=
  let unconfirmed := if t.confirmations = 0 then s.unconfirmed++[t] else s.unconfirmed
  { unconfirmed := unconfirmed
    paid := settleBy unconfirmed t (parsePayment t.tx) s.paid
    refunded := settleBy unconfirmed t (parseRefund t.tx) s.refunded }

def payments : Payments :=
  (txs.filter (b.dogeSigned txs)).foldl addPayment ⟨[],fun _ => none, fun _ => none⟩

/-- Whether an output of an outsider's transaction is operating capital. -/
def isCapital (t : ChainTx) (p : OutPoint × TxOut) : Bool :=
  (b.depositDest p.2.pkScript).isNone && p.2.pkScript = b.script && (isContribution t.tx || b.listedContribution p.1)

/-- The deposit an output makes. A payout to a personal deposit address is a deposit to it;
the signers' other outputs to the peg are change. -/
def depositOf (signed : Bool) (t : ChainTx) (p : OutPoint × TxOut) : Option Deposit :=
  match b.depositDest p.2.pkScript with
  | some dest => some ⟨p.1,p.2.value,some dest,b.creditable dest p.2.value,t.confirmations,t.time⟩
  | none =>
    if signed || p.2.pkScript ≠ b.script || b.isCapital t p then none
    else
      let tagDest := parseDestinationTag t.tx .deposit
      some ⟨p.1,p.2.value,tagDest,tagDest.any (b.creditable · p.2.value),t.confirmations,t.time⟩

def allDeposits : List Deposit :=
  txs.flatMap fun t => t.tx.outputs.filterMap (b.depositOf (b.dogeSigned txs t) t)

def contributions : List Utxo :=
  (txs.filter fun t => !b.dogeSigned txs t).flatMap fun t =>
    (t.tx.outputs.filter (b.isCapital t)).map fun p => ⟨p.1,p.2.value,p.2.pkScript,t.confirmations⟩

def confirmedCoins : List Utxo := (inBlocks txs).flatMap (coinsWhere b.watches)

def addPending (coins : List Utxo) (acc : List Utxo) (op : OutPoint) : List Utxo :=
  match coins.find? fun u => u.outPoint = op with
  | some c => if acc.any fun u => u.outPoint = op then acc else acc++[c]
  | none => acc

/-- The coins in blocks that the signers' unconfirmed transactions spend, each once. -/
def pendingCoins (unconfirmed : List ChainTx) : List Utxo :=
  (unconfirmed.flatMap fun t => t.tx.spends).foldl (addPending (b.confirmedCoins txs)) []

def pegLine : Lineage := newLineage txs b.script b.rootDepth

end Bridge

/-! ## The state of the peg -/

/-- What `load` has read and classified. -/
structure PegState where
  reserveCreated : Int64
  reserveUnspent : Int64
  reserveUTXOs : List Utxo
  reserveLine : Lineage
  reserveAnchor : Option Utxo
  pegOuts : List PegOut
  unclaimedOnVM : Int64
  released : OutPoint → Option Hash
  cancelled : OutPoint → Option Bool
  vmUnconfirmed : List ChainTx
  paid : Hash → Option Hash
  refunded : OutPoint → Option Hash
  unconfirmed : List ChainTx
  deposits : List Deposit
  held : List Deposit
  settled : List Deposit
  contributions : List Utxo
  contributed : Int64
  unclaimedOnDoge : Int64
  pendingRefunds : Int64
  lockedUTXOs : List Utxo
  pendingCoins : List Utxo
  locked : Int64
  pegLine : Lineage
  pegAnchor : Option Utxo
  pendingFees : Int64
  vmTxs : List ChainTx
  dogeTxs : List ChainTx
  dogeConflicted : List ChainTx

namespace PegState

variable (s : PegState)

def isUnconfirmed (txid : Hash) : Bool := s.unconfirmed.any fun t => t.tx.txHash = txid

def isCancelled (op : OutPoint) : Bool := (s.cancelled op).isSome

end PegState

namespace Bridge

/-- Whether a refund of the deposit is listed: the map gives the zero hash if not. -/
def isRefunded (refunded : OutPoint → Option Hash) (d : Deposit) : Bool :=
  (refunded d.outPoint).getD 0 ≠ 0

def isCredit (cancelled : OutPoint → Option Bool) (d : Deposit) : Bool :=
  d.valid && (cancelled d.outPoint).isNone

/-- `bridge.load`. The order of the deposits and the peg-outs is that of the listing: `load`
sorts them for the coordinator to work through. -/
def load (n : Nodes) : PegState :=
  let released := b.released n.vm.txs
  let cancelled := b.cancelled n.vm.txs
  let payments := b.payments n.doge.txs
  let all := b.allDeposits n.doge.txs
  let settled := all.filter (isRefunded payments.refunded)
  let unsettled := all.filter fun d => !isRefunded payments.refunded d
  let held := unsettled.filter fun d =>
    !isCredit cancelled d && (released d.outPoint).getD 0 = 0
  let pending := b.pendingCoins n.doge.txs payments.unconfirmed
  { reserveCreated := b.reserveCreated n.vm.txs
    reserveUnspent := b.reserveUnspent n.vm.txs n.gettxout
    reserveUTXOs := b.reserveUTXOs n.vm.txs n.gettxout
    reserveLine := b.reserveLine n.vm.txs
    reserveAnchor := b.reserveAnchor n.vm.txs n.gettxout
    pegOuts := b.pegOuts n.vm.txs
    unclaimedOnVM := b.unclaimedOnVM n.vm.txs
    released := released
    cancelled := cancelled
    vmUnconfirmed := b.vmUnconfirmed n.vm.txs
    paid := payments.paid
    refunded := payments.refunded
    unconfirmed := payments.unconfirmed
    deposits := unsettled.filter (isCredit cancelled)
    held := held
    settled := settled
    contributions := b.contributions n.doge.txs
    contributed := total (((b.contributions n.doge.txs).filter fun u => 0 < u.confirmations).map (·.value))
    unclaimedOnDoge := total ((held.filter fun d => 0 < d.confirmations).map (·.value))
    pendingRefunds := total ((settled.filter fun d => 0 < d.confirmations &&
      payments.isUnconfirmed ((payments.refunded d.outPoint).getD 0)).map (·.value))
    lockedUTXOs := n.dogeUnspent
    pendingCoins := pending
    locked := total ((n.dogeUnspent.filter fun u => 0 < u.confirmations).map (·.value))+total (pending.map (·.value))
    pegLine := b.pegLine n.doge.txs
    pegAnchor := (b.pegLine n.doge.txs).anchorIn ((n.dogeUnspent.filter fun u => 0 < u.confirmations)++pending)
    pendingFees := 0
    vmTxs := n.vm.txs
    dogeTxs := n.doge.txs
    dogeConflicted := n.dogeConflicted }

end Bridge

/-! ## The audit -/

structure Audit where
  circulating : Int64
  pendingPegIns : Int64
  pendingPegOuts : Int64
  locked : Int64
  required : Int64
  surplus : Int64
  unclaimedOnDoge : Int64
  unclaimedOnVM : Int64
  contributed : Int64
  pendingRefunds : Int64
  pendingFees : Int64
  deriving DecidableEq

namespace PegState

variable (s : PegState)

def circulating : Int64 := s.reserveCreated-s.reserveUnspent

def pendingPegIns : Int64 :=
  total ((s.deposits.filter fun d => (s.released d.outPoint).isNone && 0 < d.confirmations).map (·.value))

def pendingPegOuts : Int64 :=
  total ((s.pegOuts.filter fun p => (s.paid p.txid).all s.isUnconfirmed).map (·.value))

def owed : Int64 :=
  s.circulating+s.pendingPegIns+s.pendingPegOuts+s.unclaimedOnDoge+s.unclaimedOnVM +
    s.pendingRefunds+s.pendingFees

def audit : Audit where
  circulating := s.circulating
  pendingPegIns := s.pendingPegIns
  pendingPegOuts := s.pendingPegOuts
  locked := s.locked
  required := s.owed
  surplus := s.locked-s.owed
  unclaimedOnDoge := s.unclaimedOnDoge
  unclaimedOnVM := s.unclaimedOnVM
  contributed := s.contributed
  pendingRefunds := s.pendingRefunds
  pendingFees := s.pendingFees

end PegState

def Audit.solvent (a : Audit) : Bool := 0 ≤ a.surplus && 0 ≤ a.circulating

end

def sampleBridge : Bridge where
  redeemScript := [0x51]
  keys := 1
  required := 1
  registry := []
  minDeposit := 1
  maxDeposit := 0
  minPegOut := 1
  depositConfirmations := 1
  confFloor := 1
  confirmationTiers := []
  maxCirculating := 0
  maxShallow := 0
  vmFee := 1
  dogeFee := 1
  fenceBumpAfter := 0
  listedContribution := fun _ => false

end DogePeg
