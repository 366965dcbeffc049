import DogePeg.Bridge.Build
import DogePeg.LineConfluence
import Mathlib.Data.List.AList

/-!
# The signing log

A signer writes every transaction it signs to its log, under the action it does
(`signingLog` in `cmd/dogevm/cosign.go`), and reads from its nodes what has become of
them (`cmd/dogevm/evidence.go`). The log decides whether another transaction for the
action may be signed (`permit`), and with which coin first (`anchorMoved`).
-/

namespace DogePeg

open Amounts Checks

inductive ChainName where
  | dogecoin
  | dogecoinVM
  deriving DecidableEq, Repr

/-- What a proposal asks for. A refund names its payee, if it parses. -/
inductive Action where
  | release (deposit : OutPoint)
  | payout (pegOut : Hash)
  | refund (deposit : OutPoint) (dest : Option Destination)
  | cancel (deposit : OutPoint)
  | fence (coin : OutPoint)
  deriving DecidableEq

inductive ActionKey where
  | release (deposit : OutPoint)
  | payout (pegOut : Hash)
  | refund (deposit : OutPoint)
  | cancel (deposit : OutPoint)
  | fence (coin : OutPoint)
  deriving DecidableEq

def Action.key : Action → ActionKey
  | .release op => .release op
  | .payout txid => .payout txid
  | .refund op _ => .refund op
  | .cancel op => .cancel op
  | .fence op => .fence op

/-- Why a signer refuses a proposal: one case for each message of `check`, with what the
message names. -/
inductive Refusal where
  | paused
  | inputSigned
  | spendsTwice (op : OutPoint)
  | registration
  | quarantined
  | staleLog (missing : List Hash)
  | notInSet
  | laterCutover
  | unknownInput (key : ActionKey) (op : OutPoint)
  | noTip (chain : ChainName) (why : LineageError)
  | inCutover (left : ChainName → ℕ)
  | insolvent (a : Audit)
  | wrongChain (key : ActionKey)
  | alreadyCredited (op : OutPoint) (txid : Hash)
  | alreadyRefunded (op : OutPoint) (txid : Hash)
  | alreadyPaid (pegOut txid : Hash)
  | alreadyCancelled (op : OutPoint)
  | refundSigned (op : OutPoint)
  | releaseSigned (op : OutPoint)
  | noDeposit (op : OutPoint)
  | noPegOut (txid : Hash)
  | tooShallow (op : OutPoint) (confirmations need : ℤ)
  | circulatingCap (op : OutPoint)
  | shallowCap (op : OutPoint) (total limit : Int64)
  | noAnchor
  | notAnchor (anchor : OutPoint)
  | unknownCoin (op : OutPoint)
  | notCovered
  | notApproved (op : OutPoint)
  | badAddress
  | notCancelled (op : OutPoint)
  | belowFee
  | nothingToReplace
  | otherInputs
  | bumpFee (fee oldFee : Int64)
  | build (why : BuildError)
  | noRedeem (op : OutPoint)
  | dogeCutoverLeft (coins : ℕ)
  | unsettledFence (fence : Hash)
  | feeRoom (fee unseen surplus : Int64)
  | fenceBudget (spent budget : Int64)
  | noCutover (chain : ChainName)
  | fencePending (chain : ChainName)
  | bumpOff
  | bumpWait
  | pendingCoin (op : OutPoint)
  | fenceShallow (chain : ChainName)
  | transactionPending (chain : ChainName)
  | nothingRecorded (chain : ChainName)
  | fenceCoin
  | otherTransaction
  | inBlock (key : ActionKey)
  | alongside (key : ActionKey)
  | noLogAnchor (chain : ChainName)
  | line (why : LineageError)
  | anchorUnspent (chain : ChainName) (op : OutPoint)
  | anchorGone (chain : ChainName) (op : OutPoint)
  | trailTooLong (chain : ChainName)
  | dailyLimit
  | writing

/-! ## The log -/

/-- A transaction as it was signed: `txid` is its identifier without signatures and `signed`
the ones it was seen under. Older entries name no chain. -/
structure LoggedTx where
  txid : Hash
  signed : List Hash
  inputs : List OutPoint
  chain : Option ChainName
  fee : Int64
  deriving DecidableEq

structure LoggedAction where
  value : Int64
  first : ℤ
  txs : List LoggedTx
  deriving DecidableEq

/-- What a log proves about the key's past signatures. -/
inductive LogHistory where
  | unproven
  | new
  | fenced
  deriving DecidableEq

structure SigningLog where
  actions : AList fun _ : ActionKey => LoggedAction
  anchors : ChainName → Option OutPoint
  history : LogHistory
  /-- The coins recorded when the current cutover began, for each chain still in it. -/
  cutover : ChainName → Option (List OutPoint)
  cutoverEpoch : ℕ
  cutoverStarted : ℤ
  fenceBudget : Int64
  fenceCapital : List OutPoint

namespace SigningLog

variable (log : SigningLog)

def has (key : ActionKey) : Bool := (log.actions.lookup key).isSome

def txs : List LoggedTx := log.actions.entries.flatMap fun e => e.2.txs

def txids : List Hash := log.txs.map (·.txid)

def volumeSince (t : ℤ) : Int64 :=
  total ((log.actions.entries.filter fun e => t ≤ e.2.first).map fun e => e.2.value)

def unproven : Bool :=
  log.history = .unproven || (log.cutover .dogecoin).isSome || (log.cutover .dogecoinVM).isSome

end SigningLog

variable [Hashing]

/-- `record`: the transaction under its action, and its first input as the chain's anchor. -/
def SigningLog.record (log : SigningLog) (key : ActionKey) (chain : ChainName) (tx : MsgTx)
    (value fee : Int64) (now : ℤ) : SigningLog :=
  let a := (log.actions.lookup key).getD ⟨value,now,[]⟩
  let entry : LoggedTx := ⟨tx.txHash,[],tx.spends,some chain,if 0 < fee then fee else 0⟩
  { log with
    anchors := tx.spends.head?.elim log.anchors fun op => Function.update log.anchors chain (some op)
    actions := log.actions.insert key { a with txs := a.txs++[entry] } }

/-! ## Memory and file -/

/-- How a write of the log ends: the file replaced for good; the old one left; or the new
one in place but its directory not synced, so that a crash may bring the old one back. -/
inductive WriteOutcome where
  | done
  | notRenamed
  | notSynced
  deriving DecidableEq

/-- A signer: its log in memory, and what the log's file may hold after a crash, the file
it would read now first. -/
structure Signer where
  log : SigningLog
  files : List SigningLog
  quarantined : Bool

namespace Signer

def modifyLog (f : SigningLog → SigningLog) : Stage Refusal Signer Unit :=
  Stage.modifies fun st => { st with log := f st.log }

def write (outcome : WriteOutcome) : Stage Refusal Signer Unit := fun st =>
  match outcome with
  | .done => (.ok (),{ st with files := [st.log] })
  | .notRenamed => (.error .writing,st)
  | .notSynced => (.error .writing,{ st with files := st.log::st.files })

def writeIf (changed : Bool) (outcome : WriteOutcome) : Stage Refusal Signer Unit :=
  if changed then write outcome else pure ()

end Signer

/-! ## What the chains show of it -/

/-- `chainEvidence`: the listed transactions, whether a node has one in a block, and the
depth past which a Dogecoin block is final. -/
structure ChainEvidence where
  listed : ChainName → List ChainTx
  confirmedOn : ChainName → Hash → Bool
  deep : ℤ

namespace ChainEvidence

variable (e : ChainEvidence) (chain : Option ChainName) (t : LoggedTx)

def listing : List ChainTx := chain.elim [] e.listed

/-- The node asked about an entry: DogecoinVM's, unless the entry names Dogecoin. -/
def node : ChainName := chain.getD .dogecoinVM

/-- The transaction listed under an unsigned identifier: of several, the deepest. -/
def listedAs (id : Hash) : Option ChainTx :=
  ((e.listing chain).filter fun t => unsignedHash t.tx = id).foldl (fun best t => match best with
      | none => some t
      | some prev => if prev.confirmations < t.confirmations then some t else some prev)
    none

/-- The listed transactions that stand for their unsigned identifier. -/
def byID : List ChainTx :=
  (e.listing chain).filter fun t => e.listedAs chain (unsignedHash t.tx) = some t

def confirmed : Bool :=
  (e.listedAs chain t.txid).any (fun lt => 0 < lt.confirmations) ||
    t.signed.any (e.confirmedOn (node chain)) || e.confirmedOn (node chain) t.txid

def shallow : Bool :=
  chain = some .dogecoin && 1 < e.deep && (e.listedAs chain t.txid).all fun lt => lt.confirmations < e.deep

def spentDeep (op : OutPoint) : Bool :=
  let need := if chain = some .dogecoin ∧ 1 < e.deep then e.deep else 1
  (e.byID chain).any fun lt =>
    unsignedHash lt.tx ≠ t.txid && need ≤ lt.confirmations && op ∈ lt.tx.spends

def spentElsewhere : Bool :=
  (e.byID chain).any fun lt =>
    0 < lt.confirmations && unsignedHash lt.tx ≠ t.txid && lt.tx.spends.any (· ∈ t.inputs)

/-- The identifiers a logged transaction is listed under, added to those known. -/
def learn : LoggedTx :=
  [ChainName.dogecoinVM,ChainName.dogecoin].foldl (fun t c => match e.listedAs (some c) t.txid with
      | some lt => if lt.tx.txHash ∈ t.signed then t else { t with signed := t.signed++[lt.tx.txHash] }
      | none => t)
    t

end ChainEvidence

/-- `newChainEvidence`, with the depth `check` sets. -/
def newChainEvidence (b : Bridge) (s : PegState) (confirmedOn : ChainName → Hash → Bool) : ChainEvidence where
  listed
    | .dogecoin => s.dogeTxs
    | .dogecoinVM => s.vmTxs
  confirmedOn := confirmedOn
  deep := max b.rootDepth 1

namespace SigningLog

variable (log : SigningLog) (ev : ChainEvidence)

/-- Whether the chains list a transaction of the log under an identifier new to it. -/
def learns : Bool := log.txs.any fun t => ev.learn t ≠ t

def learned : SigningLog :=
  { log with actions :=
    ⟨log.actions.entries.map fun e => ⟨e.1,{ e.2 with txs := e.2.txs.map ev.learn }⟩, by
      have h := log.actions.nodupKeys
      rw [List.NodupKeys,List.keys] at h ⊢
      rwa [List.map_map]⟩ }

def releasesDead (op : OutPoint) : Bool :=
  (log.actions.lookup (.release op)).all fun a => a.txs.all fun t =>
    !ev.confirmed (some .dogecoinVM) t && ev.spentElsewhere (some .dogecoinVM) t

def releasesDeadOrConflicting (op anchor : OutPoint) : Bool :=
  (log.actions.lookup (.release op)).all fun a => a.txs.all fun t =>
    !ev.confirmed (some .dogecoinVM) t && (ev.spentElsewhere (some .dogecoinVM) t || anchor ∈ t.inputs)

end SigningLog

/-! ## Fees that can still confirm -/

def LoggedAction.worst (a : LoggedAction) : Int64 := (a.txs.map (·.fee)).foldl max 0

section UnseenFees

variable (ev : ChainEvidence) (known : OutPoint → Bool) (inChain : ChainName → OutPoint → Bool)

/-- Whether each input is there, or not gone for good. -/
def liveFee (t : LoggedTx) : Bool :=
  t.inputs.all fun op =>
    known op || inChain (ChainEvidence.node t.chain) op || !ev.spentDeep t.chain t op

/-- What an action reserves of the surplus: once one alternative is in a block, only the
difference to the costliest, while that block can be undone. -/
def LoggedAction.unseen (a : LoggedAction) : Int64 :=
  match a.txs.find? fun t => 0 < t.fee && ev.confirmed t.chain t with
  | some t => if ev.shallow t.chain t then max (a.worst-t.fee) 0 else 0
  | none =>
    a.txs.foldl (fun most t =>
        if t.fee ≤ 0 || t.fee ≤ most then most
        else if liveFee ev known inChain t then t.fee else most)
      0

def SigningLog.unseenFees (log : SigningLog) (except : ActionKey) : Int64 :=
  total ((log.actions.entries.filter fun e => e.1 ≠ except).map fun e => e.2.unseen ev known inChain)

end UnseenFees

/-- `fenceFees`: every surplus fee the log ever signed, with `fee` for the action `key`. -/
def SigningLog.fenceFees (log : SigningLog) (key : ActionKey) (fee : Int64) : Int64 :=
  let entries := log.actions.entries.filter fun e => match e.1 with
    | .fence _ | .cancel _ => true
    | _ => false
  let sum := total (entries.map fun e => if e.1 = key then max e.2.worst fee else e.2.worst)
  if entries.any fun e => e.1 = key then sum else sum+fee

/-! ## What the log permits -/

section Permit

variable (log : SigningLog) (key : ActionKey) (chain : ChainName) (tx : MsgTx)

def SigningLog.permit (unspent : List OutPoint) (ev : ChainEvidence) (inChain : OutPoint → Bool) :
    Except Refusal Unit :=
  match log.actions.lookup key with
  | none => .ok ()
  | some a => do
    ensure (!a.txs.any (ev.confirmed (some chain))) (.inBlock key)
    ensure (a.txs.all fun prev =>
      !(prev.inputs.all fun op => op ∈ unspent || inChain op) || prev.inputs.any (· ∈ tx.spends)) (.alongside key)

/-- The loop of `anchorMoved`. -/
def anchorTrail (inChain : OutPoint → Bool) (line : Lineage) (want : OutPoint) : ℕ → OutPoint → Except Refusal Unit
  | 0, _ => .error (.trailTooLong chain)
  | n+1, cur =>
    if cur = want then .ok ()
    else match line.next cur with
      | .error why => .error (.line why)
      | .ok none => .error (if inChain cur then .anchorUnspent chain cur else .anchorGone chain cur)
      | .ok (some nxt) => anchorTrail inChain line want n nxt

/-- `anchorMoved`: the line leads from the anchor last signed with to the proposal's. -/
def SigningLog.anchorMoved (inChain : OutPoint → Bool) (line : Lineage) : Except Refusal Unit :=
  match tx.spends.head? with
  | none => .ok ()
  | some want =>
    match log.anchors chain with
    | none => .error (.noLogAnchor chain)
    | some last => anchorTrail chain inChain line want (line.coins.length+2) last

end Permit

open Walk

theorem leads_of_anchorTrail {chain : ChainName} {inChain : OutPoint → Bool} {line : Lineage}
    {want cur : OutPoint} {n : ℕ} (h : anchorTrail chain inChain line want n cur = .ok ()) :
    Leads line.nextCoin cur want := by
  induction n generalizing cur with
  | zero => cases h
  | succ n ih =>
    rw [anchorTrail] at h
    split at h
    · next heq => exact heq ▸ Leads.refl _ _
    · split at h
      · cases h
      · cases h
      · next nxt hnext => exact Leads.head (Lineage.nextCoin_of_next_ok hnext) (ih h)

theorem SigningLog.leads_of_anchorMoved {log : SigningLog} {chain : ChainName} {tx : MsgTx}
    {inChain : OutPoint → Bool} {line : Lineage} {want : OutPoint}
    (h : log.anchorMoved chain tx inChain line = .ok ()) (hwant : tx.spends.head? = some want) :
    ∃ last, log.anchors chain = some last ∧ Leads line.nextCoin last want := by
  simp only [anchorMoved,hwant] at h
  split at h
  · cases h
  · next last hlast => exact ⟨last,hlast,leads_of_anchorTrail h⟩

end DogePeg
