import DogePeg.Bridge.Payouts
import DogePeg.Quorum.Chain
import DogePeg.Signer.LogFile

/-!
# Payments and their replacements

A payout or a refund that stays unconfirmed is replaced by one that pays more (`bumpStuck`), which a
signer approves against the payment with the highest fee it lists, from its own view of the coins.
Whatever views the signers have, the payments of a series differ in the fee alone, as long as the
wallet reads the coins of the first for what they are worth: a replacement is built from what they are.
-/

namespace DogePeg

open Amounts Checks Node Text List PegState SignerView Bridge

variable {op : OutPoint} {value : Int64}

/-! ## The approvals file -/

def fields (line : List Char) : List (List Char) := (line.splitOnP isSpace).filter fun word => word ≠ []

inductive ApprovalError where
  | noFile
  | unreadable
  | unknownWord (op : OutPoint) (word : List Char)
  | badAddress (op : OutPoint)
  | otherAddress (op : OutPoint)
  | notListed (op : OutPoint)

/-- The third word of a line, which may only force the refund. -/
def forceWord (op : OutPoint) : Option (List Char) → Except ApprovalError Bool
  | none => .ok false
  | some word => if word = "force".toList then .ok true else .error (.unknownWord op word)

/-- `refundApproved`, of the file as it reads and with `decode` for the addresses: whether the line for
the deposit names the destination, and if so whether it is forced. -/
def refundApproved (decode : List Char → Option Destination) (file : Except ApprovalError (List Char))
    (op : OutPoint) (dest : Destination) : Except ApprovalError Bool := do
  let raw ← file
  let line := ((raw.splitOn '\n').map fields).find? fun f =>
    2 ≤ f.length && f.length ≤ 3 && !(f.head?.any fun word => word.head? = some '#') && f.head? = some (outPointText op)
  let f ← found line (.notListed op)
  let force ← forceWord op f[2]?
  let approved ← found (f[1]?.bind decode) (.badAddress op)
  ensure (approved = dest) (.otherAddress op)
  return force

theorem refundApproved_unique {decode : List Char → Option Destination} {file : Except ApprovalError (List Char)}
    {dest dest' : Destination} {force force' : Bool} (h : refundApproved decode file op dest = .ok force)
    (h' : refundApproved decode file op dest' = .ok force') : dest = dest' := by
  simp only [refundApproved,checks_ok,decide_eq_true_eq] at h h'
  obtain ⟨raw,hraw,f,hf,_,-,approved,happroved,rfl,-⟩ := h
  obtain ⟨raw',hraw',f',hf',_,-,approved',happroved',rfl,-⟩ := h'
  cases hraw.symm.trans hraw'
  cases hf.symm.trans hf'
  exact Option.some.inj (happroved.symm.trans happroved')

section

variable [Hashing]

/-! ## The highest fee listed -/

namespace PegState

/-- The fee of a transaction, from the coins of the peg it spends as far as they are pending. -/
def listedFee (s : PegState) (tx : MsgTx) : Int64 := inputsTotal (s.coinsOf tx)-total (tx.txOut.map (·.value))

def Tagged (data : List UInt8) (tx : MsgTx) : Prop :=
  ((opReturnData tx).any fun p => p.1++p.2 = data) = true

variable {s : PegState} {data : List UInt8} {r : ChainTx} {fee : Int64}

omit [Hashing] in
theorem unconfirmedFor_some (h : s.unconfirmedFor data=some (r,fee)) :
    r ∈ s.unconfirmed ∧ Tagged data r.tx ∧ fee = s.listedFee r.tx ∧ 0 ≤ fee.toInt ∧
      ∀ t∈s.unconfirmed, Tagged data t.tx → s.listedFee t.tx ≤ fee := by
  -- the best so far, among those gone through
  let round (best : Option ChainTx × Int64) (t : ChainTx) : Option ChainTx × Int64 :=
    if best.2 < s.listedFee t.tx then (some t,s.listedFee t.tx) else best
  have hfold (l : List ChainTx) : -1 ≤ (l.foldl round (none,-1)).2 ∧
      (∀ t∈l, s.listedFee t.tx ≤ (l.foldl round (none,-1)).2) ∧ ∀ t, (l.foldl round (none,-1)).1 = some t →
        t ∈ l ∧ (l.foldl round (none,-1)).2 = s.listedFee t.tx ∧ -1 < (l.foldl round (none,-1)).2 := by
    induction l using List.reverseRecOn with
    | nil => simp
    | append_singleton l t ih =>
      obtain ⟨hlo,hmax,hsome⟩ := ih
      rw [foldl_append,foldl_cons,foldl_nil]
      generalize l.foldl round (none,-1) = best at hlo hmax hsome ⊢
      simp only [round]
      split
      · next hlt =>
        refine ⟨(Int64.le_of_lt (Int64.lt_of_le_of_lt hlo hlt)),fun u hu => ?_, ?_⟩
        · rcases mem_append.mp hu with hu | hu
          · exact Int64.le_of_lt (Int64.lt_of_le_of_lt (hmax u hu) hlt)
          · rw [mem_singleton.mp hu]
            exact Int64.le_refl _
        · rintro u ⟨⟩
          exact ⟨mem_append_right _ (mem_singleton_self _),rfl,Int64.lt_of_le_of_lt hlo hlt⟩
      · next hle =>
        refine ⟨hlo,fun u hu => ?_, fun u hu => ?_⟩
        · rcases mem_append.mp hu with hu | hu
          · exact hmax u hu
          · rw [mem_singleton.mp hu]
            exact Int64.not_lt.mp hle
        · obtain ⟨hmem,hfee,hlo'⟩ := hsome u hu
          exact ⟨mem_append_left _ hmem,hfee,hlo'⟩
  obtain ⟨-,hmax,hsome⟩ := hfold (s.unconfirmed.filter fun t => (opReturnData t.tx).any fun p => p.1++p.2 = data)
  obtain ⟨t,ht,heq⟩ := Option.map_eq_some_iff.mp h
  obtain ⟨rfl,rfl⟩ := Prod.mk.inj heq
  obtain ⟨hmem,hfee,hlo⟩ := hsome t ht
  obtain ⟨hlisted,htag⟩ := mem_filter.mp hmem
  refine ⟨hlisted,htag,hfee,?_,fun u hu htag' => hmax u (mem_filter.mpr ⟨hu,htag'⟩)⟩
  have := Int64.lt_iff_toInt_lt.mp hlo
  have hminus : (-1 : Int64).toInt = -1 := by decide
  change 0 ≤ (List.foldl round (none,-1) _).2.toInt
  omega

end PegState

/-! ## What an approval pays -/

/-- The tag of the payments an action is settled by. -/
def paymentTag : ActionKey → Option (List UInt8)
  | .payout txid => some (encodePayment txid)
  | .refund op => some (encodeRefund op)
  | _ => none

/-- A request that `check` approves, in the view of some signer. -/
structure Approval where
  view : SignerView
  request : SignRequest
  before : Signer
  after : Signer
  draft : Draft
  approved : view.check request before = (.ok draft,after)

def Approval.fee (a : Approval) : Int64 := if 0 < a.request.fee then a.request.fee else a.view.bridge.dogeFee

/-- The coin is an output of one of the transactions there are. -/
def KnownCoin (U : List MsgTx) (u : Utxo) : Prop := ∃ t∈U, (u.outPoint,⟨u.value,u.pkScript⟩)∈t.outputs

/-- An approval for an action: by a signer of the set with the fee of `b` and the approvals `approves`,
whose nodes answer with transactions out of `U`. -/
structure Approval.Of (U : List MsgTx) (b : Bridge) (approves : OutPoint → Destination → Bool)
    (key : ActionKey) (a : Approval) : Prop where
  key : a.request.action.key = key
  redeemScript : a.view.bridge.redeemScript = b.redeemScript
  dogeFee : a.view.bridge.dogeFee = b.dogeFee
  approvals : a.view.refundApproved = approves
  listed : ∀ t∈a.view.nodes.vm.txs++a.view.nodes.doge.txs, t.tx∈U
  coins : ∀ u∈a.view.nodes.dogeUnspent, ∃ c, KnownCoin U c ∧ u = c.read

/-- The wallet reads the coins that the request spends for what they are worth. -/
def Approval.ReadsExactly (U : List MsgTx) (a : Approval) : Prop :=
  ∀ t∈U, ∀ p∈t.outputs, p.1∈a.request.tx.spends → readAmount p.2.value = p.2.value

inductive OwedFor (U : List MsgTx) (b : Bridge) (approves : OutPoint → Destination → Bool) :
    ActionKey → SignerView.Payment → Prop where
  | payout {t dest} (mem : t∈U) (tag : parseDestinationTag t .pegOut=some dest) :
      OwedFor U b approves (.payout t.txHash) ⟨paidTo b.script t,dest,encodePayment t.txHash⟩
  | refund {t op out dest} (mem : t∈U)
      (output : (op,out)∈t.outputs) (approved : approves op dest=true) :
      OwedFor U b approves (.refund op) ⟨out.value,dest,encodeRefund op⟩

/-- The outputs of a payment out of coins worth `sum`. -/
def Bridge.paymentOutputs (b : Bridge) (sum : Int64) (p : SignerView.Payment) (fee : Int64) : List TxOut :=
  [⟨p.value-fee-(payoutChange (sum-p.value)).2,p.dest.pkScript⟩,
    ⟨(payoutChange (sum-p.value)).1,b.script⟩,nullData p.data]

section Values

variable {U : List MsgTx} {b : Bridge} {approves : OutPoint → Destination → Bool} {key : ActionKey}
  {p p' : SignerView.Payment} {u u' : Utxo} {inputs inputs' : List Utxo}

theorem output_unique (hU : CollisionFree U) {t t' : MsgTx} {out out' : TxOut} (ht : t∈U)
    (ht' : t'∈U) (h : (op,out)∈t.outputs) (h' : (op,out')∈t'.outputs) : out = out' := by
  rw [← outputs_eq_of_strip (strip_eq_of_output hU ht ht' h h')] at h'
  exact congrArg Prod.snd (inj_on_of_nodup_map t.nodup_outputs_keys h h' rfl)

theorem KnownCoin.value_eq (hU : CollisionFree U) (h : KnownCoin U u) (h' : KnownCoin U u')
    (hop : u.outPoint=u'.outPoint) : u.value = u'.value := by
  obtain ⟨t,ht,hout⟩ := h
  obtain ⟨t',ht',hout'⟩ := h'
  exact congrArg TxOut.value (output_unique hU ht ht' (hop ▸ hout) hout')

theorem inputsTotal_eq (hU : CollisionFree U) (h : ∀ u∈inputs, KnownCoin U u) (h' : ∀ u∈inputs', KnownCoin U u)
    (hops : inputs.map (·.outPoint)=inputs'.map (·.outPoint)) : inputsTotal inputs = inputsTotal inputs' := by
  induction inputs generalizing inputs' with
  | nil =>
    obtain rfl := map_eq_nil_iff.mp hops.symm
    rfl
  | cons u inputs ih =>
    cases inputs' with
    | nil => cases hops
    | cons u' inputs' =>
      obtain ⟨hop,hops⟩ := List.cons.inj hops
      rw [inputsTotal_cons,inputsTotal_cons,(h u (mem_cons_self ..)).value_eq hU (h' u' (mem_cons_self ..)) hop,
        ih (fun v hv => h v (mem_cons_of_mem _ hv)) (fun v hv => h' v (mem_cons_of_mem _ hv)) hops]

theorem OwedFor.unique (hU : CollisionFree U)
    (hone : ∀ op dest dest', approves op dest = true → approves op dest' = true → dest = dest')
    (h : OwedFor U b approves key p) (h' : OwedFor U b approves key p') : p = p' := by
  cases h with
  | @payout t dest mem tag =>
    generalize hkey : ActionKey.payout t.txHash = key at h'
    cases h' with
    | @payout t' dest' mem' tag' =>
      have hhash := ActionKey.payout.inj hkey
      have hout := txOut_eq_of_strip (hU t mem t' mem' hhash)
      rw [parseDestinationTag,opReturnData_congr hout] at tag
      cases tag.symm.trans tag'
      rw [paidTo_congr hout,hhash]
    | refund => cases hkey
  | @refund t op out dest mem output approved =>
    cases h' with
    | @refund t' _ out' dest' mem' output' approved' =>
      rw [output_unique hU mem mem' output output',hone op dest dest' approved approved']

theorem total_paymentOutputs (b : Bridge) (sum : Int64) (p : SignerView.Payment) (fee : Int64) :
    sum-total ((b.paymentOutputs sum p fee).map (·.value)) = fee := by
  have hchange := payoutChange_eq (sum-p.value)
  have hdata : (nullData p.data).value = 0 := rfl
  simp only [paymentOutputs,total_eq_sum,map_cons,map_nil,sum_cons,sum_nil,hchange,hdata]
  abel

end Values

namespace SignerView

variable {v : SignerView} {req : SignRequest} {log : SigningLog} {s : PegState} {draft : Draft} {p : Payment}

theorem draftPayment_built (h : v.draftPayment req s p = .ok draft) : ∃ inputs, v.bridge.dogeFee < p.value ∧
    v.paymentInputs req s p = .ok inputs ∧ v.bridge.buildPayout inputs p.value p.dest p.data
      (if 0 < req.fee then req.fee else v.bridge.dogeFee) = .ok draft.want ∧ draft.value = p.value := by
  simp only [draftPayment,checks_ok,decide_eq_true_eq] at h
  obtain ⟨hfee,inputs,hinputs,-,want,hwant,redeems,-,rfl⟩ := h
  exact ⟨inputs,hfee,hinputs,hwant,rfl⟩

theorem replacementInputs_ok {inputs : List Utxo} (h : v.replacementInputs req s p = .ok inputs) :
    ∃ r oldFee, s.unconfirmedFor p.data = some (r,oldFee) ∧ req.tx.spends = r.tx.spends ∧
      req.fee = oldFee+v.bridge.dogeFee ∧ (oldFee < req.fee ∧ req.fee ≤ 4*v.bridge.dogeFee) ∧
      req.fee ≤ p.value / 2 ∧ Picks req.tx (s.coinsOf r.tx) inputs := by
  simp only [replacementInputs,checkBumpFee,checks_ok,Prod.exists,decide_eq_true_eq,Bool.and_eq_true] at h
  obtain ⟨r,oldFee,hr,hspends,hfee,⟨hbounds,hhalf⟩,hpick⟩ := h
  exact ⟨r,oldFee,hr,hspends,hfee,hbounds,hhalf,pick_ok hpick⟩

theorem refundOf_approved {payee : Option Destination} (h : v.refundOf req log s op payee = .ok p) :
    v.refundApproved op p.dest = true := by
  simp only [refundOf,checks_ok] at h
  obtain ⟨-,-,dest,-,-,happroved,d,-,-,-,rfl⟩ := h
  exact happroved

theorem draft_payment {data : List UInt8} (h : v.draft req log s = .ok draft)
    (htag : paymentTag req.action.key=some data) : ∃ p, v.draftPayment req s p = .ok draft ∧
      ((∃ txid, req.action.key = .payout txid ∧ payoutOf req s txid = .ok p) ∨
        ∃ op payee, req.action.key = .refund op ∧ v.refundOf req log s op payee = .ok p) := by
  unfold SignerView.draft at h
  simp only [checks_ok] at h
  obtain ⟨-,h⟩ := h
  cases haction : req.action with
  | payout txid =>
    rw [haction] at h
    simp only [checks_ok] at h
    obtain ⟨-,p,hp,hpay⟩ := h
    exact ⟨p,hpay,.inl ⟨txid,rfl,hp⟩⟩
  | refund op payee =>
    rw [haction] at h
    simp only [checks_ok] at h
    obtain ⟨-,p,hp,hpay⟩ := h
    exact ⟨p,hpay,.inr ⟨op,payee,rfl,hp⟩⟩
  | release op | cancel op | fence op =>
    rw [haction] at htag
    cases htag

end SignerView

namespace Approval

variable {U : List MsgTx} {b : Bridge} {approves : OutPoint → Destination → Bool} {key : ActionKey} {a : Approval}
  {p : SignerView.Payment} {data : List UInt8}

theorem Of.script (h : a.Of U b approves key) : a.view.bridge.script = b.script := by
  rw [Bridge.script,Bridge.script,h.redeemScript]

theorem Of.owed (h : a.Of U b approves key) {log : SigningLog} {k : ActionKey}
    (hp : (∃ txid, a.request.action.key = .payout txid ∧
        SignerView.payoutOf a.request (a.view.stateFor log k) txid = .ok p) ∨
      ∃ op payee, a.request.action.key = .refund op ∧
        a.view.refundOf a.request log (a.view.stateFor log k) op payee = .ok p) : OwedFor U b approves key p := by
  rcases hp with ⟨txid,hkey,hp⟩ | ⟨op,payee,hkey,hp⟩
  · rw [← h.key,hkey]
    obtain ⟨-,peg,hpeg,rfl,rfl⟩ := payoutOf_ok hp
    obtain ⟨t,ht,hpeg⟩ := mem_filterMap.mp (show peg ∈ a.view.bridge.pegOuts a.view.nodes.vm.txs from hpeg)
    have hmem := h.listed t (mem_append_left _ (mem_of_mem_filter ht))
    rw [a.view.bridge.pegOutOf_txid hpeg,a.view.bridge.pegOutOf_value hpeg,h.script]
    exact .payout hmem (a.view.bridge.pegOutOf_dest hpeg)
  · rw [← h.key,hkey]
    obtain ⟨d,hd⟩ := refundOf_ok hp
    have happroved := refundOf_approved hp
    rw [h.approvals] at happroved
    have hall : d∈a.view.bridge.allDeposits a.view.nodes.doge.txs := by
      have hmem := hd.deposit
      split at hmem
      · exact mem_of_mem_filter hmem
      · exact mem_of_mem_filter (mem_of_mem_filter hmem)
    obtain ⟨t,ht,hdt⟩ := mem_flatMap.mp hall
    obtain ⟨out,hout,hdo⟩ := mem_filterMap.mp hdt
    obtain ⟨hop,hvalue,-⟩ := a.view.bridge.depositOf_eq hdo
    have howed := OwedFor.refund (b := b) (h.listed t (mem_append_right _ ht))
      (show (op,out.2)∈t.tx.outputs by rw [← hd.outPoint,hop]; exact hout) happroved
    rw [← hvalue,← hd.value,← hd.data] at howed
    exact howed

/-- What an approval pays, out of which coins. -/
structure Pays (U : List MsgTx) (b : Bridge) (approves : OutPoint → Destination → Bool) (key : ActionKey)
    (a : Approval) (p : SignerView.Payment) (inputs : List Utxo) : Prop where
  owed : OwedFor U b approves key p
  coins : ∀ u∈inputs, KnownCoin U u
  nonempty : inputs ≠ []
  spends : a.request.tx.spends = inputs.map (·.outPoint)
  txOut : a.request.tx.txOut = b.paymentOutputs (inputsTotal inputs) p a.fee
  covered : p.value ≤ inputsTotal inputs
  above : b.dogeFee < p.value
  value : a.draft.value = p.value
  fee : ¬0 < a.request.fee → a.fee = b.dogeFee

/-- What a replacement was checked against: the payment `r`, which pays the highest fee listed. -/
structure Bumps (b : Bridge) (a : Approval) (p : SignerView.Payment) (inputs : List Utxo) (r : ChainTx)
    (oldFee : Int64) : Prop where
  listed : a.view.state.unconfirmedFor p.data = some (r,oldFee)
  spends : a.request.tx.spends = r.tx.spends
  fee : a.request.fee = oldFee+b.dogeFee
  above : oldFee < a.request.fee
  bound : a.request.fee ≤ 4*b.dogeFee
  half : a.request.fee ≤ p.value / 2
  picks : Picks a.request.tx (a.view.state.coinsOf r.tx) inputs

theorem tag_of_owed (h : OwedFor U b approves key p) : paymentTag key = some p.data := by
  cases h with
  | payout => rfl
  | refund => rfl

theorem Of.pending (h : a.Of U b approves key) {u : Utxo} (hu : u∈a.view.state.pendingCoins) : KnownCoin U u := by
  have hcoin := mem_of_mem_filter ((a.view.bridge.pendingCoins_perm a.view.nodes.doge).mem_iff.mp hu)
  obtain ⟨t,ht,hcoin⟩ := mem_flatMap.mp hcoin
  exact ⟨t.tx,h.listed t (mem_append_right _ (mem_inBlocks.mp ht).1),(mem_coinsWhere.mp hcoin).1⟩

theorem spends_ne_nil {r : ChainTx} (hr : r∈a.view.state.unconfirmed) : r.tx.spends ≠ [] := by
  have hun : a.view.state.unconfirmed = _ := (a.view.bridge.payments_spec a.view.nodes.doge).1
  rw [hun,unconfirmedIn,mem_filter,mem_filter,dogeSigned,spendsAny] at hr
  obtain ⟨op,hop,-⟩ := any_eq_true.mp hr.1.2
  exact ne_nil_of_mem hop

theorem Of.pays (h : a.Of U b approves key) (hread : ¬0 < a.request.fee → a.ReadsExactly U)
    (htag : paymentTag key=some data) : ∃ p inputs,
    a.Pays U b approves key p inputs ∧ (0 < a.request.fee → ∃ r oldFee, a.Bumps b p inputs r oldFee) := by
  obtain ⟨gated,learnt,happroves⟩ := check_ok a.approved
  rw [← h.key] at htag
  obtain ⟨p,hpay,horigin⟩ := draft_payment happroves.drafted htag
  obtain ⟨inputs,habove,hinputs,hbuilt,hvalue⟩ := draftPayment_built hpay
  obtain ⟨hcovered,-,-,-,hwant⟩ := a.view.bridge.buildPayout_ok hbuilt
  rw [happroves.want] at hwant
  have hspends : a.request.tx.spends = inputs.map (·.outPoint) := by rw [hwant,newTx_spends]
  have htxOut : a.request.tx.txOut = b.paymentOutputs (inputsTotal inputs) p a.fee := by
    rw [hwant,newTx_txOut,h.script]
    rfl
  have hpays (hcoins : ∀ u∈inputs, KnownCoin U u) (hne : a.request.tx.spends≠[]) :
      a.Pays U b approves key p inputs :=
    { owed := h.owed horigin
      coins := hcoins
      nonempty := fun hnil => hne (by rw [hspends,hnil]; rfl)
      spends := hspends
      txOut := htxOut
      covered := hcovered
      above := h.dogeFee ▸ habove
      value := hvalue
      fee := fun hfee => (if_neg hfee).trans h.dogeFee }
  by_cases hfee : 0 < a.request.fee
  · rw [SignerView.paymentInputs,if_pos hfee] at hinputs
    obtain ⟨r,oldFee,hr,hsame,hone,⟨hold,hbound⟩,hhalf,hpicks⟩ := replacementInputs_ok hinputs
    rw [h.dogeFee] at hone hbound
    refine ⟨p,inputs,hpays (fun u hu => h.pending (mem_pendingCoins_of_coinsOf (hpicks.mem u hu))) ?_,
      fun _ => ⟨r,oldFee,hr,hsame,hone,hold,hbound,hhalf,hpicks⟩⟩
    rw [hsame]
    exact spends_ne_nil (unconfirmedFor_mem (show a.view.state.unconfirmedFor p.data = _ from hr))
  · rw [SignerView.paymentInputs,if_neg hfee] at hinputs
    simp only [SignerView.newInputs,checks_ok] at hinputs
    obtain ⟨anchor,-,hhead⟩ := spendsAnchor_ok hinputs.1
    refine ⟨p,inputs,hpays (fun u hu => ?_) ?_,fun hpos => absurd hpos hfee⟩
    · have hop : u.outPoint∈a.request.tx.spends := hspends ▸ mem_map_of_mem hu
      obtain ⟨c,⟨t,ht,hout⟩,rfl⟩ := h.coins u (mem_of_mem_filter ((pick_ok hinputs.2).mem u hu))
      have hself : c.read = c := by rw [Utxo.read,hread hfee t ht _ hout hop]
      rw [hself]
      exact ⟨t,ht,hout⟩
    · intro hnil
      rw [hnil] at hhead
      cases hhead

end Approval

/-! ## A series of replacements -/

/-- The approvals of one payment and of its replacements, the latest first: each replacement is checked
against a payment of the series, signed, that its signer lists as unconfirmed. -/
inductive Replacements (U : List MsgTx) (b : Bridge) (approves : OutPoint → Destination → Bool) (key : ActionKey) :
    List Approval → Prop where
  | first {a : Approval} (of : a.Of U b approves key) (fee : ¬0<a.request.fee) : Replacements U b approves key [a]
  | replace {series a} (earlier : Replacements U b approves key series)
      (of : a.Of U b approves key) (fee : 0<a.request.fee)
      (replaces : ∀ data r oldFee, paymentTag key = some data →
        a.view.state.unconfirmedFor data = some (r,oldFee) → ∃ c∈series, r.tx.unsigned = c.request.tx) :
      Replacements U b approves key (a::series)

/-- A replacement `a` against the payment it replaces: `r`, the one listed that pays most, differs from
it in the fee alone. -/
structure Replaces (b : Bridge) (value : Int64) (data : List UInt8) (a : Approval) (r : ChainTx) : Prop where
  listed : r∈a.view.state.unconfirmed ∧ PegState.Tagged data r.tx
  highest : ∀ t∈a.view.state.unconfirmed, PegState.Tagged data t.tx →
    a.view.state.listedFee t.tx ≤ a.view.state.listedFee r.tx
  inputs : a.request.tx.spends = r.tx.spends
  outputs : ∃ paid pays dest change, r.tx.txOut = [⟨paid,dest⟩,⟨change,b.script⟩,nullData data] ∧
    a.request.tx.txOut = [⟨pays,dest⟩,⟨change,b.script⟩,nullData data] ∧
    value.toInt-a.request.fee.toInt-pegDust.toInt ≤ pays.toInt
  fee : a.view.state.listedFee a.request.tx = a.request.fee ∧
    a.request.fee.toInt = (a.view.state.listedFee r.tx).toInt+b.dogeFee.toInt
  bounds : a.request.fee.toInt ≤ 4*b.dogeFee.toInt ∧ a.request.fee.toInt ≤ value.toInt / 2

section Series

variable {U : List MsgTx} {b : Bridge} {approves : OutPoint → Destination → Bool} {key : ActionKey} {a : Approval}
  {p : SignerView.Payment} {inputs : List Utxo} {r : ChainTx} {oldFee : Int64}

omit [Hashing] in
theorem payee_gets {sum fee : Int64} (hvalue : 0≤value.toInt) (hcovered : value ≤ sum) (hfee : 0≤fee.toInt)
    (hle : fee.toInt≤value.toInt) : value.toInt-fee.toInt-pegDust.toInt ≤
      (value-fee-(payoutChange (sum-value)).2).toInt := by
  obtain ⟨hlo,hhi⟩ := topUp_bounds hvalue hcovered
  have hdust : pegDust.toInt = 1000000 := by decide
  have hlt := value.toInt_lt
  have hsub := toInt_sub_of_le hfee hle
  rw [toInt_sub_of_bounds (by omega) (by omega)]
  omega

omit [Hashing] in
theorem fee_bounds {fee oldFee dogeFee : Int64} (hold : 0≤oldFee.toInt) (hfee : fee=oldFee+dogeFee)
    (habove : oldFee<fee) (hbound : fee≤4*dogeFee) (hhalf : fee≤value / 2) (hvalue : dogeFee<value) :
    0 < dogeFee.toInt ∧ fee.toInt = oldFee.toInt+dogeFee.toInt ∧ fee.toInt ≤ 4*dogeFee.toInt ∧
      fee.toInt ≤ value.toInt / 2 := by
  rw [Int64.lt_iff_toInt_lt] at habove hvalue
  rw [Int64.le_iff_toInt_le] at hbound hhalf
  have hlt := oldFee.toInt_lt
  have hge := dogeFee.le_toInt
  have hpos : 0 < dogeFee.toInt := by
    by_contra hneg
    rw [hfee,toInt_add_of_bounds (by omega) (by omega)] at habove
    omega
  have hexact : fee.toInt = oldFee.toInt+dogeFee.toInt := by
    rcases toInt_add_or_neg hold hpos.le with h | h
    · rw [hfee,h]
    · rw [← hfee] at h
      omega
  have hfour : (4*dogeFee).toInt ≤ 4*dogeFee.toInt := by
    have h4 : (4 : Int64).toInt = 4 := by decide
    rw [Int64.toInt_mul,h4,Int.bmod_def]
    split <;> omega
  have hdiv : (value / 2).toInt = value.toInt / 2 := toInt_div_of_nonneg (by omega) (by decide)
  exact ⟨hpos,hexact,hbound.trans hfour,hdiv ▸ hhalf⟩

omit [Hashing] in
theorem map_outPoint_coinsOf {s : PegState} {tx : MsgTx} (h : ∀ op∈tx.spends, ∃ u∈s.pendingCoins, u.outPoint = op) :
    (s.coinsOf tx).map (·.outPoint) = tx.spends := by
  unfold PegState.coinsOf
  generalize tx.spends = ops at h ⊢
  induction ops with
  | nil => rfl
  | cons op ops ih =>
    obtain ⟨u,hu,hop⟩ := h op (mem_cons_self ..)
    obtain ⟨c,hc⟩ : ∃ c, (s.pendingCoins.find? fun u => u.outPoint = op) = some c :=
      Option.isSome_iff_exists.mp (List.find?_isSome.mpr ⟨u,hu,by simpa using hop⟩)
    simp only [filterMap_cons,hc,map_cons]
    rw [ih fun op' hop' => h op' (mem_cons_of_mem _ hop'), (find?_outPoint hc).1]

/-- A replacement differs from a payment of the series in the fee alone. -/
theorem Approval.Bumps.replaces (hU : CollisionFree U) (hof : a.Of U b approves key)
    (hpays : a.Pays U b approves key p inputs) (hfee : 0<a.request.fee) (h : a.Bumps b p inputs r oldFee)
    {c : Approval} {inputs' : List Utxo} (hc : c.Pays U b approves key p inputs') (hr : r.tx.unsigned=c.request.tx) :
    Replaces b p.value p.data a r := by
  obtain ⟨hlisted,htagged,hold,hnonneg,hmax⟩ := unconfirmedFor_some h.listed
  obtain ⟨hpos,hexact,hbound,hhalf⟩ := fee_bounds hnonneg h.fee h.above h.bound h.half hpays.above
  have hspends : r.tx.spends = c.request.tx.spends := by rw [← hr,MsgTx.unsigned_spends]
  have hsum : inputsTotal inputs' = inputsTotal inputs := by
    refine inputsTotal_eq hU hc.coins hpays.coins ?_
    rw [← hc.spends,← hpays.spends,h.spends,hspends]
  have hafee : a.fee = a.request.fee := if_pos hfee
  -- the coins it is rebuilt from are those the fee listed is computed from
  have hcoins : inputsTotal (a.view.state.coinsOf a.request.tx) = inputsTotal inputs := by
    refine inputsTotal_eq hU (fun u hu => hof.pending (mem_pendingCoins_of_coinsOf hu)) hpays.coins ?_
    rw [map_outPoint_coinsOf,hpays.spends]
    intro op hop
    rw [hpays.spends] at hop
    obtain ⟨u,hu,rfl⟩ := mem_map.mp hop
    exact ⟨u,mem_pendingCoins_of_coinsOf (h.picks.mem u hu),rfl⟩
  have hvalue := Int64.lt_iff_toInt_lt.mp hpays.above
  have hrOut : r.tx.txOut = b.paymentOutputs (inputsTotal inputs) p c.fee := by
    rw [← r.tx.unsigned_txOut,hr,hc.txOut,hsum]
  refine ⟨⟨hlisted,htagged⟩,fun t ht htag => hold ▸ hmax t ht htag, h.spends, ⟨_,_,_,_,hrOut,hpays.txOut,?_⟩,
    ⟨?_,?_⟩, hbound, hhalf⟩
  · rw [hafee]
    exact payee_gets (by omega) hpays.covered (by omega) (by omega)
  · rw [PegState.listedFee,hcoins,hpays.txOut,hafee,total_paymentOutputs]
  · rw [← hold,hexact]

theorem Replacements.pays (hU : CollisionFree U)
    (hone : ∀ op dest dest', approves op dest = true → approves op dest' = true → dest = dest') {data : List UInt8}
    (htag : paymentTag key=some data) {series : List Approval} (h : Replacements U b approves key series)
    (hread : ∀ a∈series, ¬0 < a.request.fee → a.ReadsExactly U) : ∃ p ops, p.data = data ∧ ops ≠ [] ∧
      (∀ a∈series, ∃ inputs, a.Pays U b approves key p inputs ∧ inputs.map (·.outPoint) = ops) ∧
      ∀ a∈series, 0 < a.request.fee → ∃ r, Replaces b p.value data a r := by
  induction h with
  | @first a of fee =>
    obtain ⟨p,inputs,hpays,-⟩ := of.pays (hread a (mem_singleton_self _)) htag
    refine ⟨p,inputs.map (·.outPoint),?_,?_,fun c hc => ?_, fun c hc hpos => ?_⟩
    · exact Option.some.inj ((Approval.tag_of_owed hpays.owed).symm.trans htag)
    · exact fun hnil => hpays.nonempty (map_eq_nil_iff.mp hnil)
    · rw [mem_singleton.mp hc]
      exact ⟨inputs,hpays,rfl⟩
    · rw [mem_singleton.mp hc] at hpos
      exact absurd hpos fee
  | @replace series a earlier of fee replaces ih =>
    obtain ⟨p,ops,hdata,hne,hall,hreplaces⟩ := ih fun c hc => hread c (mem_cons_of_mem _ hc)
    obtain ⟨p',inputs,hpays,hbumps⟩ := of.pays (hread a (mem_cons_self ..)) htag
    obtain ⟨r,oldFee,hbump⟩ := hbumps fee
    have htag' := Approval.tag_of_owed hpays.owed
    obtain ⟨c,hc,hr⟩ := replaces p'.data r oldFee htag' hbump.listed
    obtain ⟨inputs',hc',hops⟩ := hall c hc
    obtain rfl := hpays.owed.unique hU hone hc'.owed
    have hsame : inputs.map (·.outPoint) = ops := by
      rw [← hops,← hpays.spends,← hc'.spends,hbump.spends,← hr,MsgTx.unsigned_spends]
    refine ⟨p',ops,hdata,hne,fun d hd => ?_, fun d hd hpos => ?_⟩
    · rcases mem_cons.mp hd with rfl | hd
      · exact ⟨inputs,hpays,hsame⟩
      · exact hall d hd
    · rcases mem_cons.mp hd with rfl | hd
      · exact ⟨r,hdata ▸ hbump.replaces hU of hpays fee hc' hr⟩
      · exact hreplaces d hd hpos

end Series

/-- In a series of replacements whose first payment spends coins that the wallet reads for what they
are worth each spends what it replaces, pays the same destination and the same
change under the same tag, at a fee one step above the highest listed and within its bounds; the payee
gets the value but for the fee and the dust, and a chain holds at most one of the payments. -/
theorem replacement_series {U : List MsgTx} (hU : CollisionFree U) {decode : List Char → Option Destination}
    {file : Except ApprovalError (List Char)} {b : Bridge} {key : ActionKey} {data : List UInt8}
    (htag : paymentTag key=some data) {series : List Approval}
    (h : Replacements U b (fun op dest => (refundApproved decode file op dest).isOk) key series)
    (hread : ∀ a∈series, ¬0 < a.request.fee → a.ReadsExactly U) : ∃ value, (∀ a∈series, a.draft.value = value) ∧
      (∀ a∈series, 0 < a.request.fee → ∃ r, Replaces b value data a r) ∧
      (0 ≤ b.dogeFee → ∀ a∈series, ∃ pays rest, a.request.tx.txOut = pays::rest ∧
        value.toInt-a.fee.toInt-pegDust.toInt ≤ pays.value.toInt) ∧
      ∀ C, ChainIn U C → ∀ a∈series, ∀ c∈series, ∀ t∈C, ∀ u∈C,
        t.tx.unsigned = a.request.tx → u.tx.unsigned = c.request.tx → t = u := by
  have hone : ∀ op dest dest', (refundApproved decode file op dest).isOk = true →
      (refundApproved decode file op dest').isOk = true → dest = dest' := by
    intro op dest dest' hdest hdest'
    rcases hd : refundApproved decode file op dest with _ | force
    · rw [hd] at hdest
      cases hdest
    · rcases hd' : refundApproved decode file op dest' with _ | force'
      · rw [hd'] at hdest'
        cases hdest'
      · exact refundApproved_unique hd hd'
  obtain ⟨p,ops,-,hne,hall,hreplaces⟩ := h.pays hU hone htag hread
  refine ⟨p.value,fun a ha => ?_, hreplaces, fun hfee a ha => ?_, fun C hC a ha c hc t ht u hu hta huc => ?_⟩
  · obtain ⟨inputs,hpays,-⟩ := hall a ha
    exact hpays.value
  · obtain ⟨inputs,hpays,-⟩ := hall a ha
    by_cases hpos : 0 < a.request.fee
    · obtain ⟨r,hr⟩ := hreplaces a ha hpos
      obtain ⟨-,pays,dest,change,-,hout,hle⟩ := hr.outputs
      have hafee : a.fee = a.request.fee := if_pos hpos
      exact ⟨_,_,hout,by rwa [hafee]⟩
    · have habove := Int64.lt_iff_toInt_lt.mp hpays.above
      have hnonneg := nonneg_iff.mp hfee
      refine ⟨_,_,hpays.txOut,?_⟩
      rw [hpays.fee hpos]
      exact payee_gets (by omega) hpays.covered hnonneg (by omega)
  · obtain ⟨inputs,hpays,hops⟩ := hall a ha
    obtain ⟨inputs',hpays',hops'⟩ := hall c hc
    have hspends : t.tx.spends = ops := by rw [← t.tx.unsigned_spends,hta,hpays.spends,hops]
    have hspends' : u.tx.spends = ops := by rw [← u.tx.unsigned_spends,huc,hpays'.spends,hops']
    obtain ⟨op,hop⟩ := exists_mem_of_ne_nil _ hne
    -- a coin of the peg is no coinbase's input
    have hindex : op.index ≠ maxPrevOutIndex := by
      rw [← hops] at hop
      obtain ⟨coin,hcoin,rfl⟩ := mem_map.mp hop
      obtain ⟨x,-,hout⟩ := hpays.coins coin hcoin
      exact x.index_ne_max hout
    have hcb := not_coinbase_of_spends (hspends ▸ hop) hindex
    exact hC.spentOnce t ht u hu hcb op (hspends ▸ hop) (hspends' ▸ hop)

end

section Sample

attribute [local instance] sampleHashing

/-- What the deposit on Dogecoin is worth: 0.2 DOGE, or one that the wallet reads one koinu too high. -/
def stuckValue : Bool → Int64
  | false => 20000000
  | true => 3355461609040441

/-- A deposit on Dogecoin, credited on DogecoinVM, of which ten million are paid back into the reserve. -/
def stuckFunds (large : Bool) : MsgTx where
  version := 1
  txIn := [sampleInput ⟨5,0⟩]
  txOut := [⟨stuckValue large,sampleBridge.script⟩,nullData (Tag.deposit.bytes++[0]++List.replicate 20 0)]
  lockTime := 0
  outputs_le := by cases large <;> decide +kernel

def stuckReserve : MsgTx := sampleTx ⟨0,0xffffffff⟩ [⟨20000000,sampleBridge.script⟩]

def stuckCredit (large : Bool) : MsgTx where
  version := 1
  txIn := [sampleInput (stuckReserve.outPoint 0)]
  txOut := [⟨10000000,[2]⟩,⟨10000000,sampleBridge.script⟩,nullData (encodeRelease ((stuckFunds large).outPoint 0))]
  lockTime := 0
  outputs_le := by cases large <;> decide +kernel

def askedTx (large : Bool) : MsgTx where
  version := 1
  txIn := [sampleInput ((stuckCredit large).outPoint 0)]
  txOut := [⟨10000000,sampleBridge.script⟩,nullData (Tag.pegOut.bytes++[0]++List.replicate 20 0)]
  lockTime := 0
  outputs_le := by cases large <;> decide +kernel

/-- The payout at a fee, from a coin taken to be worth `sum`. -/
def bumpedTx (large : Bool) (sum fee : Int64) : MsgTx :=
  newTx 1 replaceable [⟨(stuckFunds large).outPoint 0,sum,sampleBridge.script,8⟩]
    ⟨10000000-fee,(⟨.p2pkh,0⟩ : Destination).pkScript⟩ (some ⟨sum-10000000,sampleBridge.script⟩)
    (encodePayment (askedTx large).txHash)

def askedListing (large : Bool) : Listing :=
  ⟨[⟨stuckReserve,9,0⟩,⟨stuckCredit large,5,0⟩,⟨askedTx large,3,0⟩],by cases large <;> decide +kernel,
    by cases large <;> decide +kernel⟩

/-- Before the first payout, and while it is unconfirmed. -/
def owedHistory (large : Bool) : History :=
  ⟨askedListing large,⟨[⟨stuckFunds large,8,0⟩],by simp, by simp⟩,[]⟩

def firstTx (large : Bool) : MsgTx := bumpedTx large (readAmount (stuckValue large)) 1

def stuckHistory (large : Bool) : History :=
  ⟨askedListing large,⟨[⟨stuckFunds large,8,0⟩,⟨firstTx large,0,0⟩],by cases large <;> decide +kernel,
    by simp⟩,[]⟩

def bumpView (h : History) : SignerView :=
  { sampleView sampleBridge h with
    refundApproved := fun op dest => (refundApproved (fun _ => none) (.error .noFile) op dest).isOk }

def bumpSigner (large : Bool) : Signer := sampleSigner fun _ => some ((stuckFunds large).outPoint 0)

def bumpRequest (large : Bool) (tx : MsgTx) (fee : Int64) : SignRequest :=
  ⟨some .dogecoin,.payout (askedTx large).txHash,tx,fee⟩

def bumpDraft (large : Bool) (tx : MsgTx) : Draft where
  chain := .dogecoin
  want := tx
  redeems := [sampleBridge.redeemScript]
  value := 10000000
  unspent := [(stuckFunds large).outPoint 0]
  surplusFee := none

/-- What the first payout left as a fee, with one more. -/
def bumpedFee (large : Bool) : Int64 := 1+(stuckValue large-readAmount (stuckValue large))+1

def firstPayout (large : Bool) : Approval :=
  ⟨bumpView (owedHistory large),bumpRequest large (firstTx large) 0,bumpSigner large,_,
    bumpDraft large (firstTx large),check_eq_ok (by cases large <;> decide +kernel)⟩

def bumpedPayout (large : Bool) : Approval :=
  ⟨bumpView (stuckHistory large),bumpRequest large (bumpedTx large (stuckValue large) (bumpedFee large))
    (bumpedFee large),
    bumpSigner large,_,bumpDraft large (bumpedTx large (stuckValue large) (bumpedFee large)),
    check_eq_ok (by cases large <;> decide +kernel)⟩

def bumpTxs (large : Bool) : List MsgTx :=
  [stuckFunds large,stuckReserve,stuckCredit large,askedTx large,firstTx large]

theorem payouts_series (large : Bool) : Replacements (bumpTxs large) sampleBridge
    (fun op dest => (refundApproved (fun _ => none) (.error .noFile) op dest).isOk) (.payout (askedTx large).txHash)
    [bumpedPayout large,firstPayout large] := by
  have hlisted : ∀ t∈(askedListing large).txs++[⟨stuckFunds large,8,0⟩,⟨firstTx large,0,0⟩],
      t.tx ∈ bumpTxs large := by
    simp [askedListing,bumpTxs]
  have hcoin : ∀ h∈[owedHistory large,stuckHistory large], ∀ u∈(sampleBridge.nodes h).dogeUnspent,
      ∃ c, KnownCoin (bumpTxs large) c ∧ u = c.read := by
    intro h hh u hu
    obtain ⟨c,hc,rfl⟩ := mem_map.mp hu
    obtain ⟨t,ht,hc⟩ := mem_flatMap.mp (mem_of_mem_filter hc)
    refine ⟨c,⟨t.tx,hlisted t (mem_append_right _ ?_),(mem_coinsWhere.mp hc).1⟩,rfl⟩
    rcases mem_pair.mp hh with rfl | rfl
    · exact mem_cons.mpr (.inl (mem_singleton.mp ht))
    · exact ht
  refine .replace (.first ⟨rfl,rfl,rfl,rfl,fun t ht => hlisted t ?_, hcoin _ (mem_cons_self ..)⟩ Int64.lt_irrefl)
    ⟨rfl,rfl,rfl,rfl,hlisted,hcoin _ (mem_cons_of_mem _ (mem_singleton_self _))⟩
    (by cases large <;> decide +kernel) ?_
  · rcases mem_append.mp ht with ht | ht
    · exact mem_append_left _ ht
    · exact mem_append_right _ (mem_cons.mpr (.inl (mem_singleton.mp ht)))
  · intro data r oldFee _ hr
    refine ⟨firstPayout large,mem_singleton_self _,?_⟩
    have hlisted : ∀ t∈(bumpedPayout large).view.state.unconfirmed, t.tx.unsigned = (firstPayout large).request.tx := by
      cases large <;> decide +kernel
    exact hlisted r (unconfirmedFor_mem hr)

/-- The payout of ten million at a fee of 1, and the one at a fee of 2 that replaces it. -/
theorem payout_bumped_once : ∃ value r, (∀ a∈[bumpedPayout false,firstPayout false], a.draft.value = value) ∧
    Replaces sampleBridge value (encodePayment (askedTx false).txHash) (bumpedPayout false) r := by
  have hread (a : Approval) (ha : a∈[bumpedPayout false,firstPayout false]) (hfee : ¬0<a.request.fee) :
      a.ReadsExactly (bumpTxs false) := by
    rcases mem_pair.mp ha with rfl | rfl
    · exact absurd (by decide +kernel) hfee
    · change ∀ t∈bumpTxs false, ∀ p∈t.outputs, p.1∈(firstTx false).spends → readAmount p.2.value = p.2.value
      decide +kernel
  obtain ⟨value,hvalue,hreplaces,-⟩ :=
    replacement_series (.of_nodup (by decide +kernel)) rfl (payouts_series false) hread
  obtain ⟨r,hr⟩ := hreplaces (bumpedPayout false) (mem_cons_self ..) (by decide +kernel)
  exact ⟨value,r,hvalue,hr⟩

/-- The first payout leaves a koinu of change more than there is, and the replacement one less. -/
theorem replaced_change_differs : Replacements (bumpTxs true) sampleBridge
      (fun op dest => (refundApproved (fun _ => none) (.error .noFile) op dest).isOk) (.payout (askedTx true).txHash)
      [bumpedPayout true,firstPayout true] ∧
    (firstPayout true).request.tx.txOut[1]? = some ⟨3355461599040442,sampleBridge.script⟩ ∧
    (bumpedPayout true).request.tx.txOut[1]? = some ⟨3355461599040441,sampleBridge.script⟩ :=
  ⟨payouts_series true,by decide +kernel, by decide +kernel⟩

end Sample

end DogePeg
