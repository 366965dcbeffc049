import DogePeg.Bridge.Books
import DogePeg.Signer.Check

/-!
# What an approval says

`check` returns a transaction only after it has passed every test of its action. Each
structure below is what one action's approval says of the proposal, of the signer's view
and of its log.
-/

namespace DogePeg

open Amounts Checks List Option

variable {chain : ChainName} {p : Payment} {st : Signer} {tx : MsgTx} {inputs : List Utxo} {op : OutPoint}

section

variable [Hashing]

/-! ## The proposal -/

omit [Hashing] in
theorem checkInputs_ok {seen : List OutPoint} {ins : List TxIn} (h : checkInputs seen ins = .ok ()) :
    (∀ i∈ins, i.signatureScript = [] ∧ i.witness = []) ∧
      (ins.map (·.previousOutPoint)).Nodup ∧ ∀ i∈ins, i.previousOutPoint ∉ seen := by
  induction ins generalizing seen with
  | nil => simp
  | cons i ins ih =>
    simp only [checkInputs,checks_ok,Bool.and_eq_true,decide_eq_true_eq] at h
    obtain ⟨hsigned,hnew,h⟩ := h
    obtain ⟨hall,hnodup,hseen⟩ := ih h
    refine ⟨forall_mem_cons.mpr ⟨hsigned,hall⟩,?_,forall_mem_cons.mpr ⟨hnew,?_⟩⟩
    · rw [map_cons,nodup_cons]
      refine ⟨fun hmem => ?_, hnodup⟩
      obtain ⟨j,hj,heq⟩ := mem_map.mp hmem
      exact hseen j hj (heq ▸ mem_cons_self ..)
    · exact fun j hj hmem => hseen j hj (mem_cons_of_mem _ hmem)

structure Picks (tx : MsgTx) (available inputs : List Utxo) : Prop where
  spends : tx.spends = inputs.map (·.outPoint)
  mem : ∀ u∈inputs, u∈available

omit [Hashing] in
theorem picks_of_mapM {available : List Utxo} {find : OutPoint → Option Utxo} {missing : OutPoint → Refusal}
    (hfind : ∀ op u, find op = some u → u.outPoint = op ∧ u∈available)
    (h : (tx.spends.mapM fun op => found (find op) (missing op)) = .ok inputs) : Picks tx available inputs := by
  suffices hlist : ∀ ops : List OutPoint, (ops.mapM fun op => found (find op) (missing op)) = .ok inputs →
      ops = inputs.map (·.outPoint) ∧ ∀ u∈inputs, u∈available from ⟨(hlist _ h).1,(hlist _ h).2⟩
  clear h
  intro ops h
  induction ops generalizing inputs with
  | nil =>
    cases pure_eq_ok.mp h
    simp
  | cons op ops ih =>
    simp only [mapM_cons,checks_ok] at h
    obtain ⟨u,hu,rest,hrest,rfl⟩ := h
    obtain ⟨hpoints,hmem⟩ := ih hrest
    obtain ⟨hop,havail⟩ := hfind op u hu
    exact ⟨by rw [map_cons,hop,← hpoints], forall_mem_cons.mpr ⟨havail,hmem⟩⟩

omit [Hashing] in
theorem find?_outPoint {coins : List Utxo} {u : Utxo}
    (h : (coins.find? fun u => u.outPoint = op) = some u) : u.outPoint = op ∧ u∈coins :=
  ⟨by simpa using List.find?_some h, mem_of_find?_eq_some h⟩

omit [Hashing] in
theorem pick_ok {available : List Utxo} (h : pick tx available = .ok inputs) : Picks tx available inputs :=
  picks_of_mapM (fun _ _ hu => (find?_outPoint hu).imp_right mem_reverse.mp) h

omit [Hashing] in
theorem spendsAnchor_ok {anchor : Option Utxo} (h : spendsAnchor tx anchor = .ok ()) :
    ∃ a, anchor = some a ∧ tx.spends.head? = some a.outPoint := by
  simpa only [spendsAnchor,checks_ok,decide_eq_true_eq] using h

omit [Hashing] in
theorem findDeposit_some {ds : List Deposit} {d : Deposit}
    (h : findDeposit ds op=some d) : d∈ds ∧ d.outPoint = op :=
  ⟨mem_of_find?_eq_some h,by simpa using List.find?_some h⟩

omit [Hashing] in
theorem findPegOut_some {ps : List PegOut} {txid : Hash} {p : PegOut}
    (h : findPegOut ps txid=some p) : p∈ps ∧ p.txid = txid :=
  ⟨mem_of_find?_eq_some h,by simpa using List.find?_some h⟩

/-! ## What is pending -/

namespace PegState

variable {s : PegState}

omit [Hashing] in
theorem unconfirmedFor_mem {data : List UInt8} {r : ChainTx} {fee : Int64}
    (h : s.unconfirmedFor data=some (r,fee)) : r∈s.unconfirmed := by
  -- the best so far is one of those gone through
  have hfold (l : List ChainTx) (best : Option ChainTx × Int64) (hbest : ∀ t∈best.1, t∈s.unconfirmed)
      (hl : l ⊆ s.unconfirmed) : ∀ t∈(l.foldl (fun (best : Option ChainTx × Int64) t =>
        let fee := inputsTotal (s.coinsOf t.tx)-total (t.tx.txOut.map (·.value))
        if best.2 < fee then (some t,fee) else best) best).1, t∈s.unconfirmed := by
    induction l generalizing best with
    | nil => exact hbest
    | cons t l ih =>
      refine ih _ ?_ fun u hu => hl (mem_cons_of_mem _ hu)
      dsimp only
      split
      · rintro u ⟨⟩
        exact hl (mem_cons_self ..)
      · exact hbest
  obtain ⟨t,ht,heq⟩ := map_eq_some_iff.mp h
  cases heq
  exact hfold _ _ (by simp) (filter_subset_self _) r ht

omit [Hashing] in
theorem mem_pendingCoins_of_coinsOf {u : Utxo} (h : u∈s.coinsOf tx) : u∈s.pendingCoins := by
  obtain ⟨op,-,hop⟩ := mem_filterMap.mp h
  exact mem_of_find?_eq_some hop

end PegState

/-! ## Fences -/

omit [Hashing] in
theorem prefix_of_trimToSize {size : List Utxo → Except Refusal ℕ} {n : ℕ} {kept : List Utxo}
    (h : trimToSize size n inputs = .ok kept) : kept <+: inputs := by
  induction n generalizing inputs with
  | zero =>
    cases h
    exact prefix_rfl
  | succ n ih =>
    rw [trimToSize] at h
    split at h
    · cases h
      exact prefix_rfl
    · obtain ⟨bytes,-,h⟩ := bind_eq_ok.mp h
      split at h
      · cases h
        exact prefix_rfl
      · exact (ih h).trans ( take_prefix ..)

omit [Hashing] in
theorem fenceInputs_ok {s : PegState} {recorded : List OutPoint} (h : s.fenceInputs chain recorded = .ok inputs) :
    ∀ u∈inputs, u∈s.freeOn chain ∨
      s.anchorOn chain = some u ∧ containsOutPoint (s.freeOn chain) u.outPoint = true := by
  simp only [PegState.fenceInputs,PegState.fenceOrder,checks_ok] at h
  obtain ⟨order,⟨-,rfl⟩,-,rfl⟩ := h
  intro u hu
  rcases mem_append.mp (mem_of_mem_take hu) with hu | hu
  · rw [mem_toList,PegState.freeAnchor,filter_eq_some_iff] at hu
    exact .inr hu
  · exact .inl (mem_of_mem_filter ((perm_insertionSort _ _).mem_iff.mp hu))

theorem nextFence_ok {b : Bridge} {s : PegState} {recorded : List OutPoint}
    {now : ℤ} {fence : Bridge.BuiltFence} (h : b.nextFence s chain recorded now = .ok fence) :
    b.buildFence chain fence.inputs fence.fee = .ok fence.tx ∧ ((∀ u∈fence.inputs, u∈s.freeOn chain ∨
          s.anchorOn chain = some u ∧ containsOutPoint (s.freeOn chain) u.outPoint = true) ∨
        chain = .dogecoin ∧ ∀ u∈fence.inputs, u∈s.pendingCoins) := by
  unfold Bridge.nextFence at h
  split at h
  · next pending _ _ =>
    simp only [Bridge.replaceFence,Bridge.fenceOf,checks_ok,decide_eq_true_eq] at h
    obtain ⟨hchain,-,-,inputs,hinputs,size,-,tx,htx,rfl⟩ := h
    exact ⟨htx,.inr ⟨hchain,(picks_of_mapM (fun _ _ hu => find?_outPoint hu) hinputs).mem⟩⟩
  · simp only [Bridge.fenceOf,checks_ok] at h
    obtain ⟨-,all,hall,inputs,htrim,-,size,-,tx,htx,rfl⟩ := h
    exact ⟨htx,.inl fun u hu => fenceInputs_ok hall u ((prefix_of_trimToSize htrim).subset hu)⟩

/-- What a signed fence spends, pays back and carries. -/
structure IsFence (b : Bridge) (inputs : List Utxo) (fee : Int64) (tx : MsgTx) : Prop where
  nonempty : inputs ≠ []
  spends : tx.spends = inputs.map (·.outPoint)
  back : paidTo b.script tx = inputsTotal inputs-fee
  outputs : total (tx.txOut.map (·.value)) = inputsTotal inputs-fee
  carries : ∃ first, Carries tx (encodeFence first)

theorem buildFence_ok {b : Bridge} {fee : Int64}
    (h : b.buildFence chain inputs fee = .ok tx.unsigned) : IsFence b inputs fee tx := by
  unfold Bridge.buildFence at h
  split at h
  · cases h
  · next first rest =>
    simp only [checks_ok] at h
    have hout : tx.txOut = _ := (MsgTx.unsigned_txOut tx).symm.trans (congrArg MsgTx.txOut h.2.symm)
    refine {
      nonempty := by simp
      spends := by rw [← MsgTx.unsigned_spends,← h.2,newTx_spends]
      back := ?_
      outputs := ?_
      carries := ⟨first.outPoint,Carries.congr (newTx_carries b.isNullDataScript_script (by simp)
        (by simp [encodeFence]) (by simp [encodeFence])) hout⟩ }
    · rw [paidTo_congr hout,b.paidTo_newTx]
      simp
    · rw [hout,total_eq_sum]
      simp [nullData]

namespace SignerView

variable {v : SignerView} {req : SignRequest} {log : SigningLog} {s : PegState} {draft : Draft}

/-! ## The drafts -/

/-- A release is drafted for a creditable deposit nothing has settled. -/
structure DraftsRelease (v : SignerView) (req : SignRequest) (log : SigningLog) (s : PegState)
    (op : OutPoint) (draft : Draft) (d : Deposit) (anchor : Utxo) (inputs : List Utxo) : Prop where
  chain : draft.chain = .dogecoinVM
  released : s.released op = none
  refunded : s.refunded op = none
  cancelled : s.cancelled op = none
  unlogged : log.has (.cancel op) = false ∧ log.has (.refund op) = false
  deposit : d∈s.deposits
  outPoint : d.outPoint = op
  deep : v.bridge.confirmationsFor d.value ≤ d.confirmations
  circulating : 0 < v.bridge.maxCirculating → s.circulating+d.value ≤ v.bridge.maxCirculating
  shallow : v.bridge.shallowRoom s d (v.promised log s op) = .ok ()
  anchored : s.reserveAnchor = some anchor ∧ req.tx.spends.head? = some anchor.outPoint
  picks : Picks req.tx s.reserveUTXOs inputs
  covered : d.value+pegDust ≤ inputsTotal inputs
  want : draft.want = v.bridge.buildRelease inputs d
  value : draft.value = d.value
  surplusFee : draft.surplusFee = none

theorem draftRelease_ok (h : v.draftRelease req log s op = .ok draft) :
    ∃ d anchor inputs, v.DraftsRelease req log s op draft d anchor inputs := by
  simp only [draftRelease,checks_ok,decide_eq_true_eq,isNone_iff_eq_none,Bool.and_eq_true,Bool.not_eq_true',
    Bool.and_eq_false_imp,decide_eq_false_iff_not,PegState.isCancelled,isSome_eq_false_iff] at h
  obtain ⟨-,hrel,href,⟨hcan,hlogc⟩,hlogr,d,hd,hdeep,hcirc,hshallow,hanchor,inputs,hpick,hcov,rfl⟩ := h
  obtain ⟨hmem,hop⟩ := findDeposit_some hd
  obtain ⟨anchor,ha⟩ := spendsAnchor_ok hanchor
  exact ⟨d,anchor,inputs,{
    chain := rfl
    released := hrel
    refunded := href
    cancelled := hcan
    unlogged := ⟨hlogc,hlogr⟩
    deposit := hmem
    outPoint := hop
    deep := hdeep
    circulating := fun hpos => Int64.not_lt.mp (hcirc hpos)
    shallow := hshallow
    anchored := ha
    picks := pick_ok hpick
    covered := hcov
    want := rfl
    value := rfl
    surplusFee := rfl }⟩

/-- A cancellation is drafted for a deposit nothing has settled, once a release of it that the
log has is dead or spends the same anchor. -/
structure DraftsCancel (v : SignerView) (req : SignRequest) (log : SigningLog) (s : PegState)
    (op : OutPoint) (draft : Draft) (anchor : Utxo) (inputs : List Utxo) : Prop where
  chain : draft.chain = .dogecoinVM
  released : s.released op = none
  refunded : s.refunded op = none
  cancelled : s.cancelled op = none
  conflicting : log.releasesDeadOrConflicting v.evidence op anchor.outPoint = true
  anchored : s.reserveAnchor = some anchor ∧ req.tx.spends.head? = some anchor.outPoint
  picked : pick req.tx s.reserveUTXOs = .ok inputs
  built : v.bridge.buildCancel inputs op = .ok draft.want
  waited : s.surplusSpendWait v.bridge log = .ok ()
  room : v.bridge.feeRoom s.audit v.bridge.vmFee (v.unseen log req.action.key) = .ok ()
  value : draft.value = 0
  surplusFee : draft.surplusFee = some v.bridge.vmFee

theorem DraftsCancel.picks {anchor : Utxo} (h : v.DraftsCancel req log s op draft anchor inputs) :
    Picks req.tx s.reserveUTXOs inputs := pick_ok h.picked

theorem draftCancel_ok (h : v.draftCancel req log s op = .ok draft) :
    ∃ anchor inputs, v.DraftsCancel req log s op draft anchor inputs := by
  simp only [draftCancel,checks_ok,decide_eq_true_eq,isNone_iff_eq_none,Bool.not_eq_true',PegState.isCancelled,
    isSome_eq_false_iff] at h
  obtain ⟨-,hrel,href,hcan,anchor,ha,hconf,-,hanchor,inputs,hpick,want,hwant,hwait,hroom,rfl⟩ := h
  obtain ⟨anchor',ha',hhead⟩ := spendsAnchor_ok hanchor
  cases ha.symm.trans ha'
  exact ⟨anchor,inputs,{
    chain := rfl
    released := hrel
    refunded := href
    cancelled := hcan
    conflicting := hconf
    anchored := ⟨ha,hhead⟩
    picked := hpick
    built := hwant
    waited := hwait
    room := hroom
    value := rfl
    surplusFee := rfl }⟩

/-- A fence is drafted only by a log in a cutover of its chain. -/
structure DraftsFence (v : SignerView) (req : SignRequest) (log : SigningLog) (s : PegState)
    (op : OutPoint) (draft : Draft) (coins : List OutPoint) (fence : Bridge.BuiltFence) : Prop where
  chain : req.chain = some draft.chain
  cutover : log.cutover draft.chain = some coins
  built : v.bridge.nextFence s draft.chain coins v.now = .ok fence
  first : fence.tx.spends.head? = some op
  waited : draft.chain = .dogecoinVM → s.surplusSpendWait v.bridge log = .ok ()
  room : v.bridge.feeRoom s.audit fence.fee (v.unseen log req.action.key) = .ok ()
  want : draft.want = fence.tx
  value : draft.value = 0
  surplusFee : draft.surplusFee = some fence.fee

theorem draftFence_ok (h : v.draftFence req log s op = .ok draft) :
    ∃ coins fence, v.DraftsFence req log s op draft coins fence := by
  simp only [draftFence,checks_ok,decide_eq_true_eq] at h
  obtain ⟨chain,hchain,coins,hcut,fence,hfence,redeems,-,hhead,hwait,hroom,rfl⟩ := h
  refine ⟨coins,fence,{
    chain := hchain
    cutover := hcut
    built := hfence
    first := hhead
    waited := ?_
    room := hroom
    want := rfl
    value := rfl
    surplusFee := rfl }⟩
  rintro rfl
  exact hwait

/-- A payment is drafted from the free coins, the anchor first, or from exactly the coins of
the payment it replaces. -/
structure DraftsPayment (v : SignerView) (req : SignRequest) (s : PegState) (p : Payment)
    (draft : Draft) (inputs : List Utxo) (fee : Int64) : Prop where
  chain : draft.chain = .dogecoin
  fresh : ¬0 < req.fee → (∃ a, s.pegAnchor = some a ∧ req.tx.spends.head? = some a.outPoint) ∧
    Picks req.tx (s.lockedUTXOs.filter fun u => 0 < u.confirmations) inputs
  replaces : 0 < req.fee → ∃ r oldFee, s.unconfirmedFor p.data = some (r,oldFee) ∧
    req.tx.spends = r.tx.spends ∧ Picks req.tx (s.coinsOf r.tx) inputs
  built : v.bridge.buildPayout inputs p.value p.dest p.data fee = .ok draft.want
  value : draft.value = p.value
  surplusFee : draft.surplusFee = none

theorem draftPayment_ok (h : v.draftPayment req s p = .ok draft) :
    ∃ inputs fee, v.DraftsPayment req s p draft inputs fee := by
  simp only [draftPayment,checks_ok] at h
  obtain ⟨-,inputs,hinputs,-,want,hwant,redeems,-,rfl⟩ := h
  refine ⟨inputs,_,{
    chain := rfl
    fresh := fun hfee => ?_
    replaces := fun hfee => ?_
    built := hwant
    value := rfl
    surplusFee := rfl }⟩
  · rw [paymentInputs,if_neg hfee] at hinputs
    simp only [newInputs,checks_ok] at hinputs
    exact ⟨spendsAnchor_ok hinputs.1,pick_ok hinputs.2⟩
  · rw [paymentInputs,if_pos hfee] at hinputs
    simp only [replacementInputs,checks_ok,Prod.exists,decide_eq_true_eq] at hinputs
    obtain ⟨r,oldFee,hr,hspends,-,-,hpick⟩ := hinputs
    exact ⟨r,oldFee,hr,hspends,pick_ok hpick⟩

omit [Hashing] in
theorem all_of_all_and {o : Option Hash} {p q : Hash → Bool} (h : (o.all fun a => p a && q a) = true) :
    o.all q = true := by
  cases o with
  | none => rfl
  | some a => exact (Bool.and_eq_true_iff.mp h).2

theorem payoutOf_ok {txid : Hash} (h : payoutOf req s txid = .ok p) :
    ((s.paid txid).all fun paid => 0 < req.fee && s.isUnconfirmed paid) = true ∧
      ∃ peg∈s.pegOuts, peg.txid = txid ∧ p = ⟨peg.value,peg.dest,encodePayment txid⟩ := by
  simp only [payoutOf,checks_ok] at h
  obtain ⟨hpaid,peg,hfind,rfl⟩ := h
  obtain ⟨hmem,rfl⟩ := findPegOut_some hfind
  exact ⟨hpaid,peg,hmem,rfl,rfl⟩

/-- The deposit a refund refunds: never credited, not refunded in a block, and cancelled in
one if it names a destination. -/
structure DraftsRefund (v : SignerView) (req : SignRequest) (log : SigningLog) (s : PegState)
    (op : OutPoint) (p : Payment) (d : Deposit) : Prop where
  refunded : ((s.refunded op).all fun txid => 0 < req.fee && s.isUnconfirmed txid) = true
  released : s.released op = none
  dead : log.releasesDead v.evidence op = true
  deposit : d∈if (s.refunded op).isSome then s.settled else s.held
  outPoint : d.outPoint = op
  cancelled : d.dest = none ∨ s.cancelled op = some true
  deep : v.bridge.confirmationsFor d.value ≤ d.confirmations
  value : p.value = d.value
  data : p.data = encodeRefund op

theorem refundOf_ok {payee : Option Destination}
    (h : v.refundOf req log s op payee = .ok p) : ∃ d, v.DraftsRefund req log s op p d := by
  simp only [refundOf,checks_ok,decide_eq_true_eq,isNone_iff_eq_none,Bool.or_eq_true] at h
  obtain ⟨href,hrel,dest,-,hdead,-,d,hfind,hcan,hdeep,rfl⟩ := h
  obtain ⟨hmem,hop⟩ := findDeposit_some hfind
  exact ⟨d,href,hrel,hdead,hmem,hop,hcan,hdeep,rfl,rfl⟩

inductive Drafted (v : SignerView) (req : SignRequest) (log : SigningLog) (s : PegState) (draft : Draft) :
    Action → Prop where
  | release {op d anchor inputs} :
      v.DraftsRelease req log s op draft d anchor inputs → Drafted v req log s draft (.release op)
  | cancel {op anchor inputs} :
      v.DraftsCancel req log s op draft anchor inputs → Drafted v req log s draft (.cancel op)
  | fence {op coins fence} :
      v.DraftsFence req log s op draft coins fence → Drafted v req log s draft (.fence op)
  | payout {txid p inputs fee} :
      payoutOf req s txid = .ok p → v.DraftsPayment req s p draft inputs fee →
        Drafted v req log s draft (.payout txid)
  | refund {op payee p d inputs fee} :
      v.DraftsRefund req log s op p d → v.DraftsPayment req s p draft inputs fee →
        Drafted v req log s draft (.refund op payee)

theorem draft_ok (h : v.draft req log s = .ok draft) :
    s.audit.solvent = true ∧ v.Drafted req log s draft req.action := by
  unfold SignerView.draft at h
  simp only [checks_ok] at h
  obtain ⟨hsolvent,h⟩ := h
  refine ⟨hsolvent,?_⟩
  cases haction : req.action with
  | release op =>
    rw [haction] at h
    obtain ⟨d,anchor,inputs,h⟩ := draftRelease_ok h
    exact .release h
  | cancel op =>
    rw [haction] at h
    obtain ⟨anchor,inputs,h⟩ := draftCancel_ok h
    exact .cancel h
  | fence op =>
    rw [haction] at h
    obtain ⟨coins,fence,h⟩ := draftFence_ok h
    exact .fence h
  | payout txid =>
    rw [haction] at h
    simp only [checks_ok] at h
    obtain ⟨-,p,hp,hpay⟩ := h
    obtain ⟨inputs,fee,h⟩ := draftPayment_ok hpay
    exact .payout hp h
  | refund op payee =>
    rw [haction] at h
    simp only [checks_ok] at h
    obtain ⟨-,p,hp,hpay⟩ := h
    obtain ⟨inputs,fee,h⟩ := draftPayment_ok hpay
    obtain ⟨d,hd⟩ := refundOf_ok hp
    exact .refund hd h

/-! ## The check -/

/-- What `check` went through before it returned `draft`: `gated` is the signer after the
cutover's part, `learnt` after the identifiers it learned. -/
structure Approves (v : SignerView) (req : SignRequest) (st st' : Signer) (draft : Draft)
    (gated learnt : Signer) : Prop where
  unsigned : req.tx.unsigned = req.tx
  nodup : req.tx.spends.Nodup
  signed : v.unlogged st.log = []
  gate : v.gate req st = (.ok (),gated)
  learn : v.learnSigned gated = (.ok (),learnt)
  drafted : v.draft req learnt.log (v.stateFor learnt.log req.action.key) = .ok draft
  budget : v.budgetRoom req draft learnt = (.ok (),st')
  want : draft.want = req.tx
  permit : st'.log.permit req.action.key draft.chain req.tx draft.unspent v.evidence
    (v.inChain draft.chain) = .ok ()
  anchor : v.anchorCheck req st'.log v.state draft.chain = .ok ()

omit [Hashing] in
theorem unsigned_of_inputs (h : ∀ i∈tx.txIn, i.signatureScript = [] ∧ i.witness = []) : tx.unsigned = tx := by
  have hmap : (tx.txIn.map fun i => { i with signatureScript := [],witness := [] }) = tx.txIn := by
    refine map_congr_left (g := id) (fun i hi => ?_) |>.trans (map_id _)
    obtain ⟨hs,hw⟩ := h i hi
    rw [← hs,← hw]
    rfl
  unfold MsgTx.unsigned
  rw [hmap]

theorem quarantine_ok {st' : Signer} (h : v.quarantine st=(.ok (),st')) : v.unlogged st.log = [] ∧ st = st' := by
  unfold quarantine at h
  split at h
  · cases h
  · dsimp only at h
    split at h
    · next hmissing =>
      cases h
      exact ⟨hmissing,rfl⟩
    · cases h

theorem check_ok {st' : Signer} (h : v.check req st=(.ok draft,st')) :
    ∃ gated learnt, v.Approves req st st' draft gated learnt := by
  simp only [check,Stage.bind_ok,Stage.reads_ok,Stage.pure_ok] at h
  obtain ⟨_,s0,⟨hprop,rfl⟩,_,s1,hquar,_,gated,hgate,_,learnt,hlearn,d,s4,⟨hdraft,rfl⟩,
    _,s5,hbudget,_,s6,⟨haccept,rfl⟩,rfl,rfl⟩ := h
  simp only [proposal,checks_ok] at hprop
  obtain ⟨-,hinputs,-⟩ := hprop
  obtain ⟨hunsigned,hnodup,-⟩ := checkInputs_ok hinputs
  simp only [accepts,checks_ok,decide_eq_true_eq] at haccept
  obtain ⟨hwant,hpermit,hanchor,-⟩ := haccept
  obtain ⟨hmissing,rfl⟩ := quarantine_ok hquar
  exact ⟨gated,learnt,{
    unsigned := unsigned_of_inputs hunsigned
    nodup := hnodup
    signed := hmissing
    gate := hgate
    learn := hlearn
    drafted := hdraft
    budget := hbudget
    want := hwant
    permit := hpermit
    anchor := hanchor }⟩

theorem check_eq_ok (h : (v.check req st).1.toOption=some draft) :
    v.check req st = (.ok draft,(v.check req st).2) := by
  rcases hc : v.check req st with ⟨_ | d,st'⟩
  · rw [hc] at h
    cases h
  · rw [hc] at h
    cases h
    rfl

end SignerView

/-! ## A signer to evaluate the check with -/

def sampleLog (anchors : ChainName → Option OutPoint) : SigningLog :=
  ⟨∅,anchors,.new,fun _ => none, 0, 0, 0, []⟩

def sampleSigner (anchors : ChainName → Option OutPoint) : Signer :=
  ⟨sampleLog anchors,[sampleLog anchors],false⟩

/-- A view of `h` whose operator approves everything. -/
def sampleView (b : Bridge) (h : History) : SignerView where
  bridge := b
  nodes := b.nodes h
  inChain _ _ := false
  confirmedOn _ _ := false
  inSet := true
  signedBy _ := false
  paused := false
  registers := true
  forceApproved _ := true
  refundListed _ := true
  refundApproved _ _ := true
  maxDaily := 0
  now := 0
  disk _ := .done
  marks := true

end

end DogePeg
