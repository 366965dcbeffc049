import DogePeg.Signer.Values

/-!
# The coordinator's proposals, built again by a signer

The coordinator chooses coins greedily (`releaseInputs`, `payoutInputs`, `cancelInputs` in
`cmd/dogevm/bridge.go`), and a signer builds the transaction again (`check` in `cmd/dogevm/cosign.go`).
From the same state and policy it never refuses what the coordinator built.
-/

namespace DogePeg

open Amounts Checks List Option SignerView

variable {d : Deposit} {inputs : List Utxo} {tx : MsgTx} {redeems : List Script}

/-! ## The coins a proposal names -/

theorem find?_of_unique {α : Type} {p : α → Bool} {l : List α} {a : α} (ha : a∈l) (hp : p a=true)
    (hunique : ∀ x∈l, p x = true → x = a) : l.find? p = some a := by
  obtain ⟨x,hx⟩ := isSome_iff_exists.mp (List.find?_isSome.mpr ⟨a,ha,hp⟩)
  rw [hx,hunique x (mem_of_find?_eq_some hx) (List.find?_some hx)]

theorem pick_of_spends {listed : List Utxo} (hnodup : (listed.map (·.outPoint)).Nodup)
    (hsub : ∀ u∈inputs, u∈listed) (hspends : tx.spends=inputs.map (·.outPoint)) : pick tx listed = .ok inputs := by
  rw [pick,hspends]
  refine mapM_eq_ok (forall₂_map_left_iff.mpr (forall₂_same.mpr fun u hu => found_eq_ok.mpr ?_))
  refine find?_of_unique (mem_reverse.mpr (hsub u hu)) (decide_eq_true rfl) fun w hw hpoint => ?_
  exact inj_on_of_nodup_map hnodup (mem_reverse.mp hw) (hsub u hu) (of_decide_eq_true hpoint)

section

variable [Hashing]

/-- What the nodes list: amounts the chains allow, and each unspent output once. -/
structure Nodes.ListsCoins (n : Nodes) : Prop where
  listed : n.MoneyRange
  unspent : ∀ u∈n.dogeUnspent, u.InRange
  once : (n.dogeUnspent.map (·.outPoint)).Nodup

/-- A transaction spends the coins the coordinator chose to cover an amount. -/
structure CoinSort.Selected (o : CoinSort) (s : PegState) (chain : ChainName) (need : Int64) (picked : List Utxo)
    (tx : MsgTx) : Prop where
  chosen : ∃ anchor sum, s.freeAnchor chain = some anchor ∧
    o.anchoredSelection anchor (s.freeOn chain) need = .ok (picked,sum)
  spends : tx.spends = picked.map (·.outPoint)

namespace Nodes.ListsCoins

variable {b : Bridge} {n : Nodes}

theorem nodup_freeOn (h : n.ListsCoins) (chain : ChainName) : (((b.load n).freeOn chain).map (·.outPoint)).Nodup := by
  cases chain with
  | dogecoin => exact h.once.sublist (filter_sublist.map _)
  | dogecoinVM =>
    have hnodup : ((b.vmUnspent n.vm.txs n.gettxout).map (·.outPoint)).Nodup :=
      (n.vm.nodup_coins (· = b.script)).sublist (filter_sublist.map _)
    exact hnodup.sublist (filter_sublist.map _)

theorem inRange (h : n.ListsCoins) (chain : ChainName) : ∀ u∈(b.load n).freeOn chain, u.InRange := by
  cases chain with
  | dogecoin => exact fun u hu => h.unspent u (mem_of_mem_filter hu)
  | dogecoinVM => exact fun u hu => h.listed.vmUnspent b u (mem_of_mem_filter hu)

theorem rebuilds (h : n.ListsCoins) {o : CoinSort} {chain : ChainName} {need : Int64} {picked : List Utxo}
    (hselected : o.Selected (b.load n) chain need picked tx) :
    spendsAnchor tx ((b.load n).anchorOn chain) = .ok () ∧ pick tx ((b.load n).freeOn chain) = .ok picked := by
  obtain ⟨⟨anchor,sum,hanchor,hpicked⟩,hspends⟩ := hselected
  refine ⟨?_,pick_of_spends (h.nodup_freeOn chain)
    (o.anchoredSelection_subperm hpicked (freeAnchor_mem hanchor)).subset hspends⟩
  have hsome := (filter_eq_some_iff.mp hanchor).1
  have hhead : tx.spends.head? = some anchor.outPoint := by
    rw [hspends,List.head?_map,o.head_anchoredSelection hpicked]
    rfl
  exact bind_eq_ok.mpr ⟨anchor,found_eq_ok.mpr hsome,ensure_eq_ok.mpr (decide_eq_true hhead)⟩

theorem needed (h : n.ListsCoins) (o : CoinSort) {chain : ChainName} {anchor : Utxo} {need sum : Int64}
    {picked : List Utxo} (hanchor : (b.load n).freeAnchor chain=some anchor)
    (hpicked : o.anchoredSelection anchor ((b.load n).freeOn chain) need = .ok (picked,sum))
    (hcovers : need ≤ inputsTotal picked) : unneededInput picked need = none :=
  o.unneeded_anchoredSelection (h.inRange chain anchor (freeAnchor_mem hanchor)).1
    (fun u hu => (h.inRange chain u hu).1) hpicked hcovers

end Nodes.ListsCoins

/-! ## What the coordinator proposes -/

inductive CancelError where
  | pending
  | build (e : BuildError)
  deriving DecidableEq

namespace CoinSort

variable (o : CoinSort) (b : Bridge) (s : PegState)

/-- `cancel`, up to the proposal. A signer's transaction in the mempool is one that is pending. -/
def cancel (op : OutPoint) : Except CancelError (MsgTx × List Script) := do
  ensure (s.vmUnconfirmed = []) .pending
  let inputs ← (o.cancelInputs s b.vmFee).mapError .build
  let tx ← (b.buildCancel inputs op).mapError .build
  return (tx,inputs.map fun _ => b.redeemScript)

/-- The requests the coordinator makes of signers with a state and a policy. -/
inductive Proposes : SignRequest → Prop where
  | release {d : Deposit} {inputs : List Utxo} {tx : MsgTx} {redeems : List Script} (deposit : d∈s.deposits)
      (built : o.release b s d = .ok (inputs,tx,redeems)) :
      Proposes ⟨some .dogecoinVM,.release d.outPoint,tx,0⟩
  | cancel {op : OutPoint} {tx : MsgTx} {redeems : List Script} (built : o.cancel b s op = .ok (tx,redeems)) :
      Proposes ⟨some .dogecoinVM,.cancel op,tx,0⟩
  | pay {p : PegOut} {tx : MsgTx} {redeems : List Script} (pegOut : p∈s.pegOuts)
      (built : o.payFromPeg b s p.value p.dest (encodePayment p.txid) = .ok (tx,redeems)) :
      Proposes ⟨some .dogecoin,.payout p.txid,tx,0⟩
  | refund {op : OutPoint} {d : Deposit} {dest : Destination} {tx : MsgTx} {redeems : List Script}
      (deposit : findDeposit s.held op=some d) (open_ : s.refunded op=none)
      (built : o.payFromPeg b s d.value dest (encodeRefund op) = .ok (tx,redeems)) :
      Proposes ⟨some .dogecoin,.refund op (some dest),tx,0⟩

end CoinSort

/-! ## What a signer makes of it -/

/-- Whether `check` refuses for the coins a transaction spends, or for how it is built. -/
def Refusal.ofRebuild : Refusal → Bool
  | .noAnchor | .notAnchor _ | .unknownCoin _ | .notCovered | .belowFee | .build _ | .noRedeem _
  | .otherTransaction => true
  | _ => false

namespace SignerView

variable {v : SignerView} {req : SignRequest} {log : SigningLog} {s : PegState} {op : OutPoint}

/-- A draft that is the transaction asked for, or a refusal for another reason. -/
structure Rebuilds (req : SignRequest) (x : Except Refusal Draft) : Prop where
  refusal : FailsIn (fun e => e.ofRebuild = false) x
  want : ∀ draft, x = .ok draft → draft.want = req.tx

omit [Hashing] in
theorem Rebuilds.bind {α : Type} {x : Except Refusal α} {f : α → Except Refusal Draft}
    (hx : FailsIn (fun e => e.ofRebuild = false) x) (hf : ∀ a, x = .ok a → Rebuilds req (f a)) :
    Rebuilds req (x >>= f) where
  refusal := .bind hx fun a ha => (hf a ha).refusal
  want draft hdraft := by
    obtain ⟨a,ha,ha'⟩ := bind_eq_ok.mp hdraft
    exact (hf a ha).want draft ha'

omit [Hashing] in
theorem shallowRoom_failsIn (b : Bridge) (d : Deposit) (promised : Int64) :
    FailsIn (fun e => e.ofRebuild = false) (b.shallowRoom s d promised) := by
  unfold Bridge.shallowRoom
  split
  · exact .ok ()
  · exact .ensure fun _ => rfl

theorem surplusSpendWait_failsIn (b : Bridge) (log : SigningLog) :
    FailsIn (fun e => e.ofRebuild = false) (s.surplusSpendWait b log) := by
  refine .bind (.ensure fun _ => rfl) fun _ _ => ?_
  split
  · exact .error rfl
  · exact .ok ()

theorem rebuilds_draftRelease (hfind : findDeposit s.deposits op=some d)
    (hspends : spendsAnchor req.tx s.reserveAnchor = .ok ()) (hpick : pick req.tx s.reserveUTXOs = .ok inputs)
    (hcovers : d.value+pegDust ≤ inputsTotal inputs) (htx : v.bridge.buildRelease inputs d=req.tx) :
    Rebuilds req (v.draftRelease req log s op) where
  refusal := by
    refine .bind (.ensure fun _ => rfl) fun _ _ => .bind (.ensure fun _ => rfl) fun _ _ => ?_
    refine .bind (.ensure fun _ => rfl) fun _ _ => .bind (.ensure fun _ => rfl) fun _ _ => ?_
    refine .bind (.ensure fun _ => rfl) fun _ _ => .bind (.found fun _ => rfl) fun d' hd' => ?_
    obtain rfl : d = d' := Option.some.inj (hfind.symm.trans (found_eq_ok.mp hd'))
    refine .bind (.ensure fun _ => rfl) fun _ _ => .bind (.ensure fun _ => rfl) fun _ _ => ?_
    refine .bind (shallowRoom_failsIn _ _ _) fun _ _ => ?_
    rw [hspends,hpick]
    refine .bind (.ok ()) fun _ _ => .bind (.ok inputs) fun inputs' hinputs => ?_
    cases hinputs
    refine .bind (.ensure fun hfalse => ?_) fun _ _ => .pure _
    exact absurd hcovers (of_decide_eq_false hfalse)
  want draft h := by
    simp only [draftRelease,checks_ok,hfind,hpick] at h
    grind

theorem cancelApproved_failsIn (op : OutPoint) : FailsIn (fun e => e.ofRebuild = false) (v.cancelApproved s op) := by
  unfold cancelApproved
  split
  · exact .ensure fun _ => rfl
  · refine .bind (.found fun _ => rfl) fun _ _ => ?_
    exact .bind (.ensure fun _ => rfl) fun _ _ => .ensure fun _ => rfl

theorem rebuilds_draftCancel (hspends : spendsAnchor req.tx s.reserveAnchor = .ok ())
    (hpick : pick req.tx s.reserveUTXOs = .ok inputs) (htx : v.bridge.buildCancel inputs op = .ok req.tx) :
    Rebuilds req (v.draftCancel req log s op) where
  refusal := by
    obtain ⟨anchor,hanchor,-⟩ := bind_eq_ok.mp hspends
    refine .bind (.ensure fun _ => rfl) fun _ _ => .bind (.ensure fun _ => rfl) fun _ _ => ?_
    refine .bind (.ensure fun _ => rfl) fun _ _ => .bind (.ensure fun _ => rfl) fun _ _ => ?_
    rw [found_eq_ok.mp hanchor]
    refine .bind (.ok anchor) fun _ _ => .bind (.ensure fun _ => rfl) fun _ _ => ?_
    refine .bind (cancelApproved_failsIn op) fun _ _ => ?_
    rw [← found_eq_ok.mp hanchor,hspends,hpick]
    refine .bind (.ok ()) fun _ _ => .bind (.ok inputs) fun inputs' hinputs => ?_
    cases hinputs
    rw [htx]
    refine .bind (.ok req.tx) fun _ _ => .bind (surplusSpendWait_failsIn _ _) fun _ _ => ?_
    exact .bind (.ensure fun _ => rfl) fun _ _ => .pure _
  want draft h := by
    simp only [draftCancel,checks_ok,hpick] at h
    grind

theorem rebuilds_draftPayment {p : Payment} (hfee : req.fee=0)
    (hvalue : v.bridge.dogeFee<p.value) (hspends : spendsAnchor req.tx s.pegAnchor = .ok ())
    (hpick : pick req.tx (s.lockedUTXOs.filter fun u => 0 < u.confirmations) = .ok inputs)
    (htx : v.bridge.buildPayout inputs p.value p.dest p.data v.bridge.dogeFee = .ok req.tx)
    (hredeems : inputs.mapM (fun u => found (v.bridge.redeemFor u.pkScript) (PayError.noRedeemScript u.outPoint)) =
      .ok redeems) : Rebuilds req (v.draftPayment req s p) := by
  have hinputs : v.paymentInputs req s p = .ok inputs := by
    rw [paymentInputs,hfee,if_neg (by decide)]
    exact bind_eq_ok.mpr ⟨(),hspends,hpick⟩
  have hscripts : inputs.mapM (fun u => found (v.bridge.redeemFor u.pkScript) (Refusal.noRedeem u.outPoint)) =
      .ok redeems := by
    refine mapM_eq_ok ((forall₂_of_mapM_ok hredeems).imp fun u script hscript => ?_)
    exact found_eq_ok.mpr (found_eq_ok.mp hscript)
  have hfeeOf : (if 0 < req.fee then req.fee else v.bridge.dogeFee) = v.bridge.dogeFee := by
    rw [hfee,if_neg (by decide)]
  have hcovers := (v.bridge.buildPayout_ok htx).1
  refine ⟨?_,fun draft h => ?_⟩
  · refine .bind (.ensure fun hfalse => absurd hvalue (of_decide_eq_false hfalse)) fun _ _ => ?_
    rw [hinputs]
    refine .bind (.ok inputs) fun inputs' hsame => ?_
    cases hsame
    refine .bind (.ensure fun hfalse => absurd hcovers (of_decide_eq_false hfalse)) fun _ _ => ?_
    simp only [hfeeOf,htx,hscripts]
    refine .bind (.ok req.tx) fun _ _ => ?_
    exact .bind (.ok redeems) fun _ _ => .pure _
  · simp only [draftPayment,checks_ok,hinputs,hfeeOf] at h
    grind

/-! ## The whole switch -/

theorem findDeposit_of_mem (b : Bridge) (n : Nodes) (hd : d∈(b.load n).deposits) :
    findDeposit (b.load n).deposits d.outPoint = some d := by
  have hnodup : ((b.load n).deposits.map (·.outPoint)).Nodup :=
    (b.nodup_allDeposits n.doge).sublist ((filter_sublist.trans filter_sublist).map _)
  refine find?_of_unique hd (decide_eq_true rfl) fun d' hd' hpoint => ?_
  exact inj_on_of_nodup_map hnodup hd' hd (of_decide_eq_true hpoint)

theorem findPegOut_of_mem (b : Bridge) (n : Nodes) {p : PegOut} (hp : p∈(b.load n).pegOuts) :
    findPegOut (b.load n).pegOuts p.txid = some p := by
  have hof (q : PegOut) (hq : q∈(b.load n).pegOuts) :
      ∃ t∈n.vm.txs, b.pegOutOf t = some q ∧ q.txid = t.tx.txHash := by
    obtain ⟨t,ht,hq⟩ := mem_filterMap.mp hq
    refine ⟨t,mem_of_mem_filter ht,hq,?_⟩
    unfold Bridge.pegOutOf at hq
    grind
  refine find?_of_unique hp (decide_eq_true rfl) fun q hq htxid => ?_
  obtain ⟨t,ht,htp,hpid⟩ := hof p hp
  obtain ⟨u,hu,huq,hqid⟩ := hof q hq
  have hhash : u.tx.txHash = t.tx.txHash := by rw [← hqid,← hpid,of_decide_eq_true htxid]
  obtain rfl := inj_on_of_nodup_map n.vm.nodup hu ht hhash
  exact Option.some.inj (huq.symm.trans htp)

theorem payoutOf_failsIn (txid : Hash) : FailsIn (fun e => e.ofRebuild = false) (payoutOf req s txid) := by
  refine .bind (.ensure fun _ => rfl) fun _ _ => ?_
  exact .bind (.found fun _ => rfl) fun _ _ => .pure _

theorem refundOf_failsIn (op : OutPoint) (payee : Option Destination) :
    FailsIn (fun e => e.ofRebuild = false) (v.refundOf req log s op payee) := by
  refine .bind (.ensure fun _ => rfl) fun _ _ => .bind (.ensure fun _ => rfl) fun _ _ => ?_
  refine .bind (.found fun _ => rfl) fun _ _ => .bind (.ensure fun _ => rfl) fun _ _ => ?_
  refine .bind (.ensure fun _ => rfl) fun _ _ => .bind (.found fun _ => rfl) fun _ _ => ?_
  exact .bind (.ensure fun _ => rfl) fun _ _ => .bind (.ensure fun _ => rfl) fun _ _ => .pure _

end SignerView

namespace CoinSort

variable {o : CoinSort} {v : SignerView} {log : SigningLog} {s : PegState} {req : SignRequest}

omit [Hashing] in
theorem freeReserveAnchor_ok {anchor : Utxo} (h : s.freeReserveAnchor = .ok anchor) :
    s.freeAnchor .dogecoinVM = some anchor := by
  simp only [PegState.freeReserveAnchor,checks_ok] at h
  obtain ⟨_,hanchor,hcontains,rfl⟩ := h
  exact filter_eq_some_iff.mpr ⟨hanchor,hcontains⟩

theorem release_ok {b : Bridge} (h : o.release b s d = .ok (inputs,tx,redeems)) :
    o.Selected s .dogecoinVM (d.value+pegDust) inputs tx ∧ tx = b.buildRelease inputs d := by
  simp only [release,releaseInputs,checks_ok,Prod.mk.injEq] at h
  obtain ⟨⟨picked,sum⟩,⟨anchor,hanchor,hpicked⟩,rfl,rfl,rfl⟩ := h
  exact ⟨⟨⟨anchor,sum,freeReserveAnchor_ok hanchor,hpicked⟩,b.buildRelease_spends picked d⟩,rfl⟩

theorem cancel_ok {b : Bridge} {op : OutPoint} (h : o.cancel b s op = .ok (tx,redeems)) :
    ∃ inputs, o.Selected s .dogecoinVM (b.vmFee+pegDust) inputs tx ∧ b.buildCancel inputs op = .ok tx := by
  simp only [cancel,cancelInputs,checks_ok,Prod.mk.injEq] at h
  obtain ⟨-,_,⟨anchor,hanchor,⟨picked,sum⟩,hpicked,rfl⟩,tx,hbuilt,rfl,rfl⟩ := h
  refine ⟨picked,⟨⟨anchor,sum,freeReserveAnchor_ok hanchor,hpicked⟩,?_⟩,hbuilt⟩
  obtain ⟨-,-,-,rfl⟩ := b.buildCancel_ok hbuilt
  exact newTx_spends ..

theorem payFromPeg_ok {b : Bridge} {value : Int64} {dest : Destination} {data : List UInt8}
    (h : o.payFromPeg b s value dest data = .ok (tx,redeems)) :
    ∃ inputs, o.Selected s .dogecoin value inputs tx ∧ b.dogeFee < value ∧
      b.buildPayout inputs value dest data b.dogeFee = .ok tx ∧
      inputs.mapM (fun u => found (b.redeemFor u.pkScript) (PayError.noRedeemScript u.outPoint)) = .ok redeems := by
  simp only [payFromPeg,payoutInputs,checks_ok,Prod.mk.injEq,decide_eq_true_eq] at h
  obtain ⟨hfee,_,⟨anchor,hanchor,hcontains,⟨picked,sum⟩,hpicked,rfl⟩,tx,hbuilt,_,hredeems,rfl,rfl⟩ := h
  have hfree : s.freeAnchor .dogecoin = some anchor := filter_eq_some_iff.mpr ⟨hanchor,hcontains⟩
  refine ⟨picked,⟨⟨anchor,sum,hfree,hpicked⟩,?_⟩,hfee,hbuilt,hredeems⟩
  obtain ⟨-,-,-,-,rfl⟩ := b.buildPayout_ok hbuilt
  exact newTx_spends ..

theorem rebuilds_payment (hlists : v.nodes.ListsCoins) {p : SignerView.Payment} (hfee : req.fee=0)
    (h : o.payFromPeg v.bridge v.state p.value p.dest p.data = .ok (req.tx,redeems)) :
    SignerView.Rebuilds req (v.draftPayment req (v.stateFor log req.action.key) p) := by
  obtain ⟨inputs,hselected,hvalue,hbuilt,hredeems⟩ := payFromPeg_ok h
  obtain ⟨hfirst,hpick⟩ := hlists.rebuilds hselected
  exact rebuilds_draftPayment hfee hvalue hfirst hpick hbuilt hredeems

theorem Proposes.rebuilds (hlists : v.nodes.ListsCoins) (h : o.Proposes v.bridge v.state req) :
    SignerView.Rebuilds req (v.draft req log (v.stateFor log req.action.key)) := by
  refine .bind (.ensure fun _ => rfl) fun _ _ => ?_
  cases h with
  | @release d inputs tx redeems hd hbuilt =>
    obtain ⟨hselected,rfl⟩ := release_ok hbuilt
    obtain ⟨hfirst,hpick⟩ := hlists.rebuilds hselected
    obtain ⟨anchor,sum,hfree,hpicked⟩ := hselected.chosen
    obtain ⟨hlo,hhi⟩ := deposit_inRange hlists.listed hd
    have hdust : pegDust.toInt = 1000000 := by decide
    have hneed : (d.value+pegDust).toInt = d.value.toInt+pegDust.toInt := toInt_add_of_bounds (by omega) (by omega)
    obtain ⟨rfl,hcovers⟩ := o.anchoredSelection_ok hpicked (hlists.inRange _ _ (freeAnchor_mem hfree))
      (hlists.inRange _) (by omega)
    exact rebuilds_draftRelease (findDeposit_of_mem _ _ hd) hfirst hpick hcovers rfl
  | cancel hbuilt =>
    obtain ⟨inputs,hselected,hbuilt⟩ := cancel_ok hbuilt
    obtain ⟨hfirst,hpick⟩ := hlists.rebuilds hselected
    exact rebuilds_draftCancel hfirst hpick hbuilt
  | pay hp hbuilt =>
    refine .bind (.ensure fun _ => rfl) fun _ _ => .bind (payoutOf_failsIn _) fun p hpay => ?_
    simp only [SignerView.payoutOf,checks_ok] at hpay
    obtain ⟨-,q,hq,rfl⟩ := hpay
    cases (findPegOut_of_mem _ _ hp).symm.trans hq
    exact rebuilds_payment hlists rfl hbuilt
  | @refund op d dest tx redeems hd hopen hbuilt =>
    refine .bind (.ensure fun _ => rfl) fun _ _ => .bind (refundOf_failsIn _ _) fun p hpay => ?_
    simp only [SignerView.refundOf,checks_ok] at hpay
    obtain ⟨-,-,dest',hdest,-,-,d',hd',-,-,rfl⟩ := hpay
    have hheld : findDeposit v.state.held op = some d' := by
      change findDeposit (if (v.state.refunded op).isSome = true then _ else v.state.held) op = some d' at hd'
      rwa [hopen] at hd'
    cases hd.symm.trans hheld
    cases hdest
    exact rebuilds_payment hlists rfl hbuilt

/-! ## The coordinator's own check -/

end CoinSort

end

section Sample

attribute [local instance] sampleHashing

end Sample

end DogePeg
