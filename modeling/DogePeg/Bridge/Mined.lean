import DogePeg.Bridge.Mempool

/-!
# Chains of blocks alone

Where nothing is unconfirmed, the books have a simpler form: a coin is locked until it is
spent, and an action is settled by the first transaction for it. None of them depends on
how deep a block is.
-/

namespace DogePeg

open Amounts List Bridge

section

variable [Hashing]

structure Mined (h : History) : Prop where
  vm : ∀ t∈h.vm.txs, 0 < t.confirmations
  doge : ∀ t∈h.doge.txs, 0 < t.confirmations

namespace Mined

variable {b : Bridge} {h : History}

theorem inBlocks_doge (hm : Mined h) : inBlocks h.doge.txs = h.doge.txs :=
  filter_eq_self.mpr fun t ht => decide_eq_true (hm.doge t ht)

theorem locked_iff (hm : Mined h) (op : OutPoint) : Locked h.doge.txs op ↔ Unspent h.doge.txs op := by
  refine or_iff_left ?_
  rintro ⟨t,ht,hzero,-⟩
  have := hm.doge t ht
  omega

theorem unconfirmed_eq_nil (hm : Mined h) : (b.state h).unconfirmed = [] := by
  have hun : (b.state h).unconfirmed = _ := (b.payments_spec h.doge).1
  rw [hun,unconfirmedIn,filter_eq_nil_iff]
  intro t ht hzero
  have := hm.doge t (mem_of_mem_filter ht)
  have := of_decide_eq_true hzero
  omega

theorem not_isUnconfirmed (hm : Mined h) (txid : Hash) : (b.state h).isUnconfirmed txid = false := by
  rw [PegState.isUnconfirmed,hm.unconfirmed_eq_nil]
  rfl

theorem unpaid_iff (hm : Mined h) (p : PegOut) : (b.state h).unpaid (some p) = true ↔
      ∀ t∈h.doge.txs.filter (b.dogeSigned h.doge.txs), parsePayment t.tx ≠ some p.txid := by
  obtain ⟨hun,hpaid,-⟩ := b.payments_spec h.doge
  have hnodup : ((h.doge.txs.filter (b.dogeSigned h.doge.txs)).map fun t => t.tx.txHash).Nodup :=
    (filter_sublist.map _).nodup h.doge.nodup
  have hall := hpaid.all_unconfirmed hnodup p.txid
  rw [← hun] at hall
  refine hall.trans (forall₂_congr fun t ht => ?_)
  have := hm.doge t (mem_of_mem_filter ht)
  exact ⟨fun himp hp => by have := himp hp; omega, fun hne hp => absurd hp hne⟩

theorem refunded_eq (hm : Mined h) (op : OutPoint) :
    (b.state h).refunded op = ((h.doge.txs.filter (b.dogeSigned h.doge.txs)).find? fun t =>
      parseRefund t.tx = some op).map fun t => t.tx.txHash := by
  have hpos : ∀ t∈h.doge.txs.filter (b.dogeSigned h.doge.txs), 0 < t.confirmations :=
    fun t ht => hm.doge t (mem_of_mem_filter ht)
  have href : (b.state h).refunded = refundsIn (h.doge.txs.filter (b.dogeSigned h.doge.txs)) := rfl
  cases hfind : (h.doge.txs.filter (b.dogeSigned h.doge.txs)).find? fun t =>
      parseRefund t.tx = some op with
  | some r =>
    refine href ▸ refundsIn_of_find (fun t ht => (hpos t ht).le)
      ((filter_sublist.map _).nodup h.doge.nodup) (hfind ▸ ?_)
    rw [← List.head?_filter,← List.head?_filter]
    refine congrArg List.head? (filter_congr fun t ht => ?_)
    simp [refundsInBlock,hpos t ht]
  | none =>
    rw [List.find?_eq_none] at hfind
    cases hm : (b.state h).refunded op with
    | none => rfl
    | some txid =>
      obtain ⟨t,ht,hp,-⟩ := (b.payments_spec h.doge).2.2.of_some op txid hm
      exact absurd (decide_eq_true hp) (hfind t ht)

end Mined

/-! ## The surplus does not depend on depth -/

def Listing.flat (l : Listing) : Listing where
  txs := l.txs.map fun t => ⟨t.tx,1,0⟩
  nodup := by
    rw [map_map]
    exact l.nodup
  nonneg t ht := by
    obtain ⟨u,-,rfl⟩ := mem_map.mp ht
    exact zero_le_one

def History.flat (h : History) : History := ⟨h.vm.flat,h.doge.flat,[]⟩

omit [Hashing] in
theorem unspent_flat (txs : List ChainTx) (op : OutPoint) :
    Unspent (txs.map fun t => ⟨t.tx,1,0⟩) op ↔ Unspent txs op := by
  simp [Unspent]

theorem mined_flat (h : History) : Mined h.flat where
  vm t ht := by
    obtain ⟨u,-,rfl⟩ := mem_map.mp ht
    exact zero_lt_one
  doge t ht := by
    obtain ⟨u,-,rfl⟩ := mem_map.mp ht
    exact zero_lt_one

namespace Bridge

variable (b : Bridge) (h : History)

theorem vmSigned_flat (t : ChainTx) : b.vmSigned h.flat.vm.txs ⟨t.tx,1,0⟩ = b.vmSigned h.vm.txs t := by
  simp only [vmSigned,reserveOuts,History.flat,Listing.flat,flatMap_map]

theorem dogeSigned_flat (t : ChainTx) : b.dogeSigned h.flat.doge.txs ⟨t.tx,1,0⟩ = b.dogeSigned h.doge.txs t := by
  have hpoints (t : ChainTx) : (coinsWhere b.watches ⟨t.tx,1,0⟩).map (·.outPoint) =
      (coinsWhere b.watches t).map (·.outPoint) := by
    simp [coinsWhere,Function.comp_def]
  simp only [dogeSigned,watchedOuts,History.flat,Listing.flat,flatMap_map,hpoints]

theorem filter_vmSigned_flat (q : MsgTx → Bool) : (h.flat.vm.txs.filter fun t => b.vmSigned h.flat.vm.txs t && q t.tx) =
      (h.vm.txs.filter fun t => b.vmSigned h.vm.txs t && q t.tx).map fun t => ⟨t.tx,1,0⟩ := by
  change (h.vm.txs.map _).filter _ = _
  rw [filter_map]
  refine congrArg _ (filter_congr fun t _ => ?_)
  rw [Function.comp_apply,b.vmSigned_flat h t]

theorem filter_dogeSigned_flat (q : MsgTx → Bool) :
    ((h.flat.doge.txs.filter (b.dogeSigned h.flat.doge.txs)).filter fun t => q t.tx) =
      ((h.doge.txs.filter (b.dogeSigned h.doge.txs)).filter fun t => q t.tx).map fun t => ⟨t.tx,1,0⟩ := by
  change ((h.doge.txs.map _).filter _).filter _ = _
  rw [filter_map,filter_map]
  refine congrArg _ (congrArg _ (filter_congr fun t _ => ?_))
  exact b.dogeSigned_flat h t

theorem released_flat : (b.state h.flat).released = (b.state h).released := by
  funext op
  change b.released h.flat.vm.txs op = b.released h.vm.txs op
  rw [released,released,← List.head?_filter,← List.head?_filter,filter_reverse,
    filter_reverse,b.filter_vmSigned_flat h fun tx => parseRelease tx = some op,
    ← map_reverse, List.head?_map, Option.map_map]
  rfl

theorem isNone_cancelled_flat (op : OutPoint) :
    ((b.state h.flat).cancelled op).isNone = ((b.state h).cancelled op).isNone := by
  have hnone (txs : List ChainTx) : (b.cancelled txs op).isNone =
      (txs.filter fun t => b.vmSigned txs t && parseCancel t.tx = some op).isEmpty := by
    unfold cancelled
    cases txs.filter fun t => b.vmSigned txs t && parseCancel t.tx = some op <;> rfl
  change (b.cancelled h.flat.vm.txs op).isNone = (b.cancelled h.vm.txs op).isNone
  rw [hnone,hnone,b.filter_vmSigned_flat h fun tx => parseCancel tx = some op, isEmpty_map]

end Bridge

namespace Mined

variable {b : Bridge} {h : History}

theorem refunded_flat (hm : Mined h) : (b.state h.flat).refunded = (b.state h).refunded := by
  funext op
  rw [(mined_flat h).refunded_eq,hm.refunded_eq,← List.head?_filter,← List.head?_filter,
    b.filter_dogeSigned_flat h fun tx => parseRefund tx = some op, List.head?_map, Option.map_map]
  rfl

theorem unpaid_flat (hm : Mined h) : (b.state h.flat).unpaid = (b.state h).unpaid := by
  funext p
  cases p with
  | none => rfl
  | some p =>
    have hiff {h : History} (hm : Mined h) : (b.state h).unpaid (some p) = true ↔
        (h.doge.txs.filter (b.dogeSigned h.doge.txs)).filter (fun t => parsePayment t.tx = some p.txid) = [] := by
      rw [hm.unpaid_iff,filter_eq_nil_iff]
      simp only [decide_eq_true_eq]
    rw [Bool.eq_iff_iff,hiff hm,hiff (mined_flat h),
      b.filter_dogeSigned_flat h fun tx => parsePayment tx = some p.txid, map_eq_nil_iff]

theorem unsettled_flat (hm : Mined h) {d e : Deposit} (hop : d.outPoint=e.outPoint)
    (hvalid : d.valid=e.valid) : (b.state h.flat).unsettled d = (b.state h).unsettled e := by
  unfold PegState.unsettled isRefunded isCredit
  rw [hm.refunded_flat,b.released_flat,hm.not_isUnconfirmed,(mined_flat h).not_isUnconfirmed,hop,
    hvalid,b.isNone_cancelled_flat]

theorem dogeTerm_flat (hm : Mined h) {t : ChainTx} (ht : t∈h.doge.txs) :
    b.dogeTerm h.flat ⟨t.tx,1,0⟩ = b.dogeTerm h t := by
  rw [dogeTerm,dogeTerm,if_pos zero_lt_one,if_pos (hm.doge t ht)]
  refine sum_congr fun p _ => ?_
  have hlocked : Locked h.flat.doge.txs p.1 ↔ Locked h.doge.txs p.1 :=
    ((mined_flat h).locked_iff _).trans ((unspent_flat _ _).trans (hm.locked_iff _).symm)
  have hcap : b.isCapital ⟨t.tx,1,0⟩ p = b.isCapital t p := rfl
  have howed : (b.depositOf (b.dogeSigned h.flat.doge.txs ⟨t.tx,1,0⟩) ⟨t.tx,1,0⟩ p).any (b.state h.flat).unsettled =
      (b.depositOf (b.dogeSigned h.doge.txs t) t p).any (b.state h).unsettled := by
    rw [b.dogeSigned_flat]
    unfold depositOf
    rw [hcap]
    split
    · exact hm.unsettled_flat rfl rfl
    · split
      · rfl
      · exact hm.unsettled_flat rfl rfl
  have hcounted : countedValue h.flat.doge.txs p.1 p.2.value = countedValue h.doge.txs p.1 p.2.value :=
    if_congr (unspent_flat _ _) rfl rfl
  rw [dogeOutput,dogeOutput,howed,hcounted]
  exact congrArg (· - _) (if_congr (and_congr_right fun _ => hlocked) rfl rfl)

theorem vmTerm_flat (hm : Mined h) {t : ChainTx} (ht : t∈h.vm.txs) : b.vmTerm h.flat ⟨t.tx,1,0⟩ = b.vmTerm h t := by
  have hpos := hm.vm t ht
  have hne : t.confirmations ≠ 0 := hpos.ne'
  have hout : b.vmOutside h.flat.vm.txs ⟨t.tx,1,0⟩ = b.vmOutside h.vm.txs t := by
    simp [vmOutside,reserveOuts,History.flat,Listing.flat,flatMap_map,hne]
  have hpeg : (b.state h.flat).unpaid (b.pegOutOf ⟨t.tx,1,0⟩) = (b.state h).unpaid (b.pegOutOf t) := by
    rw [hm.unpaid_flat]
    simp only [pegOutOf]
    cases parseDestinationTag t.tx .pegOut with
    | none => rfl
    | some dest =>
      dsimp only
      split <;> rfl
  have hcoins : ((coinsTo b.script ⟨t.tx,1,0⟩).map fun u =>
        if Unspent h.flat.vm.txs u.outPoint then u.value else 0).sum =
      ((coinsTo b.script t).map fun u => if Unspent h.vm.txs u.outPoint then u.value else 0).sum := by
    rw [coinsTo,coinsTo,sum_coinsWhere,sum_coinsWhere]
    exact sum_congr fun p _ => if_congr Iff.rfl (if_congr (unspent_flat h.vm.txs p.1) rfl rfl) rfl
  rw [vmTerm,vmTerm,hcoins,hout,hpeg]
  simp [hpos,hne]

theorem surplus_flat (hm : Mined h) : b.surplus h.flat = b.surplus h := by
  rw [b.surplus_eq,b.surplus_eq]
  change ((h.doge.txs.map _).map _).sum+((h.vm.txs.map _).map _).sum = _
  rw [map_map,map_map]
  exact congrArg₂ (· + ·) (sum_congr fun t ht => hm.dogeTerm_flat ht) (sum_congr fun t ht => hm.vmTerm_flat ht)

theorem surplus_congr {h' : History} (hm : Mined h) (hm' : Mined h') (hvm : h'.vm.txs.map (·.tx)=h.vm.txs.map (·.tx))
    (hdoge : h'.doge.txs.map (·.tx)=h.doge.txs.map (·.tx)) : b.surplus h' = b.surplus h := by
  have hflat {l l' : Listing} (heq : l'.txs.map (·.tx)=l.txs.map (·.tx)) : l'.flat = l.flat := by
    have htxs (l : Listing) : l.flat.txs = (l.txs.map (·.tx)).map fun tx => ⟨tx,1,0⟩ := by
      rw [map_map]
      rfl
    have : l'.flat.txs = l.flat.txs := by rw [htxs,htxs,heq]
    unfold Listing.flat at this ⊢
    congr
  rw [← hm.surplus_flat,← hm'.surplus_flat,History.flat,History.flat,hflat hvm,hflat hdoge]

end Mined

end

end DogePeg
