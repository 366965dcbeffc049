import DogePeg.Bridge.Outsiders
import DogePeg.Bridge.Steps

/-!
# The mempool and the audit

An unconfirmed Dogecoin transaction takes coins off the wallet's list, makes an action pending and a
deposit settled; `load` puts each of these back, so that the audit is the one of the blocks alone. A
coin it puts back counts for what it is worth, though, and for what the wallet read before. An
unconfirmed transaction of the reserve counts at once.
-/

namespace DogePeg

open Amounts Option Bridge

section

variable [Hashing]

/-! ## The blocks alone -/

def Listing.confirmed (l : Listing) : Listing where
  txs := inBlocks l.txs
  nodup := (List.filter_sublist.map _).nodup l.nodup
  nonneg t ht := l.nonneg t (mem_inBlocks.mp ht).1

def History.confirmed (h : History) : History := { h with doge := h.doge.confirmed }

omit [Hashing] in
theorem mem_unconfirmedIn {txs : List ChainTx} {t : ChainTx} :
    t ∈ unconfirmedIn txs ↔ t∈txs ∧ t.confirmations = 0 := by
  simp [unconfirmedIn]

omit [Hashing] in
theorem unconfirmedIn_inBlocks (txs : List ChainTx) : unconfirmedIn (inBlocks txs) = [] := by
  refine List.filter_eq_nil_iff.mpr fun t ht h => ?_
  have := (mem_inBlocks.mp ht).2
  have := of_decide_eq_true h
  omega

/-! ## The refunds that count -/

section SettleBy

variable {κ : Type} [DecidableEq κ] {un : List ChainTx} {t : ChainTx} {m : κ → Option Hash} {k : κ}

theorem settleBy_of_ne {key : Option κ} (h : key≠some k) : settleBy un t key m k = m k := by
  unfold settleBy
  cases key with
  | none => rfl
  | some key =>
    dsimp only
    split
    · exact Function.update_of_ne (fun heq => h (congrArg some heq.symm)) _ _
    · rfl

theorem settleBy_self : settleBy un t (some k) m k =
      if (m k).all fun prev => un.any (fun u => u.tx.txHash = prev) && 0 < t.confirmations then
        some t.tx.txHash
      else m k := by
  unfold settleBy
  dsimp only
  split
  · exact Function.update_self ..
  · rfl

end SettleBy

/-- The refunds `load` has recorded after it went through `l`. -/
def refundsIn (l : List ChainTx) : OutPoint → Option Hash :=
  (l.foldl addPayment ⟨[],fun _ => none, fun _ => none⟩).refunded

theorem refundsIn_append {l : List ChainTx} {t : ChainTx} (hpos : ∀ u∈l++[t], 0 ≤ u.confirmations) :
    refundsIn (l++[t]) = settleBy (unconfirmedIn (l++[t])) t (parseRefund t.tx) (refundsIn l) := by
  have hun := (foldl_addPayment l fun u hu => hpos u (List.mem_append_left _ hu)).1
  have hun' := (foldl_addPayment _ hpos).1
  rw [List.foldl_append,List.foldl_cons,List.foldl_nil,addPayment,hun] at hun'
  rw [refundsIn,List.foldl_append,List.foldl_cons,List.foldl_nil,addPayment,hun]
  exact congrArg (settleBy · t _ _) hun'

def refundsInBlock (op : OutPoint) (t : ChainTx) : Bool :=
  0 < t.confirmations && parseRefund t.tx = some op

theorem refundsIn_of_find {l : List ChainTx} (hpos : ∀ t∈l, 0 ≤ t.confirmations)
    (hnodup : (l.map fun t => t.tx.txHash).Nodup) {op : OutPoint} {r : ChainTx}
    (hfind : l.find? (refundsInBlock op)=some r) : refundsIn l op = some r.tx.txHash := by
  induction l using List.reverseRecOn with
  | nil => simp at hfind
  | append_singleton l t ih =>
    have hposl : ∀ u∈l, 0 ≤ u.confirmations := fun u hu => hpos u (List.mem_append_left _ hu)
    have hnodupl : (l.map fun t => t.tx.txHash).Nodup := ((List.sublist_append_left l [t]).map _).nodup hnodup
    rw [refundsIn_append hpos]
    rw [List.find?_append] at hfind
    cases hl : l.find? (refundsInBlock op) with
    | some u =>
      -- nothing takes the place of one in a block
      rw [hl,some_or,Option.some.injEq] at hfind
      subst hfind
      have hu := ih hposl hnodupl hl
      by_cases hkey : parseRefund t.tx = some op
      · rw [hkey,settleBy_self,hu,if_neg]
        simp only [all_some,Bool.and_eq_true,List.any_eq_true,decide_eq_true_eq]
        rintro ⟨⟨w,hw,heq⟩,-⟩
        obtain ⟨hw,hzero⟩ := mem_unconfirmedIn.mp hw
        have hmem : u∈l++[t] := List.mem_append_left _ (List.mem_of_find?_eq_some hl)
        obtain rfl := List.inj_on_of_nodup_map hnodup hw hmem heq
        have hblock := List.find?_some hl
        simp [refundsInBlock,hzero] at hblock
      · rw [settleBy_of_ne hkey,hu]
    | none =>
      rw [hl,none_or,List.find?_singleton] at hfind
      split at hfind
      case isFalse => cases hfind
      case isTrue hblock =>
        cases hfind
        rw [refundsInBlock,Bool.and_eq_true,decide_eq_true_eq,decide_eq_true_eq] at hblock
        rw [hblock.2,settleBy_self,if_pos]
        cases hm : refundsIn l op with
        | none => rfl
        | some prev =>
          -- one in the mempool gives way
          obtain ⟨v,hv,hpv,hhash,-⟩ := (foldl_addPayment l hposl).2.2.of_some op prev hm
          have hnot := List.find?_eq_none.mp hl v hv
          have hzero : v.confirmations = 0 := by
            have := hposl v hv
            simp only [refundsInBlock,hpv,Bool.and_eq_true,decide_eq_true_eq,and_true] at hnot
            omega
          simp only [all_some,Bool.and_eq_true,List.any_eq_true,decide_eq_true_eq]
          exact ⟨⟨v,mem_unconfirmedIn.mpr ⟨List.mem_append_left _ hv,hzero⟩,hhash⟩,hblock.1⟩

/-! ## The audit without the mempool -/

/-- What holds of Dogecoin's mempool beside its blocks. -/
structure MempoolFits (h : History) : Prop where
  /-- No transaction in a block spends an output of one that is not. -/
  funded : ∀ t∈inBlocks h.doge.txs, ∀ u∈unconfirmedIn h.doge.txs, ∀ op∈t.tx.spends,
    op.hash ≠ u.tx.txHash
  /-- Nothing in the mempool spends what a block spends: the wallet has such a transaction
  as conflicted. -/
  unspent : ∀ t∈inBlocks h.doge.txs, ∀ u∈unconfirmedIn h.doge.txs, ∀ op∈t.tx.spends,
    op ∉ u.tx.spends

structure MempoolValid (b : Bridge) (h : History) : Prop extends MempoolFits h where
  refunds : ∀ u∈unconfirmedIn h.doge.txs, b.dogeSigned h.doge.txs u → ∀ op,
    parseRefund u.tx = some op → (b.state h).released op = none

/-- The peg's confirmed outputs that a mempool transaction spends. -/
def Bridge.spentInMempool (b : Bridge) (txs : List ChainTx) : List Utxo :=
  (b.confirmedCoins txs).filter fun u => ∃ t∈txs, t.confirmations = 0 ∧ u.outPoint∈t.tx.spends

namespace MempoolFits

variable {b : Bridge} {h : History} (hv : MempoolFits h)

include hv

theorem dogeSigned_eq {t : ChainTx} (ht : t∈inBlocks h.doge.txs) :
    b.dogeSigned h.confirmed.doge.txs t = b.dogeSigned h.doge.txs t := by
  rw [Bool.eq_iff_iff,dogeSigned,dogeSigned,spendsAny,spendsAny,List.any_eq_true,List.any_eq_true]
  refine exists_congr fun op => and_congr_right fun hop => ?_
  rw [decide_eq_true_eq,decide_eq_true_eq,b.mem_watchedOuts,b.mem_watchedOuts]
  constructor
  · rintro ⟨u,hu,hcoin⟩
    exact ⟨u,(mem_inBlocks.mp hu).1,hcoin⟩
  · rintro ⟨u,hu,c,hc,rfl⟩
    refine ⟨u,mem_inBlocks.mpr ⟨hu,?_⟩,c,hc,rfl⟩
    have hhash : c.outPoint.hash = u.tx.txHash := u.tx.hash_of_mem_outputs (mem_coinsWhere.mp hc).1
    have := h.doge.nonneg u hu
    by_contra hpos
    exact hv.funded t ht u (mem_unconfirmedIn.mpr ⟨hu,by omega⟩) _ hop hhash

theorem signed_inBlocks : h.confirmed.doge.txs.filter (b.dogeSigned h.confirmed.doge.txs) =
      inBlocks (h.doge.txs.filter (b.dogeSigned h.doge.txs)) := by
  rw [inBlocks,List.filter_comm]
  exact List.filter_congr fun t ht => hv.dogeSigned_eq ht

theorem unconfirmed_eq_nil : (b.state h.confirmed).unconfirmed = [] := by
  have hspec := (b.payments_spec h.confirmed.doge).1
  rw [hv.signed_inBlocks,unconfirmedIn_inBlocks] at hspec
  exact hspec

theorem locked_iff (op : OutPoint) : Locked h.confirmed.doge.txs op ↔ Locked h.doge.txs op := by
  constructor
  · rintro (hun | ⟨t,ht,hzero,-⟩)
    · by_cases hall : Unspent h.doge.txs op
      · exact .inl hall
      · simp only [Unspent,not_forall,not_not] at hall
        obtain ⟨t,ht,hop⟩ := hall
        refine .inr ⟨t,ht,?_,hop⟩
        have := h.doge.nonneg t ht
        by_contra hne
        exact hun t (mem_inBlocks.mpr ⟨ht,by omega⟩) hop
    · have := (mem_inBlocks.mp ht).2
      omega
  · rintro (hun | ⟨u,hu,hzero,hop⟩)
    · exact .inl hun.inBlocks
    · exact .inl fun t ht hop' => hv.unspent t ht u (mem_unconfirmedIn.mpr ⟨hu,hzero⟩) op hop' hop

/-- The coins that a mempool transaction spends count for what the wallet read no longer. -/
theorem locked_add : (b.state h.confirmed).locked+total ((b.spentInMempool h.doge.txs).map (·.value)) =
      (b.state h).locked+total ((b.spentInMempool h.doge.txs).map fun u => readAmount u.value) := by
  have hblocks : inBlocks h.confirmed.doge.txs = inBlocks h.doge.txs :=
    List.filter_filter.trans (by simp [inBlocks])
  rw [b.locked_eq,b.locked_eq,hblocks,total_eq_sum,total_eq_sum,spentInMempool,sum_filter,sum_filter,
    confirmedCoins,sum_flatMap,sum_flatMap,← List.sum_map_add,← List.sum_map_add]
  refine sum_congr fun t _ => ?_
  rw [← List.sum_map_add,← List.sum_map_add]
  refine sum_congr fun u _ => ?_
  simp only [hv.locked_iff,decide_eq_true_eq]
  have hread (hlocked : Locked h.doge.txs u.outPoint) :
      countedValue h.confirmed.doge.txs u.outPoint u.value = readAmount u.value := by
    refine if_pos ((hv.locked_iff _).mpr hlocked |>.resolve_right ?_)
    rintro ⟨t,ht,hzero,-⟩
    have := (mem_inBlocks.mp ht).2
    omega
  by_cases hun : Unspent h.doge.txs u.outPoint
  · have hno : ¬∃ t∈h.doge.txs, t.confirmations = 0 ∧ u.outPoint∈t.tx.spends := by
      rintro ⟨t,ht,-,hs⟩
      exact hun t ht hs
    have hlocked : Locked h.doge.txs u.outPoint := .inl hun
    rw [if_pos hlocked,if_pos hlocked,hread hlocked,countedValue,if_pos hun,if_neg hno,if_neg hno]
  · by_cases hspent : ∃ t∈h.doge.txs, t.confirmations = 0 ∧ u.outPoint∈t.tx.spends
    · have hlocked : Locked h.doge.txs u.outPoint := .inr hspent
      rw [if_pos hlocked,if_pos hlocked,hread hlocked,countedValue,if_neg hun,if_pos hspent,if_pos hspent,add_comm]
    · have hlocked : ¬Locked h.doge.txs u.outPoint := not_or_intro hun hspent
      rw [if_neg hlocked,if_neg hlocked,if_neg hspent,if_neg hspent]

theorem locked_eq_iff : (b.state h).locked = (b.state h.confirmed).locked ↔
    total ((b.spentInMempool h.doge.txs).map fun u => readAmount u.value) =
      total ((b.spentInMempool h.doge.txs).map (·.value)) := by
  have hadd := hv.locked_add (b := b)
  constructor
  · intro heq
    rw [heq] at hadd
    exact (add_left_cancel hadd).symm
  · intro heq
    rw [heq] at hadd
    exact (add_right_cancel hadd).symm

theorem unpaid_eq : (b.state h.confirmed).unpaid = (b.state h).unpaid := by
  have hnodup (l : Listing) (p : ChainTx → Bool) :
      ((l.txs.filter p).map fun t => t.tx.txHash).Nodup := (List.filter_sublist.map _).nodup l.nodup
  have hkey (h : History) (txid : Hash) : ((b.state h).paid txid).all (b.state h).isUnconfirmed = true ↔
        ∀ t∈h.doge.txs.filter (b.dogeSigned h.doge.txs), parsePayment t.tx = some txid → t.confirmations = 0 := by
    obtain ⟨hun,hpaid,-⟩ := b.payments_spec h.doge
    rw [← hpaid.all_unconfirmed (hnodup h.doge _),← hun]
    rfl
  funext p
  refine congrArg (Option.all · p) (funext fun p => ?_)
  rw [Bool.eq_iff_iff,hkey,hkey,hv.signed_inBlocks]
  constructor
  · intro hall t ht hp
    have := h.doge.nonneg t (List.mem_of_mem_filter ht)
    by_contra hne
    have hpos : 0 < t.confirmations := by omega
    have := hall t (mem_inBlocks.mpr ⟨ht,hpos⟩) hp
    omega
  · exact fun hall t ht => hall t (mem_inBlocks.mp ht).1

end MempoolFits

namespace MempoolValid

variable {b : Bridge} {h : History}

theorem refunded_cases (hv : MempoolValid b h) (op : OutPoint) :
    (∃ txid, (b.state h.confirmed).refunded op = some txid ∧ (b.state h).refunded op = some txid ∧
        (b.state h.confirmed).isUnconfirmed txid = false ∧ (b.state h).isUnconfirmed txid = false) ∨
      (b.state h.confirmed).refunded op = none ∧ ∀ txid, (b.state h).refunded op = some txid →
          (b.state h).isUnconfirmed txid ∧ (b.state h).released op = none := by
  let signed := h.doge.txs.filter (b.dogeSigned h.doge.txs)
  have hrefunded : (b.state h).refunded = refundsIn signed := rfl
  have hconfirmed : (b.state h.confirmed).refunded = refundsIn (inBlocks signed) :=
    congrArg refundsIn hv.signed_inBlocks
  have hunconfirmed : (b.state h).unconfirmed = unconfirmedIn signed := (b.payments_spec h.doge).1
  have hpos : ∀ t∈signed, 0 ≤ t.confirmations := fun t ht =>
    h.doge.nonneg t (List.mem_of_mem_filter ht)
  have hnodup : (signed.map fun t => t.tx.txHash).Nodup := (List.filter_sublist.map _).nodup h.doge.nodup
  have hspec := (foldl_addPayment signed hpos).2.2
  have hspecb := (foldl_addPayment (inBlocks signed) fun t ht => hpos t (mem_inBlocks.mp ht).1).2.2
  rw [hrefunded,hconfirmed]
  cases hfind : signed.find? (refundsInBlock op) with
  | some r =>
    have hfindb : (inBlocks signed).find? (refundsInBlock op) = some r := by
      rw [inBlocks,List.find?_filter,← hfind]
      congr 1
      funext t
      simp [refundsInBlock]
    refine .inl ⟨r.tx.txHash,refundsIn_of_find (fun t ht => hpos t (mem_inBlocks.mp ht).1)
      ((List.filter_sublist.map _).nodup hnodup) hfindb,refundsIn_of_find hpos hnodup hfind,?_,?_⟩
    · rw [PegState.isUnconfirmed,hv.unconfirmed_eq_nil]
      rfl
    · rw [PegState.isUnconfirmed,hunconfirmed,List.any_eq_false]
      intro t ht heq
      obtain ⟨ht,hzero⟩ := mem_unconfirmedIn.mp ht
      obtain rfl := List.inj_on_of_nodup_map hnodup ht (List.mem_of_find?_eq_some hfind) (of_decide_eq_true heq)
      have hblock := List.find?_some hfind
      simp [refundsInBlock,hzero] at hblock
  | none =>
    rw [List.find?_eq_none] at hfind
    refine .inr ⟨?_,fun txid htxid => ?_⟩
    · cases hm : refundsIn (inBlocks signed) op with
      | none => rfl
      | some txid =>
        obtain ⟨t,ht,hp,-⟩ := hspecb.of_some op txid hm
        obtain ⟨ht,htpos⟩ := mem_inBlocks.mp ht
        exact absurd (by simp [refundsInBlock,htpos,hp]) (hfind t ht)
    · obtain ⟨t,ht,hp,rfl,-⟩ := hspec.of_some op txid htxid
      have hzero : t.confirmations = 0 := by
        have hnot := hfind t ht
        have := hpos t ht
        simp only [refundsInBlock,hp,Bool.and_eq_true,decide_eq_true_eq,and_true] at hnot
        omega
      obtain ⟨hlisted,hsigned⟩ := List.mem_filter.mp ht
      refine ⟨?_,hv.refunds t (mem_unconfirmedIn.mpr ⟨hlisted,hzero⟩) hsigned op hp⟩
      rw [PegState.isUnconfirmed,hunconfirmed,List.any_eq_true]
      exact ⟨t,mem_unconfirmedIn.mpr ⟨ht,hzero⟩,by simp⟩

theorem unsettled_eq (hv : MempoolValid b h) (d : Deposit) :
    (b.state h.confirmed).unsettled d = (b.state h).unsettled d := by
  have hrel : (b.state h.confirmed).released = (b.state h).released := rfl
  have hcan : (b.state h.confirmed).cancelled = (b.state h).cancelled := rfl
  unfold PegState.unsettled isRefunded
  rw [hrel,hcan]
  rcases hv.refunded_cases d.outPoint with ⟨txid,hb,ha,hub,hua⟩ | ⟨hb,hall⟩
  · simp [hb,ha,hub,hua]
  · rw [hb]
    cases ha : (b.state h).refunded d.outPoint with
    | none => rfl
    | some txid =>
      obtain ⟨hun,hnone⟩ := hall txid ha
      simp [hun,hnone]

theorem deposits_eq (hv : MempoolValid b h) :
    (b.state h.confirmed).pendingPegIns+(b.state h.confirmed).unclaimedOnDoge+(b.state h.confirmed).pendingRefunds =
      (b.state h).pendingPegIns+(b.state h).unclaimedOnDoge+(b.state h).pendingRefunds := by
  rw [b.deposits_eq,b.deposits_eq,allDeposits,allDeposits,sum_flatMap,sum_flatMap]
  change ((inBlocks h.doge.txs).map _).sum = _
  rw [inBlocks,sum_filter]
  refine sum_congr fun t ht => ?_
  rw [sum_filterMap,sum_filterMap]
  by_cases hpos : 0 < t.confirmations
  · rw [if_pos (by simpa using hpos),hv.dogeSigned_eq (mem_inBlocks.mpr ⟨ht,hpos⟩)]
    simp only [hv.unsettled_eq]
  · rw [if_neg (by simpa using hpos)]
    refine (sum_eq_zero fun p _ => ?_).symm
    cases hd : b.depositOf (b.dogeSigned h.doge.txs t) t p with
    | none => rfl
    | some d => simp [(b.depositOf_eq hd).2.2,hpos]

theorem pegOuts_eq (hv : MempoolValid b h) :
    (b.state h.confirmed).pendingPegOuts+(b.state h.confirmed).unclaimedOnVM =
      (b.state h).pendingPegOuts+(b.state h).unclaimedOnVM := by
  have hvm : h.confirmed.vm = h.vm := rfl
  rw [b.pegOuts_eq,b.pegOuts_eq,hv.unpaid_eq,hvm]

theorem owed_eq (hv : MempoolValid b h) : (b.state h.confirmed).owed = (b.state h).owed := by
  have hcirc : (b.state h.confirmed).circulating = (b.state h).circulating := rfl
  have hfees : (b.state h.confirmed).pendingFees = (b.state h).pendingFees := rfl
  have hsplit (s : PegState) : s.owed = s.circulating+(s.pendingPegIns+s.unclaimedOnDoge+s.pendingRefunds) +
      (s.pendingPegOuts+s.unclaimedOnVM)+s.pendingFees := by
    rw [PegState.owed]
    abel
  rw [hsplit,hsplit,hcirc,hfees,hv.deposits_eq,hv.pegOuts_eq]

end MempoolValid

/-- What the mempools do to the audit. Dogecoin's does not move it exactly if the wallet had
read the coins it spends, together, for what they are worth; a release in DogecoinVM's leaves
the surplus as it is, and a cancellation costs its fee. -/
theorem mempool_keeps_audit_iff (b : Bridge) : (∀ h : History, MempoolValid b h →
      (((b.state h).audit.locked = (b.state h.confirmed).audit.locked ∧
        (b.state h).audit.required = (b.state h.confirmed).audit.required ∧
        (b.state h).audit.surplus = (b.state h.confirmed).audit.surplus) ↔
      total ((b.spentInMempool h.doge.txs).map fun u => readAmount u.value) =
        total ((b.spentInMempool h.doge.txs).map (·.value)))) ∧
    (∀ (base grown : History) (T : ChainTx) (inputs : List Utxo) (d : Deposit),
      SpendsReserve b base grown T inputs → T.confirmations = 0 →
      T.tx.unsigned = b.buildRelease inputs d → 0 ≤ inputsTotal inputs-d.value →
      d ∈ (b.state base).deposits → 0 < d.confirmations → (b.state base).released d.outPoint = none →
      (b.state grown).audit.surplus = (b.state base).audit.surplus) ∧
    ∀ (base grown : History) (T : ChainTx) (inputs : List Utxo) (op : OutPoint),
      SpendsReserve b base grown T inputs → T.confirmations = 0 →
      b.buildCancel inputs op = .ok T.tx.unsigned → (b.state base).released op ≠ some 0 →
      (b.state grown).audit.surplus = (b.state base).audit.surplus-b.vmFee := by
  refine ⟨fun h hv => ?_, ?_, ?_⟩
  · rw [← hv.locked_eq_iff]
    refine ⟨fun haudit => haudit.1, fun hlocked => ⟨hlocked,hv.owed_eq.symm,?_⟩⟩
    change (b.state h).locked-(b.state h).owed = _
    rw [hlocked,← hv.owed_eq]
    rfl
  · intro base grown T inputs d hspends _ htx hcovers hd hpos hrel
    exact hspends.surplus_release htx hd hrel hpos hcovers
  · intro base grown T inputs op hspends _ htx hzero
    exact hspends.surplus_cancel htx hzero

end

section Sample

attribute [local instance] sampleHashing

/-- A reserve that can pay for a cancellation, the coin it leaves, and the deposit of
`sampleDeposit`. -/
def sampleFunds : MsgTx := sampleTx ⟨0,0xffffffff⟩ [⟨2000000,sampleBridge.script⟩]

def sampleCoin : Utxo := ⟨sampleFunds.outPoint 0,2000000,sampleBridge.script,9⟩

def sampleCredit : Deposit :=
  ⟨sampleDeposit.outPoint 0,50,some ⟨.p2pkh,0⟩,true,8,0⟩

def sampleRefund : MsgTx :=
  sampleTx (sampleDeposit.outPoint 0) [⟨49,[1]⟩,nullData (encodeRefund (sampleDeposit.outPoint 0))]

def sampleCancel : MsgTx :=
  newTx txVersion maxTxInSequenceNum [sampleCoin] ⟨1999999,sampleBridge.script⟩ none
    (encodeCancel sampleCredit.outPoint)

/-- The deposit in a block, with `vm` and `doge` in the mempools. -/
def mempoolHistory (vm doge : List ChainTx) (hvm : ((⟨sampleFunds,9,0⟩::vm).map fun t => t.tx.txHash).Nodup)
    (hdoge : ((⟨sampleDeposit,8,0⟩::doge).map fun t => t.tx.txHash).Nodup)
    (hzero : ∀ t∈vm++doge, t.confirmations = 0) : History where
  vm := ⟨⟨sampleFunds,9,0⟩::vm,hvm,by
    simpa using fun t ht => (hzero t (List.mem_append_left _ ht)).ge⟩
  doge := ⟨⟨sampleDeposit,8,0⟩::doge,hdoge,by
    simpa using fun t ht => (hzero t (List.mem_append_right _ ht)).ge⟩
  dogeConflicted := []

def quietHistory : History := mempoolHistory [] [] (by decide +kernel) depositListing.nodup (by simp)

def refundHistory : History :=
  mempoolHistory [] [⟨sampleRefund,0,0⟩] (by decide +kernel) (by decide +kernel) (by simp)

def releaseHistory : History :=
  mempoolHistory [⟨sampleBridge.buildRelease [sampleCoin] sampleCredit,0,0⟩] []
    (by decide +kernel) depositListing.nodup (by simp)

def cancelHistory : History :=
  mempoolHistory [⟨sampleCancel,0,0⟩] [] (by decide +kernel) depositListing.nodup (by simp)

theorem released_eq_none {h : History} (hnone : ∀ t∈h.vm.txs, parseRelease t.tx = none) (op : OutPoint) :
    (sampleBridge.state h).released op = none := by
  change sampleBridge.released h.vm.txs op = none
  rw [released,map_eq_none_iff,List.find?_eq_none]
  intro t ht
  simp [hnone t (List.mem_reverse.mp ht)]

theorem refundHistory_valid : MempoolValid sampleBridge refundHistory where
  funded := by decide +kernel
  unspent := by decide +kernel
  refunds _ _ _ op _ := released_eq_none (by decide +kernel) op

/-- A deposit of 33554616 DOGE, and its refund in the mempool. -/
def largeDeposit : MsgTx := sampleTx ⟨7,0⟩ [⟨3355461609040441,sampleBridge.script⟩]

def largeHistory : History where
  vm := .of [⟨sampleFunds,9,0⟩]
  doge := .of [⟨largeDeposit,8,0⟩,⟨sampleTx (largeDeposit.outPoint 0) [⟨3355461609040440,[1]⟩,
    nullData (encodeRefund (largeDeposit.outPoint 0))],0,0⟩]
  dogeConflicted := []

theorem largeHistory_valid : MempoolValid sampleBridge largeHistory where
  funded := by decide +kernel
  unspent := by decide +kernel
  refunds _ _ _ op _ := released_eq_none (by decide +kernel) op

/-- The wallet reads one koinu too many as long as it lists the coin. -/
theorem refund_in_mempool_lowers_surplus : MempoolValid sampleBridge largeHistory ∧
      (sampleBridge.state largeHistory.confirmed).audit.locked = 3355461609040442 ∧
      (sampleBridge.state largeHistory).audit.locked = 3355461609040441 ∧
      (sampleBridge.state largeHistory).audit.surplus = (sampleBridge.state largeHistory.confirmed).audit.surplus-1 :=
  ⟨largeHistory_valid,by decide +kernel, by decide +kernel, by decide +kernel⟩

theorem releaseHistory_spends : SpendsReserve sampleBridge quietHistory releaseHistory
    ⟨sampleBridge.buildRelease [sampleCoin] sampleCredit,0,0⟩ [sampleCoin] where
  doge := rfl
  inserts := ⟨[⟨sampleFunds,9,0⟩],[],rfl,rfl⟩
  spends := by simp
  nonempty := by simp
  nodup := by simp
  held := by decide +kernel
  fresh := by decide +kernel

theorem cancelHistory_spends : SpendsReserve sampleBridge quietHistory cancelHistory
    ⟨sampleCancel,0,0⟩ [sampleCoin] where
  doge := rfl
  inserts := ⟨[⟨sampleFunds,9,0⟩],[],rfl,rfl⟩
  spends := newTx_spends ..
  nonempty := by simp
  nodup := by simp
  held := by decide +kernel
  fresh := by decide +kernel

theorem sampleMempool_keeps_audit : (sampleBridge.state refundHistory).audit.surplus =
        (sampleBridge.state refundHistory.confirmed).audit.surplus ∧
      (sampleBridge.state releaseHistory).audit.surplus = (sampleBridge.state quietHistory).audit.surplus ∧
      (sampleBridge.state cancelHistory).audit.surplus = (sampleBridge.state quietHistory).audit.surplus-1 := by
  obtain ⟨hdoge,hrelease,hcancel⟩ := mempool_keeps_audit_iff sampleBridge
  refine ⟨((hdoge _ refundHistory_valid).mpr (by decide +kernel)).2.2,?_,?_⟩
  · exact hrelease _ _ _ _ sampleCredit releaseHistory_spends rfl (newTx_unsigned ..)
      (by decide +kernel) (by decide +kernel) (by decide) (by decide +kernel)
  · exact hcancel _ _ _ _ sampleCredit.outPoint cancelHistory_spends rfl (by decide +kernel) (by decide +kernel)

end Sample

end DogePeg
