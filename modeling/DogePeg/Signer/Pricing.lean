import DogePeg.Signer.FenceLine

/-!
# The inventory prices the fences

The fences of a cutover, each in a block and deep before the next is asked for (`nextFence`), against
what the inventory worked out before the first one (`fenceBudget`). The signed fences have other hashes;
the order of the coins, the sizes and the change are the same.
-/

namespace DogePeg

open Amounts Checks List Bridge FenceBudget

section

variable [Hashing]

/-! ## One chain, as the bridge reads it -/

namespace Nodes

def listing (n : Nodes) : ChainName → Listing
  | .dogecoin => n.doge
  | .dogecoinVM => n.vm

/-- What the chain's `unspent` returns. -/
def unspentOn (n : Nodes) (b : Bridge) : ChainName → List Utxo
  | .dogecoin => n.dogeUnspent
  | .dogecoinVM => b.vmUnspent n.vm.txs n.gettxout

end Nodes

def Bridge.lineDepth (b : Bridge) : ChainName → ℤ
  | .dogecoin => b.rootDepth
  | .dogecoinVM => 1

/-- What nodes answer on a chain where no transaction of the set is pending, nor one that spends
a recorded coin: no output is spent twice, and what they list as unspent is so. -/
structure Calm (b : Bridge) (chain : ChainName) (records : List OutPoint → Prop) (n : Nodes) : Prop where
  pending : (b.load n).pendingOn chain = []
  unasked : ∀ t∈(n.listing chain).txs, t.confirmations = 0 → ∀ recorded, records recorded →
    ∀ op∈t.tx.spends, op ∉ recorded
  spentOnce : ∀ x∈inBlocks (n.listing chain).txs, ∀ y∈inBlocks (n.listing chain).txs,
    ∀ op∈x.tx.spends, op∈y.tx.spends → op.index ≠ maxPrevOutIndex → x = y
  distinct : ((n.unspentOn b chain).map (·.outPoint)).Nodup
  unspent : ∀ u∈n.unspentOn b chain, 0 < u.confirmations → ∀ t∈(n.listing chain).txs,
    u.outPoint ∉ t.tx.spends
  watched : ∀ u∈n.unspentOn b chain, b.watches u.pkScript = true

/-- No fence that spends a recorded coin is in a block short of the depth. -/
def Settled (b : Bridge) (chain : ChainName) (records : List OutPoint → Prop) (n : Nodes) : Prop :=
  ∀ t∈(n.listing chain).txs, 0 < t.confirmations → ∀ recorded, records recorded →
    isFenceOf t recorded = true → max (b.lineDepth chain) 1 ≤ t.confirmations

section

variable {b : Bridge} {n : Nodes} {chain : ChainName} {records : List OutPoint → Prop} {recorded : List OutPoint}
  {tip : OutPoint}

theorem lineOn_load : (b.load n).lineOn chain = newLineage (n.listing chain).txs b.script (b.lineDepth chain) := by
  cases chain <;> rfl

theorem view_txs : ((b.load n).view b chain).txs = (n.listing chain).txs := by
  cases chain <;> rfl

theorem view_depth : ((b.load n).view b chain).depth = max (b.lineDepth chain) 1 := by
  cases chain with
  | dogecoin => exact congrArg (max · 1) (newLineage_rootDepth ..)
  | dogecoinVM => rfl

namespace Calm

variable (h : Calm b chain records n)

include h

theorem freeOn : (b.load n).freeOn chain = (n.unspentOn b chain).filter fun u => 0 < u.confirmations := by
  cases chain with
  | dogecoin => rfl
  | dogecoinVM =>
    refine filter_congr fun u hu => ?_
    by_cases hpos : 0 < u.confirmations
    · have hheld : b.reserveHeld n.vm.txs u = true := by
        have hnone : (n.vm.txs.any fun t => u.outPoint ∈ t.tx.spends) = false :=
          any_eq_false.mpr fun t ht => by simpa using h.unspent u hu hpos t ht
        rw [reserveHeld,hnone,decide_eq_true (ne_of_gt hpos)]
        rfl
      rw [hheld,Bool.true_and]
    · rw [decide_eq_false hpos,Bool.and_false]

theorem anchorOn : (b.load n).anchorOn chain = ((b.load n).lineOn chain).anchorIn ((b.load n).freeOn chain) := by
  rw [h.freeOn]
  cases chain with
  | dogecoin =>
    have hpending : b.pendingCoins n.doge.txs (b.payments n.doge.txs).unconfirmed = [] := by
      have hnone : (b.payments n.doge.txs).unconfirmed = [] := h.pending
      rw [hnone]
      rfl
    change (b.pegLine n.doge.txs).anchorIn (_++b.pendingCoins n.doge.txs (b.payments n.doge.txs).unconfirmed) = _
    rw [hpending,append_nil]
    rfl
  | dogecoinVM => rfl

theorem fenceState (hsettled : Settled b chain records n) (hrecorded : records recorded) :
    (b.load n).fenceState b chain recorded = (none,false) := by
  refine Prod.ext ?_ ?_
  · have hnone : (b.load n).pendingFences b chain recorded = [] := by
      refine eq_nil_iff_forall_not_mem.mpr fun t ht => ?_
      obtain ⟨hmem,hfence,hzero⟩ := PegState.mem_pendingFences.mp ht
      rw [view_txs] at hmem
      rw [isFenceOf,Bool.and_eq_true,any_eq_true] at hfence
      obtain ⟨-,op,hop,hrec⟩ := hfence
      exact h.unasked t hmem hzero recorded hrecorded op hop (of_decide_eq_true hrec)
    rw [PegState.fenceState_fst,hnone]
    rfl
  · refine any_eq_false.mpr fun t ht => ?_
    obtain ⟨hmem,hfence⟩ := mem_filter.mp ht
    rw [view_txs] at hmem
    have hnonneg := (n.listing chain).nonneg t hmem
    rw [view_depth,Bool.and_eq_true,decide_eq_true_eq,decide_eq_true_eq]
    rintro ⟨hne,hshallow⟩
    have := hsettled t hmem (by omega) recorded hrecorded hfence
    omega

theorem nodup_free : (((b.load n).freeOn chain).map (·.outPoint)).Nodup := by
  rw [h.freeOn]
  exact h.distinct.sublist (filter_sublist.map _)

theorem mem_free {u : Utxo} (hu : u∈(b.load n).freeOn chain) : u∈n.unspentOn b chain ∧ 0 < u.confirmations := by
  rw [h.freeOn,mem_filter,decide_eq_true_eq] at hu
  exact hu

theorem fenceOrder (htip : (b.load n).TipIs chain tip) (hfree : containsOutPoint ((b.load n).freeOn chain) tip=true) :
    ∃ a rest, (b.load n).fenceOrder chain = .ok (a::rest) ∧ a.outPoint = tip ∧
      (a::rest).Perm ((b.load n).freeOn chain) ∧ rest.Pairwise fun u v => olderCoin u v = true := by
  obtain ⟨a,ha,hpoint⟩ := freeAnchor_of_tip htip hfree
  have hmem : a∈(b.load n).freeOn chain := by
    have hanchor := (Option.filter_eq_some_iff.mp ha).1
    rw [h.anchorOn] at hanchor
    exact Lineage.anchorIn_mem hanchor
  have hnodup := h.nodup_free
  let rest := ((b.load n).freeOn chain).filter fun u => u.outPoint ≠ a.outPoint
  refine ⟨a,rest.insertionSort fun u v => olderCoin u v, ?_, hpoint, ?_, ?_⟩
  · simp only [PegState.fenceOrder,h.pending,ha,all_nil,ensure,if_true,bind,Except.bind,Option.toList_some,
      Option.all_some]
    rfl
  · -- each free coin once: the anchor, or another
    have hrest : (a::rest).Perm ((b.load n).freeOn chain) := by
      refine (perm_ext_iff_of_nodup ?_ (List.Nodup.of_map _ hnodup)).mpr fun u => ?_
      · refine nodup_cons.mpr ⟨fun hself => ?_, (List.Nodup.of_map _ hnodup).filter _⟩
        exact of_decide_eq_true (mem_filter.mp hself).2 rfl
      · rw [mem_cons,mem_filter,decide_eq_true_eq]
        constructor
        · rintro (rfl | ⟨hu,-⟩)
          · exact hmem
          · exact hu
        · intro hu
          by_cases heq : u.outPoint = a.outPoint
          · exact .inl (inj_on_of_nodup_map hnodup hu hmem heq)
          · exact .inr ⟨hu,heq⟩
    exact ((perm_insertionSort _ rest).cons a).trans hrest
  · refine Sorting.pairwise_insertionSort (fun _ _ _ => olderCoin_trans) ?_
    have hdistinct : rest.Pairwise fun u v => u.outPoint ≠ v.outPoint :=
      pairwise_map.mp (hnodup.sublist (filter_sublist.map _))
    exact hdistinct.imp fun hne => olderCoin_total hne

end Calm

end

/-! ## One fence after the other -/

/-- A fence, once signed, is in a block and deep, `k` blocks later, and nothing else of the set has
come or gone on the chain. The other chain may have moved. -/
structure FenceConfirms (b : Bridge) (chain : ChainName) (records : List OutPoint → Prop) (n : Nodes)
    (fence : Bridge.BuiltFence) (k : ℤ) (t : ChainTx) (n' : Nodes) : Prop where
  signed : t.tx.unsigned = fence.tx
  deep : max (b.lineDepth chain) 1 ≤ t.confirmations
  later : 0 ≤ k
  listed : (n'.listing chain).txs.Perm ((n.listing chain).txs.map (ChainTx.aged k)++[t])
  unspent : (n'.unspentOn b chain).Perm
    (((n.unspentOn b chain).filter fun u => u.outPoint ∉ t.tx.spends).map (Utxo.aged k)++coinsTo b.script t)
  calm : Calm b chain records n'
  /-- The coins were recorded before: the change is none of them. -/
  unrecorded : ∀ recorded, records recorded → t.tx.outPoint 0 ∉ recorded

namespace FenceConfirms

variable {b : Bridge} {n n' : Nodes} {chain : ChainName} {records : List OutPoint → Prop} {fence : Bridge.BuiltFence}
  {k : ℤ} {t : ChainTx}

variable (h : FenceConfirms b chain records n fence k t n')

include h

theorem spends : t.tx.spends = fence.tx.spends := by
  rw [← h.signed,MsgTx.unsigned_spends]

theorem joins : Joins (n.listing chain).txs k t (n'.listing chain).txs :=
  ⟨h.listed,h.later,lt_of_lt_of_le (by omega) h.deep,h.calm.spentOnce⟩

theorem coinsTo_eq (hbuilt : b.buildFence chain fence.inputs fence.fee = .ok fence.tx) : coinsTo b.script t =
      [⟨t.tx.outPoint 0,inputsTotal fence.inputs-fence.fee,b.script,t.confirmations⟩] := by
  obtain ⟨first,sequence,-,htx⟩ := exists_newTx_of_buildFence hbuilt
  have houts : t.tx.txOut = [⟨inputsTotal fence.inputs-fence.fee,b.script⟩,nullData (encodeFence first.outPoint)] := by
    rw [← MsgTx.unsigned_txOut,h.signed,htx]
    rfl
  have hdata : ¬ (nullData (encodeFence first.outPoint)).pkScript = b.script := b.nullDataScript_ne_script _
  simp [coinsTo,coinsWhere,MsgTx.outputs,houts,hdata]

theorem paysOn (hbuilt : b.buildFence chain fence.inputs fence.fee = .ok fence.tx) :
    PaysOn (n'.listing chain).txs b.script t (t.tx.outPoint 0) := by
  refine ⟨((b.buildFence_paysBackOnce hbuilt).congr ?_).lastOutputTo,fun op hop x hx => ?_⟩
  · rw [← MsgTx.unsigned_txOut,h.signed]
  · rw [← map_outPoint_coinsTo] at hop
    obtain ⟨u,hu,rfl⟩ := mem_map.mp hop
    refine h.calm.unspent u (h.unspent.mem_iff.mpr (mem_append_right _ hu)) ?_ x (mem_inBlocks.mp hx).1
    rw [(mem_coinsTo.mp hu).2.2]
    exact h.joins.mined

theorem settled (hsettled : Settled b chain records n) : Settled b chain records n' := by
  intro x hx hpos recorded hrecorded hfence
  rw [h.listed.mem_iff,mem_append,mem_map,mem_singleton] at hx
  rcases hx with ⟨y,hy,rfl⟩ | rfl
  · have hposy := (ChainTx.aged_pos h.later).mp hpos
    rw [ChainTx.confirmations_aged hposy]
    exact le_add_of_le_of_nonneg (hsettled y hy hposy recorded hrecorded hfence) h.later
  · exact h.deep

theorem free (hcalm : Calm b chain records n) : ((b.load n').freeOn chain).Perm
      ((((b.load n).freeOn chain).filter fun u => u.outPoint ∉ t.tx.spends).map (Utxo.aged k)++coinsTo b.script t) := by
  have hperm := h.unspent.filter fun u => decide (0 < u.confirmations)
  have hpos : ((fun u : Utxo => decide (0 < u.confirmations)) ∘ Utxo.aged k) =
      fun u => decide (0 < u.confirmations) := by
    funext u
    exact decide_eq_decide.mpr (Utxo.aged_pos h.later)
  have hnew : (coinsTo b.script t).filter (fun u => decide (0 < u.confirmations)) = coinsTo b.script t := by
    refine filter_eq_self.mpr fun u hu => decide_eq_true ?_
    rw [(mem_coinsTo.mp hu).2.2]
    exact h.joins.mined
  rw [filter_append,filter_map,hpos,hnew,filter_filter] at hperm
  rw [h.calm.freeOn,hcalm.freeOn,filter_filter]
  simpa only [Bool.and_comm] using hperm

end FenceConfirms

/-- Fences built one after the other, each for one of the records, and confirmed. -/
inductive FencesConfirmed (b : Bridge) (chain : ChainName) (records : List OutPoint → Prop) (n : Nodes) :
    Nodes → List Bridge.BuiltFence → Prop
  | start : FencesConfirmed b chain records n n []
  | next {m m' fences recorded now k fence t} (run : FencesConfirmed b chain records n m fences)
      (asked : records recorded) (built : b.nextFence (b.load m) chain recorded now = .ok fence)
      (confirms : FenceConfirms b chain records m fence k t m') :
      FencesConfirmed b chain records n m' (fences++[fence])

/-- Where the inventory's loop and the chain stand after the same fences: the coins in the order
of the next fences are those the loop has left, after the change it carries. -/
structure Awaits (b : Bridge) (chain : ChainName) (records : List OutPoint → Prop) (carry : Option Utxo)
    (coins : List Utxo) (n : Nodes) (order : List Utxo) : Prop where
  calm : Calm b chain records n
  settled : Settled b chain records n
  ordered : (b.load n).fenceOrder chain = .ok order
  tip : ∀ a∈order.head?, (b.load n).TipIs chain a.outPoint
  free : order.Perm ((b.load n).freeOn chain)
  byAge : order.tail.Pairwise fun u v => olderCoin u v = true
  shape : order.map Utxo.shape = (carry.toList++coins).map Utxo.shape
  unrecorded : ∀ recorded, records recorded → ∀ u∈order.take carry.toList.length, u.outPoint ∉ recorded
  recorded : ∀ recorded, records recorded → ∀ u∈order.drop carry.toList.length, u.outPoint∈recorded

namespace Awaits

variable {b : Bridge} {n n' : Nodes} {chain : ChainName} {records : List OutPoint → Prop} {recorded : List OutPoint}
  {carry : Option Utxo} {coins order batch : List Utxo} {fee : Int64} {now k : ℤ} {t : ChainTx}

variable (h : Awaits b chain records carry coins n order)

include h

theorem length_order : order.length = carry.toList.length+coins.length := by
  simpa using congrArg List.length h.shape

theorem watched : ∀ u∈order, b.watches u.pkScript = true :=
  fun u hu => h.calm.watched u (h.calm.mem_free (h.free.subset hu)).1

theorem nextFence_eq (hbatch : Batch b chain order batch fee)
    (hused : carry.toList.length<batch.length) (hrecorded : records recorded) :
    b.nextFence (b.load n) chain recorded now = b.fenceOf chain batch fee := by
  refine nextFence_of_batch (h.calm.fenceState h.settled hrecorded) h.ordered hbatch ?_
  have hmem : batch.get ⟨carry.toList.length,hused⟩∈batch.drop carry.toList.length := by
    rw [drop_eq_getElem_cons hused]
    exact mem_cons_self ..
  refine ⟨_,mem_of_mem_drop hmem,h.recorded recorded hrecorded _ ?_⟩
  obtain ⟨more,hmore⟩ := hbatch.isPrefix
  rw [← hmore,drop_append_of_le_length hused.le]
  exact mem_append_left more hmem

theorem filter_order (hbatch : Batch b chain order batch fee) :
    order.filter (fun u => u.outPoint ∉ batch.map (·.outPoint)) = order.drop batch.length := by
  obtain ⟨more,rfl⟩ := hbatch.isPrefix
  have hnodup := (h.free.map (·.outPoint)).nodup_iff.mpr h.calm.nodup_free
  rw [map_append,nodup_append] at hnodup
  obtain ⟨-,-,hdisjoint⟩ := hnodup
  have hspent : batch.filter (fun u => u.outPoint ∉ batch.map (·.outPoint)) = [] :=
    filter_eq_nil_iff.mpr fun u hu => by simpa using ⟨u,hu,rfl⟩
  have hleft : more.filter (fun u => u.outPoint ∉ batch.map (·.outPoint)) = more := by
    refine filter_eq_self.mpr fun u hu => decide_eq_true fun hmem => ?_
    exact hdisjoint _ hmem _ (mem_map_of_mem hu) rfl
  rw [filter_append,hspent,hleft,drop_left,nil_append]

theorem byAge_drop {j : ℕ} (hj : 0<j) :
    ((order.drop j).map (Utxo.aged k)).Pairwise fun u v => olderCoin u v = true := by
  obtain ⟨j,rfl⟩ := Nat.exists_eq_add_of_le' hj
  rw [pairwise_map,← drop_tail]
  refine (h.byAge.sublist (drop_sublist ..)).imp_of_mem fun {u v} hu hv hold => ?_
  have hpos : ∀ x∈order.tail.drop j, 0 < x.confirmations := fun x hx =>
    (h.calm.mem_free (h.free.subset (mem_of_mem_tail (mem_of_mem_drop hx)))).2
  rw [olderCoin_aged (hpos u hu) (hpos v hv)]
  exact hold

theorem confirm (hbatch : Batch b chain order batch fee)
    (hused : carry.toList.length<batch.length) {tx : MsgTx} (hbuilt : b.buildFence chain batch fee = .ok tx)
    (hconfirms : FenceConfirms b chain records n ⟨tx,batch,fee⟩ k t n') {priced : MsgTx}
    (hpriced : priced.txOut.head? = some ⟨inputsTotal batch-fee,b.script⟩) :
    ∃ order', Awaits b chain records (carryOf priced) (coins.drop (batch.length-carry.toList.length)) n' order' := by
  obtain ⟨first,sequence,hfirst,htx⟩ := exists_newTx_of_buildFence hbuilt
  have hspends : t.tx.spends = batch.map (·.outPoint) := by rw [hconfirms.spends,htx,newTx_spends]
  have hcoin := hconfirms.coinsTo_eq hbuilt
  obtain ⟨c,hc⟩ : ∃ c : Utxo, c = ⟨t.tx.outPoint 0,inputsTotal batch-fee,b.script,t.confirmations⟩ := ⟨_,rfl⟩
  -- the free coins: the rest of the order, and the change
  have hfree : ((b.load n').freeOn chain).Perm (c::(order.drop batch.length).map (Utxo.aged k)) := by
    have hleft := h.free.filter fun u => decide (u.outPoint ∉ batch.map (·.outPoint))
    rw [h.filter_order hbatch] at hleft
    have hperm := hconfirms.free h.calm
    rw [hspends,hcoin,← hc] at hperm
    exact (hperm.trans ((hleft.symm.map _).append_right _)).trans (perm_append_singleton ..)
  -- the tip: the fence spent the one before
  have htip : (b.load n').TipIs chain c.outPoint := by
    obtain ⟨more,hmore⟩ := hbatch.isPrefix
    have hhead : order.head? = some first := by rw [← hmore,List.head?_append,hfirst,Option.some_or]
    obtain ⟨tip,htip,hpoint⟩ := h.tip first hhead
    rw [lineOn_load] at htip
    obtain ⟨tip',htip',hpoint'⟩ := hconfirms.joins.tip (hconfirms.paysOn hbuilt) htip (by
      rw [hpoint,hspends]
      exact mem_map_of_mem (mem_of_head? hfirst))
    refine ⟨tip',by rw [lineOn_load,htip'], ?_⟩
    rw [hpoint',hc]
  have hcontains : containsOutPoint ((b.load n').freeOn chain) c.outPoint = true :=
    any_eq_true.mpr ⟨c,hfree.mem_iff.mpr (mem_cons_self ..),decide_eq_true rfl⟩
  obtain ⟨a,rest,hordered,hpoint,hperm,hsorted⟩ := hconfirms.calm.fenceOrder htip hcontains
  have ha : a = c := inj_on_of_nodup_map hconfirms.calm.nodup_free (hperm.subset (mem_cons_self ..))
    (hfree.mem_iff.mpr (mem_cons_self ..)) hpoint
  subst ha
  -- the order of the rest is that of before
  have hrest : rest = (order.drop batch.length).map (Utxo.aged k) := by
    refine ((hperm.trans hfree).cons_inv).eq_of_pairwise (fun u v _ _ huv hvu => absurd hvu (olderCoin_asymm huv))
      hsorted (h.byAge_drop (by omega))
  subst hrest
  have hcarry : carryOf priced = some ⟨priced.outPoint 0,inputsTotal batch-fee,b.script,1⟩ := by
    rw [carryOf,hpriced]
    rfl
  have hdrop : (order.drop batch.length).map Utxo.shape =
      (coins.drop (batch.length-carry.toList.length)).map Utxo.shape := by
    rw [map_drop,h.shape,← map_drop,drop_append,drop_of_length_le hused.le,nil_append]
  refine ⟨_,hconfirms.calm,hconfirms.settled h.settled,hordered,?_,hperm,hsorted,?_,?_,?_⟩
  · intro u hu
    rw [List.head?_cons,Option.mem_some_iff] at hu
    rw [← hu]
    exact htip
  · rw [hcarry,Option.toList_some,singleton_append,map_cons,map_cons,← hdrop,map_map,hc]
    rfl
  · intro recorded hrecorded u hu
    rw [hcarry,Option.toList_some,length_singleton,take_succ_cons,take_zero,mem_singleton] at hu
    rw [hu,hc]
    exact hconfirms.unrecorded recorded hrecorded
  · intro recorded hrecorded u hu
    rw [hcarry,Option.toList_some,length_singleton,drop_succ_cons,drop_zero] at hu
    obtain ⟨v,hv,rfl⟩ := mem_map.mp hu
    exact h.recorded recorded hrecorded v ((drop_subset_drop_left order hused.le) hv)

/-- While the loop has coins left, its next round and the next fence agree: both are built, for one
fee and one change, or neither is, for the same lack. -/
theorem round [Signing] {s : SignerSet} (hset : b.OfSet s)
    (hcoins : coins≠[]) : ∃ batch fee, Batch b chain order batch fee ∧ carry.toList.length < batch.length ∧
      ((∃ tx priced, b.buildFence chain batch fee = .ok tx ∧
          priced.txOut.head? = some ⟨inputsTotal batch-fee,b.script⟩ ∧
          ∀ fuel, b.priceFences chain (fuel+1) carry coins =
            (b.priceFences chain fuel (carryOf priced) (coins.drop (batch.length-carry.toList.length))).map
              fun r => (fee::r.1,r.2)) ∨
        b.buildFence chain batch fee = .error (.inputsHold (inputsTotal batch) fee) ∧
          ∀ fuel, b.priceFences chain (fuel+1) carry coins =
            .ok ([],some (.build (.inputsHold (inputsTotal batch) fee)))) := by
  obtain ⟨batch,fee,hbatch⟩ := exists_batch chain h.watched
  have hused := hbatch.used hset hcoins h.length_order
  obtain ⟨batch',hbatch',hshape⟩ := hbatch.congr h.shape.symm
  have htotal := inputsTotal_congr hshape
  have hlength : batch'.length = batch.length := by simpa using congrArg List.length hshape
  have hne : batch ≠ [] := ne_nil_of_length_pos (by omega)
  have hne' : batch' ≠ [] := ne_nil_of_length_pos (by omega)
  refine ⟨batch,fee,hbatch,hused,?_⟩
  by_cases hdust : pegDust ≤ inputsTotal batch-fee
  · left
    obtain ⟨tx,htx,-⟩ := buildFence_of_le hne hdust
    obtain ⟨priced,hpriced,hout⟩ := buildFence_of_le hne' (by rwa [htotal])
    rw [htotal] at hout
    refine ⟨tx,priced,htx,hout,fun fuel => ?_⟩
    rw [priceFences_round hcoins hbatch' (by omega),hpriced,hlength]
  · right
    refine ⟨buildFence_of_not_le hne hdust,fun fuel => ?_⟩
    rw [priceFences_round hcoins hbatch' (by omega),buildFence_of_not_le hne' (by rwa [htotal]),htotal]

omit h

theorem nextFence_nil (h : Awaits b chain records carry [] n order) (hrecorded : records recorded) :
    b.nextFence (b.load n) chain recorded now = .error (.nothingRecorded chain) := by
  refine nextFence_nothingRecorded (h.calm.fenceState h.settled hrecorded) h.ordered fun u hu => ?_
  refine h.unrecorded recorded hrecorded u ?_
  have hlen : order.length ≤ carry.toList.length := h.length_order.le
  rwa [take_of_length_le hlen]

/-- What the loop has still to find, and what the next request for a fence comes to. -/
theorem outcome [Signing] {s : SignerSet} (h : Awaits b chain records carry coins n order) (hset : b.OfSet s)
    {fuel : ℕ} (hfuel : coins.length≤fuel) {fees : List Int64} {stop : Option FenceStop}
    (hpriced : b.priceFences chain fuel carry coins = .ok (fees,stop)) (hrecorded : records recorded) (now : ℤ) :
    (∃ fence rest, fees = fence.fee::rest ∧ b.nextFence (b.load n) chain recorded now = .ok fence) ∨
    (fees = [] ∧ stop = none ∧ b.nextFence (b.load n) chain recorded now = .error (.nothingRecorded chain)) ∨
    (fees = [] ∧ stop ≠ none ∧
      ∃ sum fee, b.nextFence (b.load n) chain recorded now = .error (.build (.inputsHold sum fee))) := by
  by_cases hcoins : coins = []
  · subst hcoins
    have hend : b.priceFences chain fuel carry [] = .ok ([],none) := by
      cases fuel with
      | zero => rfl
      | succ fuel => rw [priceFences,if_pos rfl]
    rw [hend] at hpriced
    cases hpriced
    exact .inr (.inl ⟨rfl,rfl,h.nextFence_nil hrecorded⟩)
  · obtain ⟨fuel,rfl⟩ := Nat.exists_eq_add_of_le' (show 1 ≤ fuel by
      have := length_pos_of_ne_nil hcoins
      omega)
    obtain ⟨batch,fee,hbatch,hused,⟨tx,priced,htx,-,hround⟩ | ⟨herror,hround⟩⟩ := h.round hset hcoins
    · left
      rw [hround] at hpriced
      cases hmore : b.priceFences chain fuel (carryOf priced) (coins.drop (batch.length-carry.toList.length)) with
      | error why =>
        rw [hmore] at hpriced
        cases hpriced
      | ok r =>
        rw [hmore] at hpriced
        cases hpriced
        refine ⟨⟨tx,batch,fee⟩,r.1,rfl,?_⟩
        rw [h.nextFence_eq hbatch hused hrecorded,fenceOf,htx]
        rfl
    · right
      right
      rw [hround] at hpriced
      cases hpriced
      refine ⟨rfl,by simp, inputsTotal batch, fee, ?_⟩
      rw [h.nextFence_eq hbatch hused hrecorded,fenceOf,herror]
      rfl

theorem step [Signing] {s : SignerSet} (h : Awaits b chain records carry coins n order) (hset : b.OfSet s) {fuel : ℕ}
    (hfuel : coins.length≤fuel) {fence : Bridge.BuiltFence} (hrecorded : records recorded)
    (hbuilt : b.nextFence (b.load n) chain recorded now = .ok fence)
    (hconfirms : FenceConfirms b chain records n fence k t n') :
    ∃ carry' coins' order' fuel', Awaits b chain records carry' coins' n' order' ∧ coins'.length ≤ fuel' ∧
      b.priceFences chain fuel carry coins = (b.priceFences chain fuel' carry' coins').map
        fun r => (fence.fee::r.1,r.2) := by
  by_cases hcoins : coins = []
  · subst hcoins
    rw [h.nextFence_nil hrecorded] at hbuilt
    cases hbuilt
  · have hpos := length_pos_of_ne_nil hcoins
    obtain ⟨fuel,rfl⟩ := Nat.exists_eq_add_of_le' (show 1 ≤ fuel by omega)
    obtain ⟨batch,fee,hbatch,hused,⟨tx,priced,htx,hout,hround⟩ | ⟨herror,-⟩⟩ := h.round hset hcoins
    · rw [h.nextFence_eq hbatch hused hrecorded,fenceOf,htx] at hbuilt
      cases hbuilt
      obtain ⟨order',hawaits⟩ := h.confirm hbatch hused htx hconfirms hout
      refine ⟨_,_,order',fuel,hawaits,?_,hround fuel⟩
      rw [length_drop]
      omega
    · rw [h.nextFence_eq hbatch hused hrecorded,fenceOf,herror] at hbuilt
      cases hbuilt

end Awaits

/-! ## The budget and the fences -/

theorem watches_script (b : Bridge) : b.watches b.script = true := by
  rw [watches,redeemFor]
  split
  · rfl
  · rw [if_pos rfl]
    rfl

theorem exists_priceFences [Signing] {b : Bridge} {s : SignerSet} (hset : b.OfSet s) (chain : ChainName) (fuel : ℕ)
    (carry : Option Utxo) (coins : List Utxo) (h : ∀ u∈carry.toList++coins, b.watches u.pkScript = true) :
    ∃ r, b.priceFences chain fuel carry coins = .ok r := by
  induction fuel generalizing carry coins with
  | zero => exact ⟨_,rfl⟩
  | succ fuel ih =>
    by_cases hcoins : coins = []
    · exact ⟨_,by rw [priceFences,if_pos hcoins]⟩
    · obtain ⟨batch,fee,hbatch⟩ := exists_batch chain h
      have hused := hbatch.used hset hcoins (length_append ..)
      rw [priceFences_round hcoins hbatch hused]
      cases hbuilt : b.buildFence chain batch fee with
      | error why => exact ⟨_,rfl⟩
      | ok tx =>
        obtain ⟨first,sequence,-,htx⟩ := exists_newTx_of_buildFence hbuilt
        have hcarry : carryOf tx = some ⟨tx.outPoint 0,inputsTotal batch-fee,b.script,1⟩ := by
          rw [carryOf,htx]
          rfl
        obtain ⟨r,hr⟩ := ih (carryOf tx) (coins.drop (batch.length-carry.toList.length)) (by
          intro u hu
          rw [hcarry,Option.toList_some,singleton_append] at hu
          rcases mem_cons.mp hu with rfl | hu
          · exact watches_script b
          · exact h u (mem_append_right _ (mem_of_mem_drop hu)))
        exact ⟨(fee::r.1,r.2),by simp only [hr,Except.map]⟩

section

variable {b : Bridge} {n m : Nodes} {chain : ChainName} {records : List OutPoint → Prop}
  {fences : List Bridge.BuiltFence} {order : List Utxo}

theorem FencesConfirmed.awaits [Signing] {s : SignerSet} (hset : b.OfSet s)
    (h : Awaits b chain records none order n order) (run : FencesConfirmed b chain records n m fences) :
    ∃ carry coins order' fuel, Awaits b chain records carry coins m order' ∧ coins.length ≤ fuel ∧
      b.priceFences chain order.length none order = (b.priceFences chain fuel carry coins).map
        fun r => (fences.map (·.fee)++r.1,r.2) := by
  induction run with
  | start =>
    refine ⟨none,order,order,order.length,h,le_rfl,?_⟩
    cases b.priceFences chain order.length none order with
    | error why => rfl
    | ok r => rfl
  | next run asked built confirms ih =>
    obtain ⟨carry,coins,order',fuel,hawaits,hfuel,hpriced⟩ := ih
    obtain ⟨carry',coins',order'',fuel',hawaits',hfuel',hstep⟩ := hawaits.step hset hfuel asked built confirms
    refine ⟨carry',coins',order'',fuel',hawaits',hfuel',?_⟩
    rw [hpriced,hstep]
    cases b.priceFences chain fuel' carry' coins' with
    | error why => rfl
    | ok r => simp [Except.map]

/-- The state a cutover is priced in: nothing of the set is pending on the chain, its line has a
tip among the unspent coins, and every record holds all its confirmed coins. -/
structure CutoverReady (b : Bridge) (chain : ChainName) (records : List OutPoint → Prop) (n : Nodes) : Prop where
  calm : Calm b chain records n
  tip : ∃ tip, (b.load n).TipIs chain tip ∧ containsOutPoint ((b.load n).freeOn chain) tip = true
  recorded : ∀ recorded, records recorded → ∀ u∈(b.load n).freeOn chain, u.outPoint∈recorded

theorem CutoverReady.awaits (h : CutoverReady b chain records n) (hsettled : Settled b chain records n) :
    ∃ order, Awaits b chain records none order n order := by
  obtain ⟨tip,htip,hfree⟩ := h.tip
  obtain ⟨a,rest,hordered,rfl,hperm,hsorted⟩ := h.calm.fenceOrder htip hfree
  refine ⟨a::rest,h.calm,hsettled,hordered,?_,hperm,hsorted,rfl,nofun,?_⟩
  · intro u hu
    rw [List.head?_cons,Option.mem_some_iff] at hu
    rw [← hu]
    exact htip
  · intro recorded hrecorded u hu
    exact h.recorded recorded hrecorded u (hperm.subset (mem_of_mem_drop hu))

/-- The inventory prices a cutover exactly. Where no fence that spends a recorded coin is short of
the depth, the fences that are built and confirmed one after the other cost what `fenceBudget`
says, each in its turn; there is a next one until their number is reached; and then there is
nothing left to fence, or the coins do not pay for it, which is so just where the budget is
infeasible. -/
theorem inventory_prices_cutover [Signing] (b : Bridge) (s : SignerSet) (hset : b.OfSet s) (chain : ChainName)
    (records : List OutPoint → Prop) (n : Nodes) (hready : CutoverReady b chain records n)
    (hsettled : Settled b chain records n) :
    ∃ budget, b.fenceBudget (b.load n) chain = .ok budget ∧ ∀ m fences, FencesConfirmed b chain records n m fences →
        fences.length ≤ budget.batches ∧ fences.map (·.fee) = budget.each.take fences.length ∧
        (fences.length = budget.batches →
          total (fences.map (·.fee)) = budget.fees ∧ (fences.map (·.fee)).foldl max 0 = budget.costliest) ∧
        ∀ recorded now, records recorded →
          (fences.length < budget.batches → ∃ fence, b.nextFence (b.load m) chain recorded now = .ok fence ∧
            budget.each[fences.length]? = some fence.fee) ∧
          (fences.length = budget.batches → budget.infeasible = none →
            b.nextFence (b.load m) chain recorded now = .error (.nothingRecorded chain)) ∧
          (fences.length = budget.batches → budget.infeasible ≠ none →
            ∃ sum fee, b.nextFence (b.load m) chain recorded now = .error (.build (.inputsHold sum fee))) := by
  obtain ⟨order,hawaits⟩ := hready.awaits hsettled
  obtain ⟨⟨each,stop⟩,hall⟩ := exists_priceFences hset chain order.length none order hawaits.watched
  refine ⟨⟨each,stop.map (FenceStop.problem each)⟩,?_,fun m fences run => ?_⟩
  · simp only [fenceBudget,hawaits.ordered,hall]
    rfl
  · obtain ⟨carry,coins,order',fuel,hlast,hfuel,hpriced⟩ := run.awaits hset hawaits
    obtain ⟨⟨fees,stop'⟩,hrest⟩ : ∃ r, b.priceFences chain fuel carry coins = .ok r := by
      cases hr : b.priceFences chain fuel carry coins with
      | error why =>
        rw [hall,hr] at hpriced
        cases hpriced
      | ok r => exact ⟨r,rfl⟩
    rw [hall,hrest] at hpriced
    cases hpriced
    have hbatches : ∀ infeasible, (mk (fences.map (·.fee)++fees) infeasible).batches =
        fences.length+fees.length := by
      intro infeasible
      rw [batches,length_append,length_map]
    rw [hbatches]
    refine ⟨Nat.le_add_right ..,by simp, fun hlen => ?_, fun recorded now hrecorded => ?_⟩
    · obtain rfl : fees = [] := length_eq_zero_iff.mp (by omega)
      simp only [fees,costliest,append_nil,and_self]
    · rcases hlast.outcome hset hfuel hrest hrecorded now with
        ⟨fence,rest,rfl,hok⟩ | ⟨rfl,rfl,hnone⟩ | ⟨rfl,hstop,sum,fee,hlack⟩
      · rw [length_cons]
        refine ⟨fun _ => ⟨fence,hok,by simp⟩, fun hlen => ?_, fun hlen => ?_⟩
        · omega
        · omega
      · exact ⟨fun hlen => absurd hlen (lt_irrefl _), fun _ _ => hnone, fun _ hne => absurd rfl hne⟩
      · refine ⟨fun hlen => absurd hlen (lt_irrefl _), fun _ hnone => ?_, fun _ _ => ⟨sum,fee,hlack⟩⟩
        exact absurd (Option.map_eq_none_iff.mp hnone) hstop

end

end

section Sample

attribute [local instance] sampleHashing sampleSigning

def pricedBridge : Bridge :=
  defaultBridge (((newSignerSet 2 3 sampleSecrets).toOption.map (·.redeemScript)).getD [])

theorem pricedBridge_ofSet : ∃ s, pricedBridge.OfSet s := by
  obtain ⟨s,hs,hrequired⟩ := exists_ok_of_any (x := newSignerSet 2 3 sampleSecrets) (p := fun s => s.required = 2)
    (by decide +kernel)
  refine ⟨s,.new hs,?_,?_⟩
  · rw [pricedBridge,hs]
    rfl
  · rw [of_decide_eq_true hrequired]
    rfl

/-- A payment to the peg, and its coin. -/
def pricedDeposit (i : Hash) (value : Int64) : MsgTx :=
  ⟨1,[⟨⟨i,0⟩,[],[],0⟩],[⟨value,pricedBridge.script⟩],0,show 1 ≤ maxTxOutPerMessage by decide⟩

def pricedCoin (i : Hash) (value : Int64) (confirmations : ℤ) : Utxo :=
  ⟨(pricedDeposit i value).outPoint 0,value,pricedBridge.script,confirmations⟩

def pricedNodes (txs : List ChainTx) (nodup : (txs.map fun t => t.tx.txHash).Nodup)
    (nonneg : ∀ t∈txs, 0 ≤ t.confirmations) (unspent : List Utxo) : Nodes where
  vm := .empty
  gettxout _ := false
  doge := ⟨txs,nodup,nonneg⟩
  dogeConflicted := []
  dogeUnspent := unspent

/-- A reading of Dogecoin, checked by evaluation, with one record. -/
theorem calm_of_check {n : Nodes} {recorded : List OutPoint}
    (pending : (pricedBridge.load n).unconfirmed=[] := by decide +kernel)
    (unasked : ∀ t∈n.doge.txs, t.confirmations = 0 → ∀ op∈t.tx.spends, op ∉ recorded := by decide +kernel)
    (spentOnce : ∀ x∈inBlocks n.doge.txs, ∀ y∈inBlocks n.doge.txs, ∀ op∈x.tx.spends, op∈y.tx.spends →
      op.index ≠ maxPrevOutIndex → x = y := by decide +kernel)
    (distinct : (n.dogeUnspent.map (·.outPoint)).Nodup := by decide +kernel)
    (unspent : ∀ u∈n.dogeUnspent, ∀ t∈n.doge.txs, u.outPoint ∉ t.tx.spends := by decide +kernel)
    (watched : ∀ u∈n.dogeUnspent, pricedBridge.watches u.pkScript = true := by decide +kernel) :
    Calm pricedBridge .dogecoin (· = recorded) n where
  pending := pending
  unasked t ht hzero _ hrecorded := hrecorded ▸ unasked t ht hzero
  spentOnce := spentOnce
  distinct := distinct
  unspent u hu _ := unspent u hu
  watched := watched

def freshFence : MsgTx :=
  newTx txVersion replaceable [pricedCoin 5 1000000000 9] ⟨900000000,pricedBridge.script⟩ none
    (encodeFence (pricedCoin 5 1000000000 9).outPoint)

def freshNodes : Nodes :=
  pricedNodes [⟨pricedDeposit 5 1000000000,9,0⟩,⟨freshFence,1,0⟩] (by decide +kernel) (by decide +kernel)
    [⟨freshFence.outPoint 0,900000000,pricedBridge.script,1⟩]

/-- What a signer records that starts its cutover then. -/
def freshRecord : List OutPoint := [(pricedCoin 5 1000000000 9).outPoint,freshFence.outPoint 0]

/-- `fenceBudget` prices a fence that `nextFence` refuses, while a fence that spends a recorded coin
is short of the depth. -/
theorem shallow_fence_priced :
    ∃ s, pricedBridge.OfSet s ∧ CutoverReady pricedBridge .dogecoin (· = freshRecord) freshNodes ∧
      (∃ budget, pricedBridge.fenceBudget (pricedBridge.load freshNodes) .dogecoin = .ok budget ∧
        budget.each = [100000000] ∧ budget.infeasible.isNone = true) ∧
      pricedBridge.nextFence (pricedBridge.load freshNodes) .dogecoin freshRecord 0 =
        .error (.fenceShallow .dogecoin) := by
  obtain ⟨s,hs⟩ := pricedBridge_ofSet
  refine ⟨s,hs,⟨?_,?_,?_⟩,?_,?_⟩
  · exact calm_of_check
  · exact ⟨freshFence.outPoint 0,tipIs_of_any (by decide +kernel),by decide +kernel⟩
  · rintro _ rfl
    decide +kernel
  · obtain ⟨budget,hbudget,hprice⟩ := exists_ok_of_any
      (x := pricedBridge.fenceBudget (pricedBridge.load freshNodes) .dogecoin)
      (p := fun w => w.each = [100000000] && w.infeasible.isNone) (by decide +kernel)
    rw [Bool.and_eq_true,decide_eq_true_eq] at hprice
    exact ⟨budget,hbudget,hprice⟩
  · have hstate : (pricedBridge.load freshNodes).fenceState pricedBridge .dogecoin freshRecord = (none,true) := by
      decide +kernel
    rw [nextFence,hstate]
    rfl

/-- Payments of ten and of five DOGE, and both in one fence. -/
def awaitingNodes : Nodes :=
  pricedNodes [⟨pricedDeposit 5 1000000000,9,0⟩,⟨pricedDeposit 6 500000000,8,0⟩] (by decide +kernel)
    (by decide +kernel) [pricedCoin 5 1000000000 9,pricedCoin 6 500000000 8]

def pricedFence : Bridge.BuiltFence where
  tx := newTx txVersion replaceable [pricedCoin 5 1000000000 9,pricedCoin 6 500000000 8]
    ⟨1400000000,pricedBridge.script⟩ none (encodeFence (pricedCoin 5 1000000000 9).outPoint)
  inputs := [pricedCoin 5 1000000000 9,pricedCoin 6 500000000 8]
  fee := 100000000

/-- Six blocks later. -/
def fencedNodes : Nodes :=
  pricedNodes [⟨pricedDeposit 5 1000000000,15,0⟩,⟨pricedDeposit 6 500000000,14,0⟩,⟨pricedFence.tx,6,0⟩]
    (by decide +kernel) (by decide +kernel) [⟨pricedFence.tx.outPoint 0,1400000000,pricedBridge.script,6⟩]

def awaitingRecord : List OutPoint :=
  [(pricedCoin 5 1000000000 9).outPoint,(pricedCoin 6 500000000 8).outPoint]

/-- Two coins, one fence of one DOGE, and then there is nothing left to fence. -/
theorem two_coins_priced : ∃ budget, pricedBridge.fenceBudget (pricedBridge.load awaitingNodes) .dogecoin = .ok budget ∧
      budget.each = [100000000] ∧
      FencesConfirmed pricedBridge .dogecoin (· = awaitingRecord) awaitingNodes fencedNodes [pricedFence] ∧
      pricedBridge.nextFence (pricedBridge.load fencedNodes) .dogecoin awaitingRecord 0 =
        .error (.nothingRecorded .dogecoin) := by
  obtain ⟨s,hs⟩ := pricedBridge_ofSet
  have hready : CutoverReady pricedBridge .dogecoin (· = awaitingRecord) awaitingNodes := by
    refine ⟨?_,⟨(pricedCoin 5 1000000000 9).outPoint,tipIs_of_any (by decide +kernel),by decide +kernel⟩,?_⟩
    · exact calm_of_check
    · rintro _ rfl
      decide +kernel
  have hsettled : Settled pricedBridge .dogecoin (· = awaitingRecord) awaitingNodes := by
    rintro t ht hpos _ rfl
    revert t
    decide +kernel
  have hbuilt : pricedBridge.nextFence (pricedBridge.load awaitingNodes) .dogecoin awaitingRecord 0 =
      .ok pricedFence := by
    obtain ⟨⟨tx,inputs,fee⟩,hbuilt,hparts⟩ := exists_ok_of_any
      (x := pricedBridge.nextFence (pricedBridge.load awaitingNodes) .dogecoin awaitingRecord 0)
      (p := fun f => f.tx = pricedFence.tx && f.inputs = pricedFence.inputs && f.fee = pricedFence.fee)
      (by decide +kernel)
    simp only [Bool.and_eq_true,decide_eq_true_eq] at hparts
    obtain ⟨⟨rfl,rfl⟩,rfl⟩ := hparts
    exact hbuilt
  have hconfirms : FenceConfirms pricedBridge .dogecoin (· = awaitingRecord) awaitingNodes pricedFence 6
      ⟨pricedFence.tx,6,0⟩ fencedNodes := by
    refine ⟨by decide +kernel, by decide +kernel, by decide, .refl _, .of_eq (by decide +kernel), ?_, ?_⟩
    · exact calm_of_check
    · rintro _ rfl
      decide +kernel
  have hrun : FencesConfirmed pricedBridge .dogecoin (· = awaitingRecord) awaitingNodes fencedNodes
      ([]++[pricedFence]) := .next .start rfl hbuilt hconfirms
  obtain ⟨budget,hbudget,hprices⟩ := inventory_prices_cutover pricedBridge s hs .dogecoin (· = awaitingRecord)
    awaitingNodes hready hsettled
  have hpriced : budget.each = [100000000] ∧ budget.infeasible = none := by
    obtain ⟨budget',hbudget',hprice⟩ := exists_ok_of_any
      (x := pricedBridge.fenceBudget (pricedBridge.load awaitingNodes) .dogecoin)
      (p := fun w => w.each = [100000000] && w.infeasible.isNone) (by decide +kernel)
    cases hbudget.symm.trans hbudget'
    rwa [Bool.and_eq_true,decide_eq_true_eq,Option.isNone_iff_eq_none] at hprice
  have hlen : [pricedFence].length = budget.batches := by
    rw [batches,hpriced.1]
    rfl
  exact ⟨budget,hbudget,hpriced.1,hrun,((hprices _ _ hrun).2.2.2 awaitingRecord 0 rfl).2.1 hlen hpriced.2⟩

end Sample

end DogePeg
