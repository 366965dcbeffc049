import DogePeg.Bridge.Build
import DogePeg.Bridge.Books

/-!
# One transaction of the signers more

What the books gain and lose when a transaction that spends coins of the set is listed
too: the coins it spends leave, what it pays back arrives, and the action it settles is no
longer owed.
-/

namespace DogePeg

open Amounts List Bridge

variable {d : Deposit} {op : OutPoint}

/-- `grown` is `base` with `T` listed as well, anywhere. -/
def Inserts (T : ChainTx) (base grown : List ChainTx) : Prop :=
  ∃ before after, base = before++after ∧ grown = before++T::after

namespace Inserts

variable {T t : ChainTx} {base grown : List ChainTx} {p : ChainTx → Bool}

variable (h : Inserts T base grown)

include h

theorem mem : t∈grown ↔ t = T ∨ t∈base := by
  obtain ⟨before,after,rfl,rfl⟩ := h
  simp only [mem_append,mem_cons]
  tauto

theorem sum {M : Type*} [AddCommMonoid M] (f : ChainTx → M) : (grown.map f).sum = (base.map f).sum+f T := by
  obtain ⟨before,after,rfl,rfl⟩ := h
  simp only [map_append,map_cons,sum_append,sum_cons]
  abel

theorem filter_of_neg (hp : p T=false) : grown.filter p = base.filter p := by
  obtain ⟨before,after,rfl,rfl⟩ := h
  simp [hp]

theorem filter (hp : p T) : Inserts T (base.filter p) (grown.filter p) := by
  obtain ⟨before,after,rfl,rfl⟩ := h
  exact ⟨before.filter p,after.filter p,by simp, by simp [hp]⟩

theorem unspent : Unspent grown op ↔ Unspent base op ∧ op ∉ T.tx.spends := by
  constructor
  · exact fun hun => ⟨fun t ht => hun t (h.mem.mpr (.inr ht)), hun T (h.mem.mpr (.inl rfl))⟩
  · rintro ⟨hbase,hT⟩ t ht
    rcases h.mem.mp ht with rfl | ht
    · exact hT
    · exact hbase t ht

theorem spendsAny {coinsOf : ChainTx → List OutPoint} (hfresh : ∀ op∈t.tx.spends, op ∉ coinsOf T) :
    spendsAny t.tx (grown.flatMap coinsOf) = spendsAny t.tx (base.flatMap coinsOf) := by
  rw [Bool.eq_iff_iff,DogePeg.spendsAny,DogePeg.spendsAny,any_eq_true,any_eq_true]
  refine exists_congr fun op => and_congr_right fun hop => ?_
  rw [decide_eq_true_eq,decide_eq_true_eq,mem_flatMap,mem_flatMap]
  constructor
  · rintro ⟨u,hu,hc⟩
    rcases h.mem.mp hu with rfl | hu
    · exact absurd hc (hfresh op hop)
    · exact ⟨u,hu,hc⟩
  · rintro ⟨u,hu,hc⟩
    exact ⟨u,h.mem.mpr (.inr hu),hc⟩

end Inserts

section

variable [Hashing]

theorem Inserts.hash_ne {base grown : Listing} {T t : ChainTx} (h : Inserts T base.txs grown.txs)
    (ht : t∈base.txs) : t.tx.txHash ≠ T.tx.txHash := by
  obtain ⟨before,after,hbase,hgrown⟩ := h
  have hnodup := grown.nodup
  rw [hgrown,map_append,map_cons,nodup_middle,nodup_cons] at hnodup
  intro heq
  rw [hbase] at ht
  exact hnodup.1 (heq ▸ map_append ▸ mem_map_of_mem ht)

/-! ## What is owed for deposits -/

namespace Bridge

variable (b : Bridge)

def owedDeposits (h : History) : Int64 :=
  ((b.allDeposits h.doge.txs).map fun d =>
    if 0 < d.confirmations ∧ (b.state h).unsettled d then d.value else 0).sum

theorem surplus_eq_owed (h : History) :
    b.surplus h = (b.state h).locked-b.owedDeposits h+(h.vm.txs.map (b.vmTerm h)).sum := by
  rw [surplus_eq,sum_dogeTerm,owedDeposits,deposits_eq]

theorem nodup_allDeposits (l : Listing) : ((b.allDeposits l.txs).map (·.outPoint)).Nodup := by
  refine List.Sublist.nodup ?_ (l.nodup_coins fun _ => true)
  rw [allDeposits,map_flatMap,map_flatMap]
  refine List.Sublist.flatMap_right l.txs fun t _ => ?_
  have hall : (coinsWhere (fun _ => true) t).map (·.outPoint) = t.tx.outputs.map Prod.fst := by
    simp [coinsWhere,Function.comp_def]
  have hpoint : (t.tx.outputs.filterMap (b.depositOf (b.dogeSigned l.txs t) t)).map (·.outPoint) =
      (t.tx.outputs.filter fun p => (b.depositOf (b.dogeSigned l.txs t) t p).isSome).map Prod.fst := by
    rw [map_filterMap]
    generalize t.tx.outputs = outs
    induction outs with
    | nil => rfl
    | cons p outs ih =>
      cases hd : b.depositOf (b.dogeSigned l.txs t) t p with
      | none => simp [hd,ih]
      | some d => simp [hd,ih,(b.depositOf_eq hd).1]
  rw [hall,hpoint]
  exact filter_sublist.map _

theorem dest_ne_script {txs : List ChainTx} (hd : d∈b.allDeposits txs)
    (hvalid : d.valid) : d.destination.pkScript ≠ b.script := by
  obtain ⟨t,-,hd⟩ := mem_flatMap.mp hd
  obtain ⟨p,-,hd⟩ := mem_filterMap.mp hd
  have hcredit {dest : Destination} {value : Int64} (h : b.creditable dest value) :
      dest.pkScript ≠ b.script := of_decide_eq_true (Bool.and_eq_true_iff.mp h).2
  unfold depositOf at hd
  split at hd
  · cases hd
    exact hcredit hvalid
  · split at hd
    · cases hd
    · cases hd
      obtain ⟨dest,hdest,hc⟩ := (Option.any_eq_true _ _).mp hvalid
      simpa [Deposit.destination,hdest] using hcredit hc

theorem owedDeposits_settle {base grown : History} (hdoge : grown.doge=base.doge)
    (hd : d∈b.allDeposits base.doge.txs) (hpos : 0<d.confirmations)
    (hbase : (b.state base).unsettled d) (hgrown : (b.state grown).unsettled d=false)
    (hother : ∀ e : Deposit, e.outPoint ≠ d.outPoint → (b.state grown).unsettled e = (b.state base).unsettled e) :
    b.owedDeposits grown = b.owedDeposits base-d.value := by
  have hnodup := b.nodup_allDeposits base.doge
  rw [owedDeposits,owedDeposits,hdoge,sum_eq_add_at hnodup.of_map hd (g := fun e =>
    if 0 < e.confirmations ∧ (b.state base).unsettled e then e.value else 0)]
  · simp only [hbase,hgrown,hpos]
    simp
    abel
  · intro e he hne
    rw [hother e fun heq => hne (inj_on_of_nodup_map hnodup he hd heq)]

end Bridge

/-! ## Spending the reserve -/

namespace Bridge

variable (b : Bridge)

theorem mem_reserveUTXOs {h : History} {u : Utxo} : u∈(b.state h).reserveUTXOs ↔
      (∃ t∈h.vm.txs, u∈coinsTo b.script t) ∧ Unspent h.vm.txs u.outPoint ∧ 0 < u.confirmations := by
  have hdef : (b.state h).reserveUTXOs = (b.vmUnspent h.vm.txs (b.nodes h).gettxout).filter fun u =>
    b.reserveHeld h.vm.txs u && 0 < u.confirmations := rfl
  rw [hdef,vmUnspent,mem_filter,mem_filter,mem_flatMap,Bool.and_eq_true,decide_eq_true_eq,and_assoc]
  refine and_congr_right fun _ => ?_
  constructor
  · rintro ⟨-,hheld,hpos⟩
    rw [reserveHeld,Bool.and_eq_true,not_any_spends,decide_eq_true_eq] at hheld
    exact ⟨hheld.1,hpos⟩
  · rintro ⟨hun,hpos⟩
    refine ⟨?_,?_,hpos⟩
    · change (!(inBlocks h.vm.txs).any fun t => u.outPoint ∈ t.tx.spends) = true
      rw [not_any_spends,decide_eq_true_eq]
      exact hun.inBlocks
    · have hne : u.confirmations ≠ 0 := by omega
      simp [reserveHeld,not_any_spends,hun,hne]

end Bridge

/-- A transaction that spends free coins of the reserve is listed too, and nothing spends
its own outputs yet. -/
structure SpendsReserve (b : Bridge) (base grown : History) (T : ChainTx) (inputs : List Utxo) :
    Prop where
  doge : grown.doge = base.doge
  inserts : Inserts T base.vm.txs grown.vm.txs
  spends : T.tx.spends = inputs.map (·.outPoint)
  nonempty : inputs ≠ []
  nodup : (inputs.map (·.outPoint)).Nodup
  held : ∀ u∈inputs, u∈(b.state base).reserveUTXOs
  fresh : ∀ t∈base.vm.txs, ∀ op∈t.tx.spends, op ∉ coinPoints b.script T.tx

namespace SpendsReserve

variable {b : Bridge} {base grown : History} {T t : ChainTx} {inputs : List Utxo}

variable (h : SpendsReserve b base grown T inputs)

include h

theorem coin_of_spends (hop : op∈T.tx.spends) : ∃ u∈inputs, u.outPoint = op ∧ ∃ t∈base.vm.txs,
      u ∈ coinsTo b.script t := by
  rw [h.spends] at hop
  obtain ⟨u,hu,rfl⟩ := mem_map.mp hop
  exact ⟨u,hu,rfl,((b.mem_reserveUTXOs).mp (h.held u hu)).1⟩

theorem fresh_self : ∀ op∈T.tx.spends, op ∉ coinPoints b.script T.tx := by
  intro op hop hself
  obtain ⟨u,-,rfl,t,ht,hu⟩ := h.coin_of_spends hop
  refine h.inserts.hash_ne ht ?_
  rw [← t.tx.hash_of_mem_outputs (mem_coinsTo.mp hu).1,hash_of_mem_coinPoints hself]

theorem notCoinbase : isCoinbase T.tx = false := by
  obtain ⟨u,hu⟩ := exists_mem_of_ne_nil _ h.nonempty
  obtain ⟨t,ht,hcoin⟩ := ((b.mem_reserveUTXOs).mp (h.held u hu)).1
  have hmem : u.outPoint∈T.tx.spends := h.spends ▸ mem_map_of_mem hu
  exact not_coinbase_of_spends hmem (t.tx.index_ne_max (mem_coinsTo.mp hcoin).1)

theorem vmSigned_base (ht : t∈base.vm.txs) : b.vmSigned grown.vm.txs t = b.vmSigned base.vm.txs t :=
  congrArg (!isCoinbase t.tx && ·) (h.inserts.spendsAny (h.fresh t ht))

theorem vmOutside_base (ht : t∈base.vm.txs) : b.vmOutside grown.vm.txs t = b.vmOutside base.vm.txs t := by
  rw [vmOutside,vmOutside,reserveOuts,reserveOuts,h.inserts.spendsAny (h.fresh t ht)]

theorem spendsAny_new : spendsAny T.tx (b.reserveOuts grown.vm.txs) = true := by
  obtain ⟨u,hu⟩ := exists_mem_of_ne_nil _ h.nonempty
  have hmem : u.outPoint∈T.tx.spends := h.spends ▸ mem_map_of_mem hu
  obtain ⟨t,ht,hcoin⟩ := ((b.mem_reserveUTXOs).mp (h.held u hu)).1
  rw [spendsAny,any_eq_true]
  refine ⟨u.outPoint,hmem,decide_eq_true (mem_flatMap.mpr ⟨t,h.inserts.mem.mpr (.inr ht),?_⟩)⟩
  rw [← map_outPoint_coinsTo]
  exact mem_map_of_mem hcoin

theorem vmSigned_new : b.vmSigned grown.vm.txs T = true := by
  rw [vmSigned,h.notCoinbase,h.spendsAny_new]
  rfl

theorem payments_eq : b.payments grown.doge.txs = b.payments base.doge.txs := by rw [h.doge]

theorem unpaid_eq : (b.state grown).unpaid = (b.state base).unpaid := by
  have hpaid : (b.state grown).paid = (b.state base).paid := congrArg Payments.paid h.payments_eq
  have hun : (b.state grown).unconfirmed = (b.state base).unconfirmed := congrArg Payments.unconfirmed h.payments_eq
  funext p
  unfold PegState.unpaid PegState.isUnconfirmed
  rw [hpaid,hun]

theorem mem_inputs (ht : t∈base.vm.txs) {u : Utxo}
    (hu : u∈coinsTo b.script t) (hop : u.outPoint∈inputs.map (·.outPoint)) : u∈inputs := by
  obtain ⟨c,hc,heq⟩ := mem_map.mp hop
  obtain ⟨t',ht',hcoin⟩ := ((b.mem_reserveUTXOs).mp (h.held c hc)).1
  have hin {t : ChainTx} {u : Utxo} (ht : t∈base.vm.txs) (hu : u∈coinsTo b.script t) :
      u ∈ base.vm.txs.flatMap (coinsWhere (· = b.script)) := mem_flatMap.mpr ⟨t,ht,hu⟩
  exact inj_on_of_nodup_map (base.vm.nodup_coins (· = b.script)) (hin ht' hcoin) (hin ht hu) heq ▸ hc

theorem vmTerm_base (ht : t∈base.vm.txs) : b.vmTerm grown t = b.vmTerm base t-((coinsTo b.script t).map fun u =>
      if u.outPoint ∈ inputs.map (·.outPoint) then u.value else 0).sum := by
  have hinput : ∀ u∈coinsTo b.script t, u.outPoint∈inputs.map (·.outPoint) →
      Unspent base.vm.txs u.outPoint ∧ 0 < t.confirmations := by
    intro u hu hop
    obtain ⟨-,hun,hpos⟩ := (b.mem_reserveUTXOs).mp (h.held u (h.mem_inputs ht hu hop))
    exact ⟨hun,(mem_coinsTo.mp hu).2.2 ▸ hpos⟩
  have hcoins : (if t.confirmations ≠ 0 ∨ b.vmSigned base.vm.txs t then
        ((coinsTo b.script t).map fun u => if Unspent grown.vm.txs u.outPoint then u.value else 0).sum
        else 0) +
      ((coinsTo b.script t).map fun u =>
        if u.outPoint ∈ inputs.map (·.outPoint) then u.value else 0).sum =
      if t.confirmations ≠ 0 ∨ b.vmSigned base.vm.txs t then
        ((coinsTo b.script t).map fun u => if Unspent base.vm.txs u.outPoint then u.value else 0).sum
        else 0 := by
    split
    · rw [← sum_map_add]
      refine sum_congr fun u hu => ?_
      rw [if_congr (h.inserts.unspent.trans (by rw [h.spends])) rfl rfl]
      by_cases hop : u.outPoint∈inputs.map (·.outPoint)
      · simp [hop,(hinput u hu hop).1]
      · simp [hop]
    · next hcount =>
      rw [zero_add]
      refine sum_eq_zero fun u hu => if_neg fun hop => hcount (.inl ?_)
      have := (hinput u hu hop).2
      omega
  rw [vmTerm,vmTerm,h.vmSigned_base ht,h.vmOutside_base ht,h.unpaid_eq,← hcoins]
  abel

theorem vmTerm_new : b.vmTerm grown T = paidTo b.script T.tx := by
  have hcoin : ∀ u∈coinsTo b.script T, (if Unspent grown.vm.txs u.outPoint then u.value else 0) = u.value := by
    intro u hu
    have hop : u.outPoint∈coinPoints b.script T.tx := map_outPoint_coinsTo b.script T ▸ mem_map_of_mem hu
    refine if_pos (h.inserts.unspent.mpr ⟨fun t ht hs => h.fresh t ht _ hs hop, ?_⟩)
    exact fun hs => h.fresh_self _ hs hop
  have hout : b.vmOutside grown.vm.txs T = false := by
    rw [vmOutside,h.spendsAny_new]
    simp
  rw [vmTerm,if_pos (.inr h.vmSigned_new),sum_congr hcoin,← paidTo_eq_sum,h.notCoinbase,hout]
  simp

/-- The reserve's side of the books: what is spent leaves, what is paid back arrives. -/
theorem sum_vmTerm : (grown.vm.txs.map (b.vmTerm grown)).sum =
      (base.vm.txs.map (b.vmTerm base)).sum-inputsTotal inputs+paidTo b.script T.tx := by
  have hspent : (base.vm.txs.map fun t => ((coinsTo b.script t).map fun u =>
      if u.outPoint ∈ inputs.map (·.outPoint) then u.value else 0).sum).sum = inputsTotal inputs := by
    rw [inputsTotal,total_eq_sum,← sum_flatMap]
    refine sum_selected (base.vm.nodup_coins (· = b.script)) h.nodup fun u hu => ?_
    obtain ⟨t,ht,hcoin⟩ := ((b.mem_reserveUTXOs).mp (h.held u hu)).1
    exact mem_flatMap.mpr ⟨t,ht,hcoin⟩
  rw [h.inserts.sum,h.vmTerm_new,sum_congr fun t ht => h.vmTerm_base ht, sum_map_sub, hspent]

/-! ## The actions it settles -/

theorem filter_signed {q : MsgTx → Bool} (hq : q T.tx=false) :
    (grown.vm.txs.filter fun t => b.vmSigned grown.vm.txs t && q t.tx) =
      base.vm.txs.filter fun t => b.vmSigned base.vm.txs t && q t.tx := by
  rw [h.inserts.filter_of_neg (by rw [hq,Bool.and_false])]
  exact filter_congr fun t ht => by rw [h.vmSigned_base ht]

theorem released_of_ne (hne : parseRelease T.tx≠some op) :
    (b.state grown).released op = (b.state base).released op := by
  change b.released grown.vm.txs op = b.released base.vm.txs op
  have hfilter := h.filter_signed (q := fun tx => parseRelease tx = some op) (by simpa using hne)
  rw [released,released,← List.head?_filter,← List.head?_filter,filter_reverse,filter_reverse,hfilter]

theorem released_isSome (heq : parseRelease T.tx=some op) : ((b.state grown).released op).isSome := by
  change (b.released grown.vm.txs op).isSome
  rw [released,Option.isSome_map,List.find?_isSome]
  exact ⟨T,mem_reverse.mpr (h.inserts.mem.mpr (.inl rfl)),by simp [h.vmSigned_new,heq]⟩

theorem cancelled_of_ne (hne : parseCancel T.tx≠some op) :
    (b.state grown).cancelled op = (b.state base).cancelled op := by
  change b.cancelled grown.vm.txs op = b.cancelled base.vm.txs op
  have hfilter := h.filter_signed (q := fun tx => parseCancel tx = some op) (by simpa using hne)
  rw [cancelled,cancelled,hfilter]

theorem refunded_eq : (b.state grown).refunded = (b.state base).refunded := congrArg Payments.refunded h.payments_eq

theorem isUnconfirmed_eq : (b.state grown).isUnconfirmed = (b.state base).isUnconfirmed := by
  have hun : (b.state grown).unconfirmed = (b.state base).unconfirmed := congrArg Payments.unconfirmed h.payments_eq
  funext txid
  rw [PegState.isUnconfirmed,PegState.isUnconfirmed,hun]

theorem unsettled_of_ne {e : Deposit}
    (hrel : parseRelease T.tx≠some e.outPoint) (hcan : parseCancel T.tx≠some e.outPoint) :
    (b.state grown).unsettled e = (b.state base).unsettled e := by
  rw [PegState.unsettled,PegState.unsettled,h.refunded_eq,h.isUnconfirmed_eq,h.released_of_ne hrel]
  unfold isCredit
  rw [h.cancelled_of_ne hcan]

theorem locked_eq : (b.state grown).locked = (b.state base).locked := by
  rw [b.locked_eq,b.locked_eq,h.doge]

theorem surplus_eq : b.surplus grown = b.surplus base+(b.owedDeposits base-b.owedDeposits grown) -
      inputsTotal inputs+paidTo b.script T.tx := by
  rw [b.surplus_eq_owed,b.surplus_eq_owed,h.locked_eq,h.sum_vmTerm]
  abel

theorem owedDeposits_eq (hrel : parseRelease T.tx=none)
    (hcan : parseCancel T.tx=none) : b.owedDeposits grown = b.owedDeposits base := by
  rw [owedDeposits,owedDeposits,h.doge]
  exact sum_congr fun e _ => by rw [h.unsettled_of_ne (by simp [hrel]) (by simp [hcan])]

theorem surplus_release (htx : T.tx.unsigned=b.buildRelease inputs d) (hd : d∈(b.state base).deposits)
    (hrel : (b.state base).released d.outPoint=none) (hpos : 0<d.confirmations)
    (hcovers : 0 ≤ inputsTotal inputs-d.value) : b.surplus grown = b.surplus base := by
  have hout : T.tx.txOut = (b.buildRelease inputs d).txOut := by rw [← htx,MsgTx.unsigned_txOut]
  have hcarries := (b.buildRelease_carries inputs d).congr hout
  have hparse : parseRelease T.tx = some d.outPoint := by
    rw [parseRelease,hcarries.parseOutPointTag,if_pos rfl]
  have hcancel (op : OutPoint) : parseCancel T.tx ≠ some op := by
    rw [parseCancel,hcarries.parseOutPointTag,if_neg (by decide)]
    simp
  obtain ⟨hmem,hcredit⟩ := mem_filter.mp hd
  obtain ⟨hall,hnotrefunded⟩ := mem_filter.mp hmem
  have href : isRefunded (b.state base).refunded d = false := Bool.not_eq_eq_eq_not.mp hnotrefunded
  have hcredit' : isCredit (b.state base).cancelled d = true := hcredit
  have hdest : d.destination.pkScript ≠ b.script := b.dest_ne_script hall (Bool.and_eq_true_iff.mp hcredit').1
  have howed : b.owedDeposits grown = b.owedDeposits base-d.value := by
    refine b.owedDeposits_settle h.doge hall hpos ?_ ?_ fun e hne => ?_
    · simp [PegState.unsettled,href,hcredit',hrel]
    · have hcredit'' : isCredit (b.state grown).cancelled d = true := by
        rw [isCredit,h.cancelled_of_ne (hcancel _)]
        exact hcredit'
      rw [PegState.unsettled,h.refunded_eq,href,hcredit'']
      simpa using h.released_isSome hparse
    · refine h.unsettled_of_ne ?_ (hcancel _)
      rw [hparse]
      exact fun heq => hne (Option.some.inj heq).symm
  rw [h.surplus_eq,howed,paidTo_congr hout,b.paidTo_buildRelease hdest hcovers]
  abel

theorem surplus_cancel (htx : b.buildCancel inputs op = .ok T.tx.unsigned)
    (hzero : (b.state base).released op≠some 0) : b.surplus grown = b.surplus base-b.vmFee := by
  obtain ⟨-,-,-,hbuilt⟩ := b.buildCancel_ok htx
  have hout : T.tx.txOut = _ := (MsgTx.unsigned_txOut T.tx).symm.trans (congrArg MsgTx.txOut hbuilt)
  have hcarries : Carries T.tx (encodeCancel op) := (b.buildCancel_carries htx).congr rfl
  have hparse : parseCancel T.tx = some op := by
    rw [parseCancel,hcarries.parseOutPointTag,if_pos rfl]
  have hrel (op : OutPoint) : parseRelease T.tx ≠ some op := by
    rw [parseRelease,hcarries.parseOutPointTag,if_neg (by decide)]
    simp
  have hunsettled (e : Deposit) : (b.state grown).unsettled e = (b.state base).unsettled e := by
    by_cases heq : e.outPoint = op
    · -- credited or held, it is owed until it is released
      have hnone : ((b.state base).released e.outPoint).isNone =
          decide (((b.state base).released e.outPoint).getD 0 = 0) := by
        rw [heq]
        cases hr : (b.state base).released op with
        | none => rfl
        | some txid =>
          rw [hr] at hzero
          simpa using hzero
      rw [PegState.unsettled,PegState.unsettled,h.refunded_eq,h.isUnconfirmed_eq,
        h.released_of_ne (hrel _),hnone,ite_self,ite_self]
    · exact h.unsettled_of_ne (hrel _) (by rw [hparse]; exact fun hop => heq (Option.some.inj hop).symm)
  have howed : b.owedDeposits grown = b.owedDeposits base := by
    rw [owedDeposits,owedDeposits,h.doge]
    exact sum_congr fun e _ => by rw [hunsettled e]
  rw [h.surplus_eq,howed,paidTo_congr hout,b.paidTo_newTx]
  simp

end SpendsReserve

end

end DogePeg
