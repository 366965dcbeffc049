import DogePeg.Bridge.Books
import DogePeg.LineConfluence

/-!
# Transactions of outsiders

Anyone may pay the signer set's addresses and write any tag. Such a transaction spends
no coin of the set, so `load` takes it for a deposit, a peg-out or a contribution and for
nothing else: it cannot settle an action, and what it adds to the books it is owed for.
-/

namespace DogePeg

open Amounts Walk List Bridge Lineage

variable {r : Utxo}

/-! ## Adding transactions to a listing -/

/-- `base` is `grown` without the transactions `new` selects. These spend no coin of those
`coinsOf` gives, and what `base` lists spends none of theirs. -/
structure Adds (coinsOf : ChainTx → List OutPoint) (new : ChainTx → Bool)
    (base grown : List ChainTx) : Prop where
  eq_filter : base = grown.filter fun t => !new t
  new_spends : ∀ t∈grown, new t → ∀ op∈t.tx.spends, op ∉ grown.flatMap coinsOf
  base_spends : ∀ t∈base, ∀ u∈grown, new u → ∀ op∈t.tx.spends, op ∉ coinsOf u

namespace Adds

variable {coinsOf : ChainTx → List OutPoint} {new : ChainTx → Bool} {base grown : List ChainTx}
  {t u : ChainTx} {op : OutPoint}

variable (h : Adds coinsOf new base grown)

include h

theorem mem_base : t∈base ↔ t∈grown ∧ new t = false := by
  rw [h.eq_filter,mem_filter,Bool.not_eq_true']

theorem mem_or (ht : t∈grown) : t∈base ∨ new t := by
  cases hn : new t with
  | false => exact .inl (h.mem_base.mpr ⟨ht,hn⟩)
  | true => exact .inr rfl

theorem unspent_new (hu : u∈grown) (hnew : new u) (hop : op∈coinsOf u) : Unspent grown op := by
  intro t ht hs
  rcases h.mem_or ht with hb | hn
  · exact h.base_spends t hb u hu hnew op hs hop
  · exact h.new_spends t ht hn op hs (mem_flatMap.mpr ⟨u,hu,hop⟩)

theorem spender_mem (hu : u∈base) (hop : op∈coinsOf u) (ht : t∈grown) (hs : op∈t.tx.spends) : t∈base := by
  rcases h.mem_or ht with hb | hn
  · exact hb
  · exact absurd (mem_flatMap.mpr ⟨u,(h.mem_base.mp hu).1,hop⟩) (h.new_spends t ht hn op hs)

theorem unspent_base (hu : u∈base) (hop : op∈coinsOf u) : Unspent grown op ↔ Unspent base op := by
  constructor
  · exact fun hun t ht => hun t (h.mem_base.mp ht).1
  · exact fun hun t ht hs => hun t (h.spender_mem hu hop ht hs) hs

theorem unspent_inBlocks_base (hu : u∈base)
    (hop : op∈coinsOf u) : Unspent (inBlocks grown) op ↔ Unspent (inBlocks base) op := by
  constructor
  · intro hun t ht
    rw [mem_inBlocks] at ht
    exact hun t (mem_inBlocks.mpr ⟨(h.mem_base.mp ht.1).1,ht.2⟩)
  · intro hun t ht hs
    rw [mem_inBlocks] at ht
    exact hun t (mem_inBlocks.mpr ⟨h.spender_mem hu hop ht.1 hs,ht.2⟩) hs

theorem locked_base (hu : u∈base) (hop : op∈coinsOf u) : Locked grown op ↔ Locked base op := by
  refine or_congr (h.unspent_base hu hop) ?_
  constructor
  · rintro ⟨t,ht,hc,hs⟩
    exact ⟨t,h.spender_mem hu hop ht hs,hc,hs⟩
  · rintro ⟨t,ht,hc,hs⟩
    exact ⟨t,(h.mem_base.mp ht).1,hc,hs⟩

theorem spendsAny_base (ht : t∈base) :
    spendsAny t.tx (grown.flatMap coinsOf) = spendsAny t.tx (base.flatMap coinsOf) := by
  rw [Bool.eq_iff_iff,spendsAny,spendsAny,any_eq_true,any_eq_true]
  refine exists_congr fun op => and_congr_right fun hop => ?_
  rw [decide_eq_true_eq,decide_eq_true_eq,mem_flatMap,mem_flatMap]
  constructor
  · rintro ⟨u,hu,hc⟩
    rcases h.mem_or hu with hb | hn
    · exact ⟨u,hb,hc⟩
    · exact absurd hc (h.base_spends t ht u hu hn op hop)
  · rintro ⟨u,hu,hc⟩
    exact ⟨u,(h.mem_base.mp hu).1,hc⟩

theorem spendsAny_new (ht : t∈grown) (hnew : new t) : spendsAny t.tx (grown.flatMap coinsOf) = false := by
  rw [spendsAny,any_eq_false]
  intro op hop
  simpa using h.new_spends t ht hnew op hop

theorem filter_eq {p q : ChainTx → Bool} (hbase : ∀ t∈base, p t = q t) (hnew : ∀ t∈grown, new t → p t = false) :
    grown.filter p = base.filter q := by
  rw [h.eq_filter,filter_filter]
  refine filter_congr fun t ht => ?_
  cases hn : new t with
  | false => simp [hbase t (h.mem_base.mpr ⟨ht,hn⟩)]
  | true => simp [hnew t ht hn]

theorem sum_eq {M : Type*} [AddCommMonoid M] (f g : ChainTx → M) (hbase : ∀ t∈base, f t = g t) :
    (grown.map f).sum = (base.map g).sum+((grown.filter new).map f).sum := by
  rw [← sum_filter_add_sum_filter_not new f grown,add_comm,← h.eq_filter,sum_congr hbase]

end Adds

section

variable [Hashing]

namespace Bridge

variable (b : Bridge) {t : ChainTx} {p : OutPoint × TxOut}

theorem isCapital_of_depositOf_none (h : b.depositOf false t p=none) : b.watches p.2.pkScript = b.isCapital t p := by
  unfold depositOf at h
  rw [watches_eq]
  split at h
  · cases h
  case h_2 hdest =>
    split at h
    case isTrue hcase =>
      by_cases hs : p.2.pkScript = b.script
      · have hcap : b.isCapital t p = true := by simpa [hs] using hcase
        simp [hs,hcap]
      · simp [isCapital,hdest,hs]
    case isFalse => cases h

theorem watches_of_depositOf {d : Deposit} (h : b.depositOf false t p=some d) :
    b.watches p.2.pkScript = true ∧ b.isCapital t p = false := by
  unfold depositOf at h
  rw [watches_eq]
  split at h
  case h_1 dest hdest => simp [hdest,isCapital]
  case h_2 hdest =>
    split at h
    · cases h
    case isFalse hcase => simpa [hdest] using hcase

end Bridge

/-- `grown` adds to both chains transactions that are not coinbases and spend no coin of the
signer set. -/
structure AddsOutsiders (b : Bridge) (newVM newDoge : ChainTx → Bool) (base grown : History) :
    Prop where
  vm : Adds (fun t => coinPoints b.script t.tx) newVM base.vm.txs grown.vm.txs
  doge : Adds (fun t => (coinsWhere b.watches t).map (·.outPoint)) newDoge base.doge.txs grown.doge.txs
  not_coinbase : ∀ t∈grown.vm.txs, newVM t → isCoinbase t.tx = false

namespace AddsOutsiders

variable {b : Bridge} {newVM newDoge : ChainTx → Bool} {base grown : History} {t : ChainTx}

variable (h : AddsOutsiders b newVM newDoge base grown)

include h

theorem vmSigned_base (ht : t∈base.vm.txs) : b.vmSigned grown.vm.txs t = b.vmSigned base.vm.txs t :=
  congrArg (!isCoinbase t.tx && ·) (h.vm.spendsAny_base ht)

theorem vmSigned_new (ht : t∈grown.vm.txs) (hnew : newVM t) : b.vmSigned grown.vm.txs t = false := by
  rw [vmSigned,reserveOuts,h.vm.spendsAny_new ht hnew,Bool.and_false]

theorem vmOutside_base (ht : t∈base.vm.txs) : b.vmOutside grown.vm.txs t = b.vmOutside base.vm.txs t := by
  rw [vmOutside,vmOutside,reserveOuts,reserveOuts,h.vm.spendsAny_base ht]

theorem dogeSigned_base (ht : t∈base.doge.txs) : b.dogeSigned grown.doge.txs t = b.dogeSigned base.doge.txs t :=
  h.doge.spendsAny_base ht

theorem dogeSigned_new (ht : t∈grown.doge.txs) (hnew : newDoge t) : b.dogeSigned grown.doge.txs t = false :=
  h.doge.spendsAny_new ht hnew

/-! ## What the signers have done -/

theorem filter_vmSigned_eq (q : ChainTx → Bool) : grown.vm.txs.filter (fun t => b.vmSigned grown.vm.txs t && q t) =
    base.vm.txs.filter fun t => b.vmSigned base.vm.txs t && q t :=
  h.vm.filter_eq (fun t ht => by rw [h.vmSigned_base ht]) fun t ht hnew => by rw [h.vmSigned_new ht hnew,Bool.false_and]

theorem released_eq : b.released grown.vm.txs = b.released base.vm.txs := by
  funext op
  rw [released,released,← List.head?_filter,← List.head?_filter,filter_reverse,filter_reverse,h.filter_vmSigned_eq]

theorem cancelled_eq : b.cancelled grown.vm.txs = b.cancelled base.vm.txs := by
  funext op
  rw [cancelled,cancelled,h.filter_vmSigned_eq]

theorem payments_eq : b.payments grown.doge.txs = b.payments base.doge.txs := by
  have hfilter := h.doge.filter_eq (p := b.dogeSigned grown.doge.txs)
    (q := b.dogeSigned base.doge.txs) (fun t ht => h.dogeSigned_base ht) (fun t ht hnew => h.dogeSigned_new ht hnew)
  rw [payments,payments,hfilter]

theorem maps_eq : (b.state grown).released = (b.state base).released ∧
      (b.state grown).cancelled = (b.state base).cancelled ∧ (b.state grown).paid = (b.state base).paid ∧
      (b.state grown).refunded = (b.state base).refunded :=
  ⟨h.released_eq,h.cancelled_eq,congrArg Payments.paid h.payments_eq,congrArg Payments.refunded h.payments_eq⟩

theorem unconfirmed_eq : (b.state grown).unconfirmed = (b.state base).unconfirmed :=
  congrArg Payments.unconfirmed h.payments_eq

theorem isUnconfirmed_eq : (b.state grown).isUnconfirmed = (b.state base).isUnconfirmed := by
  funext txid
  rw [PegState.isUnconfirmed,PegState.isUnconfirmed,h.unconfirmed_eq]

theorem unsettled_eq : (b.state grown).unsettled = (b.state base).unsettled := by
  obtain ⟨hrel,hcan,-,href⟩ := h.maps_eq
  funext d
  rw [PegState.unsettled,PegState.unsettled,h.isUnconfirmed_eq,hrel,hcan,href]

theorem unpaid_eq : (b.state grown).unpaid = (b.state base).unpaid := by
  obtain ⟨-,-,hpaid,-⟩ := h.maps_eq
  funext p
  rw [PegState.unpaid,PegState.unpaid,h.isUnconfirmed_eq,hpaid]

/-! ## What the additions are worth -/

theorem dogeTerm_base (ht : t∈base.doge.txs) : b.dogeTerm grown t = b.dogeTerm base t := by
  have hout : ∀ p∈t.tx.outputs, b.dogeOutput grown t p = b.dogeOutput base t p := by
    intro p hp
    have hlocked : (if b.watches p.2.pkScript ∧ Locked grown.doge.txs p.1 then
          countedValue grown.doge.txs p.1 p.2.value else 0) =
        if b.watches p.2.pkScript ∧ Locked base.doge.txs p.1 then
          countedValue base.doge.txs p.1 p.2.value else 0 := by
      by_cases hw : b.watches p.2.pkScript
      · have hop := outPoint_mem_coinsWhere hp hw
        simp only [h.doge.locked_base ht hop,countedValue,h.doge.unspent_base ht hop]
      · simp [hw]
    rw [dogeOutput,dogeOutput,h.dogeSigned_base ht,h.unsettled_eq,hlocked]
  rw [dogeTerm,dogeTerm,sum_congr hout]

theorem vmTerm_base (ht : t∈base.vm.txs) : b.vmTerm grown t = b.vmTerm base t := by
  have hcoin : ∀ u∈coinsTo b.script t, (if Unspent grown.vm.txs u.outPoint then u.value else 0) =
        if Unspent base.vm.txs u.outPoint then u.value else 0 := by
    intro u hu
    have hop : u.outPoint∈coinPoints b.script t.tx := map_outPoint_coinsTo b.script t ▸ mem_map_of_mem hu
    exact if_congr (h.vm.unspent_base ht hop) rfl rfl
  rw [vmTerm,vmTerm,h.vmSigned_base ht,h.vmOutside_base ht,h.unpaid_eq,sum_congr hcoin]

theorem dogeOutput_new (ht : t∈grown.doge.txs) (hnew : newDoge t) (hread : b.ReadsExactly t)
    {p : OutPoint × TxOut} (hp : p∈t.tx.outputs) :
    b.dogeOutput grown t p = (if b.isCapital t p then p.2.value else 0)+(b.depositOf false t p).elim 0 fun d =>
          if !(b.state base).unsettled d then d.value else 0 := by
  have hlocked : (if b.watches p.2.pkScript ∧ Locked grown.doge.txs p.1 then
        countedValue grown.doge.txs p.1 p.2.value else 0) = if b.watches p.2.pkScript then p.2.value else 0 := by
    by_cases hw : b.watches p.2.pkScript
    · have hop : Locked grown.doge.txs p.1 := .inl (h.doge.unspent_new ht hnew (outPoint_mem_coinsWhere hp hw))
      have hvalue := hread ⟨p.1,p.2.value,p.2.pkScript,t.confirmations⟩ (mem_coinsWhere.mpr ⟨hp,hw,rfl⟩)
      rw [if_pos ⟨hw,hop⟩,if_pos hw,countedValue_of_read hvalue]
    · simp [hw]
  rw [dogeOutput,h.dogeSigned_new ht hnew,h.unsettled_eq,hlocked]
  -- a watched output is capital or a deposit, and no other is either
  cases hd : b.depositOf false t p with
  | none => rw [b.isCapital_of_depositOf_none hd]; simp
  | some d =>
    obtain ⟨hw,hcap⟩ := b.watches_of_depositOf hd
    have hvalue := (b.depositOf_eq hd).2.1
    cases hu : (b.state base).unsettled d <;> simp [hu,hw,hcap,hvalue]

end AddsOutsiders

omit [Hashing] in
theorem sum_inBlocks_flatMap {M : Type*} [AddCommMonoid M] (f : ChainTx → List M) (txs : List ChainTx) :
    ((inBlocks txs).flatMap f).sum = (txs.map fun t => if 0 < t.confirmations then (f t).sum else 0).sum := by
  rw [flatMap_def,sum_flatten,map_map,inBlocks,sum_filter]
  simp only [decide_eq_true_eq,Function.comp_apply]

namespace Bridge

variable (b : Bridge) (s : PegState)

def capitalIn (t : ChainTx) : List Int64 :=
  (t.tx.outputs.filter (b.isCapital t)).map (·.2.value)

/-- The deposits an outsider's transaction makes that the state says are settled. -/
def settledIn (t : ChainTx) : List Int64 :=
  ((t.tx.outputs.filterMap (b.depositOf false t)).filter fun d => !s.unsettled d).map (·.value)

def paidIn (t : ChainTx) : List Int64 :=
  (((b.pegOutOf t).toList).filter fun p => !s.unpaid (some p)).map (·.value)

end Bridge

namespace AddsOutsiders

variable {b : Bridge} {newVM newDoge : ChainTx → Bool} {base grown : History} {t : ChainTx}

theorem dogeTerm_new (h : AddsOutsiders b newVM newDoge base grown) (ht : t∈grown.doge.txs) (hnew : newDoge t)
    (hread : b.ReadsExactly t) : b.dogeTerm grown t = if 0 < t.confirmations then
      (b.capitalIn t).sum+(b.settledIn (b.state base) t).sum else 0 := by
  unfold dogeTerm capitalIn settledIn
  rw [sum_congr fun p hp => h.dogeOutput_new ht hnew hread hp, sum_map_add, sum_filter, sum_filter, sum_filterMap]

theorem vmTerm_new (h : AddsOutsiders b newVM newDoge base grown) (ht : t∈grown.vm.txs) (hnew : newVM t) :
    b.vmTerm grown t =
      if 0 < t.confirmations then (b.paidIn (b.state base) t).sum else 0 := by
  have hsigned := h.vmSigned_new ht hnew
  have hcb := h.not_coinbase t ht hnew
  have hnonneg := grown.vm.nonneg t ht
  by_cases hpos : 0 < t.confirmations
  · have hconf : t.confirmations ≠ 0 := hpos.ne'
    have hout : b.vmOutside grown.vm.txs t = true := by
      rw [vmOutside,hcb,reserveOuts,h.vm.spendsAny_new ht hnew]
      simpa using hconf
    have hcoin : ∀ u∈coinsTo b.script t, (if Unspent grown.vm.txs u.outPoint then u.value else 0) = u.value := by
      intro u hu
      have hop : u.outPoint∈coinPoints b.script t.tx := map_outPoint_coinsTo b.script t ▸ mem_map_of_mem hu
      exact if_pos (h.vm.unspent_new ht hnew hop)
    rw [vmTerm,if_pos (.inl hconf),sum_congr hcoin,← paidTo_eq_sum,hcb,hout,h.unpaid_eq,if_pos hpos,paidIn]
    cases hp : b.pegOutOf t with
    | none => simp [PegState.unpaid]
    | some p =>
      cases hu : (b.state base).unpaid (some p) <;> simp [hu,b.pegOutOf_value hp]
  · have hconf : t.confirmations = 0 := by omega
    simp [vmTerm,hsigned,hconf,vmOutside]

def gains (b : Bridge) (s : PegState) (newVM newDoge : ChainTx → Bool) (grown : History) : List Int64 :=
  (inBlocks (grown.doge.txs.filter newDoge)).flatMap b.capitalIn ++
    (inBlocks (grown.doge.txs.filter newDoge)).flatMap (b.settledIn s) ++
    (inBlocks (grown.vm.txs.filter newVM)).flatMap (b.paidIn s)

theorem surplus_eq (h : AddsOutsiders b newVM newDoge base grown)
    (hread : ∀ t∈grown.doge.txs, newDoge t → b.ReadsExactly t) :
    b.surplus grown = b.surplus base+total (gains b (b.state base) newVM newDoge grown) := by
  have hdoge : ((grown.doge.txs.filter newDoge).map (b.dogeTerm grown)).sum =
      ((inBlocks (grown.doge.txs.filter newDoge)).flatMap b.capitalIn).sum +
        ((inBlocks (grown.doge.txs.filter newDoge)).flatMap (b.settledIn (b.state base))).sum := by
    rw [sum_inBlocks_flatMap,sum_inBlocks_flatMap,← sum_map_add]
    refine sum_congr fun t ht => ?_
    obtain ⟨hmem,hnew⟩ := mem_filter.mp ht
    rw [h.dogeTerm_new hmem hnew (hread t hmem hnew)]
    split
    · rfl
    · rw [add_zero]
  have hvm : ((grown.vm.txs.filter newVM).map (b.vmTerm grown)).sum =
      ((inBlocks (grown.vm.txs.filter newVM)).flatMap (b.paidIn (b.state base))).sum := by
    rw [sum_inBlocks_flatMap]
    exact sum_congr fun t ht => h.vmTerm_new (mem_filter.mp ht).1 (mem_filter.mp ht).2
  rw [Bridge.surplus_eq,Bridge.surplus_eq,h.doge.sum_eq _ _ fun t ht => h.dogeTerm_base ht,
    h.vm.sum_eq _ _ fun t ht => h.vmTerm_base ht, hdoge, hvm, total_eq_sum, gains, sum_append, sum_append]
  abel

end AddsOutsiders

/-! ## The anchors -/

namespace Lineage

/-- The line starts at a coin the signers have spent, and so it does wherever it had to be
started again. -/
def SpentRoots (l : Lineage) : Prop :=
  ∃ r, l.root 0 = some r ∧ (l.spentBy r.outPoint).isSome ∧
    ∀ cur, Leads l.follow r.outPoint cur → ∀ t, l.spentBy cur = some t → lastOutputTo l.script t.tx = none →
        ∃ r', l.root t.confirmations = some r' ∧ (l.spentBy r'.outPoint).isSome

theorem anchorIn_eq_walk {l : Lineage} {next : OutPoint → Option OutPoint}
    (coins : List Utxo) (hroot : l.root 0=some r)
    (hstep : ∀ cur, Leads next r.outPoint cur → l.step cur = .ok (next cur)) :
    l.anchorIn coins = (walk next (l.coins.length+1) r.outPoint).bind fun tip =>
      coins.find? fun u => u.outPoint = tip := by
  rw [anchorIn,tip,hroot,← tipFrom_eq_walk _ false hstep]
  simp only
  rcases l.tipFrom (l.coins.length+1) r.outPoint false with e | ⟨tip,moved⟩ <;> rfl

end Lineage

section Anchors

variable {b : Bridge} {new : ChainTx → Bool} {base grown : List ChainTx} {rootDepth : ℤ}
  {coinsOf : ChainTx → List OutPoint} {op : OutPoint} {t : ChainTx} {script : Script}

theorem Adds.spentBy_base (h : Adds coinsOf new base grown) (ht : t∈base) (hop : op∈coinsOf t) :
    (newLineage grown script rootDepth).spentBy op = (newLineage base script rootDepth).spentBy op := by
  have hfilter := h.filter_eq (p := fun u => op ∈ u.tx.spends && 0 < u.confirmations)
    (q := fun u => op ∈ u.tx.spends && 0 < u.confirmations) (fun _ _ => rfl) ?_
  · rw [newLineage_spentBy,newLineage_spentBy,← List.head?_filter,← List.head?_filter,
      filter_reverse,filter_reverse,inBlocks,inBlocks,filter_filter,filter_filter,hfilter]
  · intro u hu hnew
    have hnot : op ∉ u.tx.spends := fun hs =>
      h.new_spends u hu hnew op hs (mem_flatMap.mpr ⟨t,(h.mem_base.mp ht).1,hop⟩)
    simp [hnot]

theorem Adds.spentBy_new (h : Adds coinsOf new base grown) (ht : t∈grown) (hnew : new t)
    (hop : op∈coinsOf t) : (newLineage grown script rootDepth).spentBy op = none :=
  newLineage_spentBy_none.mpr (h.unspent_new ht hnew hop).inBlocks

omit [Hashing] in
private theorem filter_flatMap_base {α : Type*} {f : ChainTx → List α} {p : α → Bool} (h : Adds coinsOf new base grown)
    (hnew : ∀ t∈grown, new t → 0 < t.confirmations → ∀ a∈f t, p a = false) :
    ((inBlocks grown).flatMap f).filter p = ((inBlocks base).flatMap f).filter p := by
  have hcomm : inBlocks base = (inBlocks grown).filter fun t => !new t := by
    rw [inBlocks,inBlocks,h.eq_filter,filter_comm]
  have hmem : ∀ t∈inBlocks grown, t∈grown ∧ 0 < t.confirmations := fun t => mem_inBlocks.mp
  rw [hcomm]
  generalize inBlocks grown = blocks at hmem
  induction blocks with
  | nil => rfl
  | cons t ts ih =>
    specialize ih fun u hu => hmem u (mem_cons_of_mem _ hu)
    obtain ⟨ht,hpos⟩ := hmem t (mem_cons_self ..)
    cases hn : new t with
    | true =>
      have hnil : (f t).filter p = [] := filter_eq_nil_iff.mpr fun a ha => by simp [hnew t ht hn hpos a ha]
      rw [flatMap_cons,filter_append,ih,hnil,nil_append,filter_cons_of_neg (by simp [hn])]
    | false =>
      rw [flatMap_cons,filter_append,ih,filter_cons_of_pos (by simp [hn]),flatMap_cons,filter_append]

theorem Adds.root_eq (h : Adds coinsOf new base grown) (hcoins : ∀ t, coinPoints script t.tx ⊆ coinsOf t) {before : ℤ}
    (hroot : (newLineage base script rootDepth).root before=some r)
    (hspent : ((newLineage base script rootDepth).spentBy r.outPoint).isSome) :
    (newLineage grown script rootDepth).root before = some r := by
  have hpoint {t : ChainTx} {u : Utxo} (hu : u∈coinsTo script t) : u.outPoint∈coinsOf t :=
    hcoins t (map_outPoint_coinsTo script t ▸ mem_map_of_mem hu)
  -- the spent coins deep enough are the same
  have hsame : ((newLineage grown script rootDepth).coins.filter fun u =>
        ¬ (u.confirmations < rootDepth ∨ (0 < before ∧ before ≤ u.confirmations))).filter
          (fun u => ((newLineage grown script rootDepth).spentBy u.outPoint).isSome) =
      ((newLineage base script rootDepth).coins.filter fun u =>
        ¬ (u.confirmations < rootDepth ∨ (0 < before ∧ before ≤ u.confirmations))).filter
          (fun u => ((newLineage base script rootDepth).spentBy u.outPoint).isSome) := by
    rw [newLineage_coins,newLineage_coins,filter_filter,filter_filter,filter_flatMap_base h]
    · refine filter_congr fun u hu => ?_
      obtain ⟨t,ht,hut⟩ := mem_flatMap.mp hu
      rw [h.spentBy_base (mem_inBlocks.mp ht).1 (hpoint hut)]
    · intro t ht hnew _ u hu
      rw [h.spentBy_new ht hnew (hpoint hu)]
      rfl
  simp only [root,newLineage_rootDepth] at hroot ⊢
  rw [hsame]
  split at hroot
  case isTrue hne => rw [if_pos hne,hroot]
  case isFalse =>
    -- an unspent root is not a spent one
    have hmem := oldestCoin_mem hroot
    rw [mem_filter,Option.isNone_iff_eq_none] at hmem
    rw [hmem.2] at hspent
    cases hspent

theorem Adds.step_eq (h : Adds coinsOf new base grown)
    (hcoins : ∀ t, coinPoints script t.tx ⊆ coinsOf t) {cur : OutPoint}
    (hroot : (newLineage base script rootDepth).root 0=some r)
    (hended : ∀ cur, Leads (newLineage base script rootDepth).follow r.outPoint cur → ∀ t,
      (newLineage base script rootDepth).spentBy cur = some t → lastOutputTo script t.tx = none →
        ∃ r', (newLineage base script rootDepth).root t.confirmations = some r' ∧
          ((newLineage base script rootDepth).spentBy r'.outPoint).isSome)
    (hcur : Leads (newLineage base script rootDepth).follow r.outPoint cur) :
    ∃ res, (newLineage base script rootDepth).step cur = .ok res ∧
      (newLineage grown script rootDepth).step cur = .ok res := by
  obtain ⟨u,hu,hop⟩ := mem_map.mp (mem_coins_of_leads (mem_map_of_mem (root_starts hroot).1) hcur)
  obtain ⟨t,ht,hut⟩ := mem_newLineage_coins.mp hu
  have hpoint : cur∈coinPoints script t.tx := hop ▸ map_outPoint_coinsTo script t ▸ mem_map_of_mem hut
  have hspent : (newLineage grown script rootDepth).spentBy cur = (newLineage base script rootDepth).spentBy cur :=
    h.spentBy_base (mem_inBlocks.mp ht).1 (hcoins t hpoint)
  cases hs : (newLineage base script rootDepth).spentBy cur with
  | none => exact ⟨none,step_ok_none.mpr hs,step_ok_none.mpr (hspent.trans hs)⟩
  | some spender =>
    rw [hs] at hspent
    cases hlast : lastOutputTo script spender.tx with
    | some nxt =>
      exact ⟨some nxt,step_ok_some.mpr ⟨spender,hs,.inl (by simpa)⟩,
        step_ok_some.mpr ⟨spender,hspent,.inl (by simpa)⟩⟩
    | none =>
      obtain ⟨r',hr',hrs⟩ := hended cur hcur spender hs hlast
      exact ⟨some r'.outPoint,step_ok_some.mpr ⟨spender,hs,.inr ⟨by simpa, r', hr', rfl⟩⟩,
        step_ok_some.mpr ⟨spender,hspent,.inr ⟨by simpa, r', h.root_eq hcoins hr' hrs, rfl⟩⟩⟩

omit [Hashing] in
private theorem find?_outPoint_eq {l l' : List Utxo} (hinj : ∀ u∈l', ∀ v∈l', u.outPoint = v.outPoint → u = v)
    (hmem : ∀ u, u.outPoint = op → (u∈l ↔ u∈l')) :
    (l.find? fun u => u.outPoint = op) = l'.find? fun u => u.outPoint = op := by
  cases hfind : l.find? fun u => u.outPoint = op with
  | none =>
    rw [List.find?_eq_none] at hfind
    refine (List.find?_eq_none.mpr fun u hu heq => ?_).symm
    exact hfind u ((hmem u (of_decide_eq_true heq)).mpr hu) heq
  | some u =>
    have hu := mem_of_find?_eq_some hfind
    have hop : u.outPoint = op := by simpa using List.find?_some hfind
    cases hfind' : l'.find? fun u => u.outPoint = op with
    | none =>
      rw [List.find?_eq_none] at hfind'
      exact absurd (decide_eq_true hop) (hfind' u ((hmem u hop).mp hu))
    | some v =>
      have hv := mem_of_find?_eq_some hfind'
      have hopv : v.outPoint = op := by simpa using List.find?_some hfind'
      rw [hinj u ((hmem u hop).mp hu) v hv (hop.trans hopv.symm)]

/-- The anchor of a line with spent roots stays the same, where the coins it is looked up in
differ by no coin of the base listing. -/
theorem Adds.anchorIn_eq (h : Adds coinsOf new base grown) (hcoins : ∀ t, coinPoints script t.tx ⊆ coinsOf t)
    (hroots : (newLineage base script rootDepth).SpentRoots) {held held' : List Utxo}
    (hinj : ∀ u∈held, ∀ v∈held, u.outPoint = v.outPoint → u = v)
    (hheld : ∀ t∈base, ∀ op∈coinPoints script t.tx, ∀ u : Utxo, u.outPoint = op → (u∈held' ↔ u∈held)) :
    (newLineage grown script rootDepth).anchorIn held' = (newLineage base script rootDepth).anchorIn held := by
  obtain ⟨r,hroot,hspent,hended⟩ := hroots
  rw [newLineage_script] at hended
  have hstep (cur : OutPoint) (hcur : Leads (newLineage base script rootDepth).follow r.outPoint cur) :
      (newLineage base script rootDepth).step cur = .ok ((newLineage base script rootDepth).follow cur) ∧
        (newLineage grown script rootDepth).step cur = .ok ((newLineage base script rootDepth).follow cur) := by
    obtain ⟨res,hb,he⟩ := h.step_eq hcoins hroot hended hcur
    have hfollow : (newLineage base script rootDepth).follow cur = res := by
      rw [follow,hb]
    exact ⟨hfollow ▸ hb,hfollow ▸ he⟩
  have hpoints (cur : OutPoint) (hcur : Leads (newLineage base script rootDepth).follow r.outPoint cur) :
      cur ∈ (newLineage base script rootDepth).coins.map (·.outPoint) :=
    mem_coins_of_leads (mem_map_of_mem (root_starts hroot).1) hcur
  have hlength : (newLineage base script rootDepth).coins.length ≤
      (newLineage grown script rootDepth).coins.length := by
    rw [newLineage_coins,newLineage_coins,inBlocks,inBlocks,h.eq_filter]
    exact (List.Sublist.flatMap (filter_sublist.filter _) _).length_le
  rw [anchorIn_eq_walk held' (h.root_eq hcoins hroot hspent) fun cur hcur => (hstep cur hcur).2,
    anchorIn_eq_walk held hroot fun cur hcur => (hstep cur hcur).1,
    walk_eq_of_le _ hpoints (m := (newLineage base script rootDepth).coins.length+1)
      (by simpa using Nat.le_succ_of_le hlength) (by simp)]
  cases hwalk : walk (newLineage base script rootDepth).follow
      ((newLineage base script rootDepth).coins.length+1) r.outPoint with
  | none => rfl
  | some tip =>
    obtain ⟨u,hu,hop⟩ := mem_map.mp (hpoints tip (leads_of_walk hwalk).1)
    obtain ⟨t,ht,hut⟩ := mem_newLineage_coins.mp hu
    refine find?_outPoint_eq hinj fun v hv => hheld t (mem_inBlocks.mp ht).1 tip ?_ v hv
    exact hop ▸ map_outPoint_coinsTo script t ▸ mem_map_of_mem hut

theorem Adds.mem_coins_base {base grown : Listing} (h : Adds coinsOf new base.txs grown.txs)
    (ht : t∈base.txs) {u : Utxo} (hhash : u.outPoint.hash=t.tx.txHash) {isCoin : Script → Bool} :
    u ∈ grown.txs.flatMap (coinsWhere isCoin) ↔ u∈base.txs.flatMap (coinsWhere isCoin) := by
  rw [mem_flatMap,mem_flatMap]
  constructor
  · rintro ⟨v,hv,huv⟩
    have hvhash : u.outPoint.hash = v.tx.txHash := v.tx.hash_of_mem_outputs (mem_coinsWhere.mp huv).1
    have heq := grown.eq_of_hash hv (h.mem_base.mp ht).1 (hvhash.symm.trans hhash)
    exact ⟨v,heq ▸ ht,huv⟩
  · rintro ⟨v,hv,huv⟩
    exact ⟨v,(h.mem_base.mp hv).1,huv⟩

end Anchors

namespace AddsOutsiders

variable {b : Bridge} {newVM newDoge : ChainTx → Bool} {base grown : History}

theorem reserveAnchor_eq (h : AddsOutsiders b newVM newDoge base grown)
    (hroots : (b.reserveLine base.vm.txs).SpentRoots) :
    (b.state grown).reserveAnchor = (b.state base).reserveAnchor := by
  have hmem {hist : History} {u : Utxo} :
      u ∈ ((b.vmUnspent hist.vm.txs (b.nodes hist).gettxout).filter fun u => 0 < u.confirmations) ↔
        u ∈ hist.vm.txs.flatMap (coinsWhere (· = b.script)) ∧
          Unspent (inBlocks hist.vm.txs) u.outPoint ∧ 0 < u.confirmations := by
    simp only [vmUnspent,mem_filter,nodes,not_any_spends,decide_eq_true_eq,and_assoc]
    rfl
  refine h.vm.anchorIn_eq (fun t => List.Subset.refl _) hroots ?_ ?_
  · intro u hu v hv heq
    exact inj_on_of_nodup_map (base.vm.nodup_coins _) (hmem.mp hu).1 (hmem.mp hv).1 heq
  · intro t ht op hop u hu
    subst hu
    refine hmem.trans (Iff.trans ?_ hmem.symm)
    rw [h.vm.mem_coins_base ht (hash_of_mem_coinPoints hop),h.vm.unspent_inBlocks_base ht hop]

theorem pegAnchor_eq (h : AddsOutsiders b newVM newDoge base grown) (hroots : (b.pegLine base.doge.txs).SpentRoots) :
    (b.state grown).pegAnchor = (b.state base).pegAnchor := by
  have hmem {hist : History} {u : Utxo} : u∈((b.nodes hist).dogeUnspent.filter fun u => 0 < u.confirmations) ++
          b.pendingCoins hist.doge.txs (b.payments hist.doge.txs).unconfirmed ↔
        ∃ c∈hist.doge.txs.flatMap (coinsWhere b.watches), 0 < c.confirmations ∧
          Locked hist.doge.txs c.outPoint ∧ u = c.counted hist.doge.txs := by
    rw [(b.lockedCoins_perm hist).mem_iff,b.confirmedCoins_eq_filter]
    simp only [mem_map,mem_filter,decide_eq_true_eq,and_assoc,eq_comm (b := u)]
  refine h.doge.anchorIn_eq (fun t op hop => ?_) hroots ?_ ?_
  · obtain ⟨out,hout,hscript⟩ := mem_coinPoints.mp hop
    exact outPoint_mem_coinsWhere hout (by rw [b.watches_eq]; simp [hscript])
  · intro u hu v hv heq
    obtain ⟨c,hc,-,-,rfl⟩ := hmem.mp hu
    obtain ⟨d,hd,-,-,rfl⟩ := hmem.mp hv
    rw [inj_on_of_nodup_map (base.doge.nodup_coins _) hc hd heq]
  · intro t ht op hop u hu
    subst hu
    obtain ⟨out,hout,hscript⟩ := mem_coinPoints.mp hop
    have hcoin : b.watches out.pkScript := by rw [b.watches_eq]; simp [hscript]
    have hwatched := outPoint_mem_coinsWhere hout hcoin
    refine hmem.trans (Iff.trans (exists_congr fun c => ?_) hmem.symm)
    -- a coin that counts as `u` has `u`'s outpoint
    by_cases hc : c.outPoint = u.outPoint
    · rw [← hc] at hop hwatched
      rw [h.doge.mem_coins_base ht (hash_of_mem_coinPoints hop),h.doge.locked_base ht hwatched,Utxo.counted,
        Utxo.counted,countedValue,countedValue,if_congr (h.doge.unspent_base ht hwatched) rfl rfl]
    · have hne {txs : List ChainTx} : u ≠ c.counted txs := fun heq => hc (congrArg Utxo.outPoint heq).symm
      simp only [hne,and_false]

theorem surplus_le (h : AddsOutsiders b newVM newDoge base grown)
    (hread : ∀ t∈grown.doge.txs, newDoge t → b.ReadsExactly t)
    (hpos : ∀ v∈gains b (b.state base) newVM newDoge grown, 0 ≤ v)
    (hfits : (b.surplus base).toInt+exact (gains b (b.state base) newVM newDoge grown)<2^63) :
    b.surplus base ≤ b.surplus grown := by
  have hexact := exact_nonneg fun v hv => nonneg_iff.mp (hpos v hv)
  have hlow := (b.surplus base).le_toInt
  rw [Int64.le_iff_toInt_le,h.surplus_eq hread,total_eq_sum,toInt_add_sum,Int.bmod_eq_of_le]
  · omega
  · norm_num
    omega
  · norm_num
    omega

end AddsOutsiders

/-- What outsiders can do to the books. The maps of settled actions stay as they were, and so
do the anchors of lines with spent roots. The surplus grows by the capital they pay in and by
the deposits and peg-outs that the signers had settled before they were listed, where the
wallet reads what they pay exactly. -/
theorem outsiders_cannot_forge (b : Bridge) (newVM newDoge : ChainTx → Bool) (base grown : History)
    (h : AddsOutsiders b newVM newDoge base grown) :
    ((b.state grown).released = (b.state base).released ∧ (b.state grown).cancelled = (b.state base).cancelled ∧
        (b.state grown).paid = (b.state base).paid ∧ (b.state grown).refunded = (b.state base).refunded) ∧
      ((b.reserveLine base.vm.txs).SpentRoots → (b.state grown).reserveAnchor = (b.state base).reserveAnchor) ∧
      ((b.pegLine base.doge.txs).SpentRoots → (b.state grown).pegAnchor = (b.state base).pegAnchor) ∧
      ((∀ t∈grown.doge.txs, newDoge t → b.ReadsExactly t) → b.surplus grown = b.surplus base +
            (total ((inBlocks (grown.doge.txs.filter newDoge)).flatMap b.capitalIn) +
              total ((inBlocks (grown.doge.txs.filter newDoge)).flatMap (b.settledIn (b.state base))) +
              total ((inBlocks (grown.vm.txs.filter newVM)).flatMap (b.paidIn (b.state base)))) ∧
          ((∀ v∈AddsOutsiders.gains b (b.state base) newVM newDoge grown, 0 ≤ v) →
            (b.surplus base).toInt+exact (AddsOutsiders.gains b (b.state base) newVM newDoge grown) < 2^63 →
            b.surplus base ≤ b.surplus grown)) := by
  refine ⟨h.maps_eq,h.reserveAnchor_eq,h.pegAnchor_eq,fun hread => ⟨?_,h.surplus_le hread⟩⟩
  rw [h.surplus_eq hread,AddsOutsiders.gains]
  simp only [total_eq_sum,sum_append]

end

section Sample

attribute [local instance] sampleHashing

def sampleInput (op : OutPoint) : TxIn := ⟨op,[],[],0⟩

abbrev sampleTx (op : OutPoint) (outs : List TxOut)
    (h : outs.length ≤ maxTxOutPerMessage := by decide +kernel) : MsgTx :=
  ⟨1,[sampleInput op],outs,0,h⟩

def sampleDeposit : MsgTx :=
  sampleTx ⟨7,0⟩ [⟨50,sampleBridge.script⟩,nullData (Tag.deposit.bytes++[0]++List.replicate 20 0)]

def depositListing : Listing := .of [⟨sampleDeposit,8,0⟩]

def sampleReserve : MsgTx := sampleTx ⟨0,0xffffffff⟩ [⟨1000,sampleBridge.script⟩]

def sampleRelease : MsgTx :=
  sampleTx (sampleReserve.outPoint 0) [⟨49,[1]⟩,⟨950,sampleBridge.script⟩,
    nullData (encodeRelease (sampleDeposit.outPoint 0))]

/-- A contribution of 100 and a transaction that moves it along the peg's line. -/
def sampleCapital : MsgTx := sampleTx ⟨8,0⟩ [⟨100,sampleBridge.script⟩,nullData Tag.contrib.bytes]

def sampleMove : MsgTx := sampleTx (sampleCapital.outPoint 0) [⟨90,sampleBridge.script⟩]

/-- The deposit was released, and then its block was undone. -/
def undoneHistory : History where
  vm := .of [⟨sampleReserve,9,0⟩,⟨sampleRelease,8,0⟩]
  doge := .of [⟨sampleCapital,9,0⟩,⟨sampleMove,8,0⟩]
  dogeConflicted := []

def minedHistory : History where
  vm := undoneHistory.vm
  doge := .of [⟨sampleCapital,9,0⟩,⟨sampleMove,8,0⟩,⟨sampleDeposit,1,0⟩]
  dogeConflicted := []

def isSampleDeposit (t : ChainTx) : Bool := t.tx = sampleDeposit

theorem minedHistory_adds : AddsOutsiders sampleBridge (fun _ => false) isSampleDeposit undoneHistory minedHistory where
  vm := ⟨rfl,by decide +kernel, by decide +kernel⟩
  doge := ⟨by decide +kernel, by decide +kernel, by decide +kernel⟩
  not_coinbase := by decide +kernel

/-- A deposit that the signers have released already raises the surplus by its value when
it is mined again, although it is no contribution. -/
theorem mined_again_raises_surplus :
    AddsOutsiders sampleBridge (fun _ => false) isSampleDeposit undoneHistory minedHistory ∧
      total ((inBlocks (minedHistory.doge.txs.filter isSampleDeposit)).flatMap sampleBridge.capitalIn) = 0 ∧
      sampleBridge.surplus undoneHistory = 40 ∧ sampleBridge.surplus minedHistory = 90 :=
  ⟨minedHistory_adds,by decide +kernel, by decide +kernel, by decide +kernel⟩

/-- Where every transaction in a block pays the script, a line never starts again. -/
theorem spentRoots_of_pays {txs : List ChainTx} {script : Script} {rootDepth : ℤ}
    (hroot : (newLineage txs script rootDepth).root 0=some r)
    (hspent : ((newLineage txs script rootDepth).spentBy r.outPoint).isSome)
    (hpays : ∀ t∈inBlocks txs, lastOutputTo script t.tx ≠ none) : (newLineage txs script rootDepth).SpentRoots := by
  refine ⟨r,hroot,hspent,fun cur _ t ht hlast => absurd ?_ (hpays t (newLineage_spentBy_some ht).1)⟩
  rwa [newLineage_script] at hlast

theorem minedHistory_keeps : (sampleBridge.state minedHistory).released = (sampleBridge.state undoneHistory).released ∧
      (sampleBridge.state minedHistory).reserveAnchor = (sampleBridge.state undoneHistory).reserveAnchor ∧
      (sampleBridge.state minedHistory).pegAnchor = (sampleBridge.state undoneHistory).pegAnchor ∧
      sampleBridge.surplus undoneHistory ≤ sampleBridge.surplus minedHistory := by
  obtain ⟨hmaps,hreserve,hpeg,hsurplus⟩ := outsiders_cannot_forge sampleBridge
    (fun _ => false) isSampleDeposit undoneHistory minedHistory minedHistory_adds
  have hsmall : ∀ t∈minedHistory.doge.txs, ∀ u∈coinsWhere sampleBridge.watches t,
      0 ≤ u.value.toInt ∧ u.value.toInt < 2^51 := by decide +kernel
  obtain ⟨-,hle⟩ := hsurplus fun t ht _ => sampleBridge.readsExactly_of_lt (hsmall t ht)
  have hgains : AddsOutsiders.gains sampleBridge (sampleBridge.state undoneHistory)
      (fun _ => false) isSampleDeposit minedHistory = [50] := by decide +kernel
  rw [hgains] at hle
  refine ⟨hmaps.1,hreserve ?_,hpeg ?_,hle (by simp) (by decide +kernel)⟩
  · exact spentRoots_of_pays (r := ⟨sampleReserve.outPoint 0,1000,sampleBridge.script,9⟩) (by decide +kernel)
      (by decide +kernel) (by decide +kernel)
  · exact spentRoots_of_pays (r := ⟨sampleCapital.outPoint 0,100,sampleBridge.script,9⟩) (by decide +kernel)
      (by decide +kernel) (by decide +kernel)

end Sample

end DogePeg
