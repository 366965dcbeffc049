import DogePeg.Bridge.Mined

/-!
# Spending the peg

The Dogecoin side of one transaction more, in chains of blocks alone: the coins it spends
are no longer locked, its change is, and the peg-out it pays or the deposit it refunds is
no longer owed. What it pays to a personal deposit address is locked and owed at once.
-/

namespace DogePeg

open Amounts List Bridge

variable {dest : Destination} {p : PegOut} {fee : Int64}

section

variable [Hashing]

/-! ## What outsiders are owed for peg-outs -/

namespace Bridge

variable (b : Bridge)

def owedPegOuts (h : History) : Int64 :=
  (h.vm.txs.map fun t =>
    if b.vmOutside h.vm.txs t ∧ (b.state h).unpaid (b.pegOutOf t) then paidTo b.script t.tx else 0).sum

theorem sum_vmTerm_of_vm_eq {base grown : History} (hvm : grown.vm=base.vm) :
    (grown.vm.txs.map (b.vmTerm grown)).sum =
      (base.vm.txs.map (b.vmTerm base)).sum+b.owedPegOuts base-b.owedPegOuts grown := by
  rw [eq_sub_iff_add_eq,owedPegOuts,owedPegOuts,← sum_map_add,← sum_map_add,hvm]
  refine sum_congr fun t _ => ?_
  simp only [vmTerm,hvm,sub_add_cancel]

theorem pegOutOf_txid {t : ChainTx} (h : b.pegOutOf t=some p) : p.txid = t.tx.txHash := by
  unfold pegOutOf at h
  split at h
  · cases h
  · split at h
    · cases h
      rfl
    · cases h

theorem pegOutOf_dest {t : ChainTx} (h : b.pegOutOf t=some p) : parseDestinationTag t.tx .pegOut = some p.dest := by
  unfold pegOutOf at h
  split at h
  · cases h
  · next htag =>
    split at h
    · cases h
      exact htag
    · cases h

theorem owedPegOuts_pay {base grown : History} (hvm : grown.vm=base.vm)
    (hp : p∈(b.state base).pegOuts) (hbase : (b.state base).unpaid (some p))
    (hgrown : (b.state grown).unpaid (some p)=false)
    (hother : ∀ q : PegOut, q.txid ≠ p.txid → (b.state grown).unpaid (some q) = (b.state base).unpaid (some q)) :
    b.owedPegOuts grown = b.owedPegOuts base-p.value := by
  have hdef : (b.state base).pegOuts = (base.vm.txs.filter (b.vmOutside base.vm.txs)).filterMap b.pegOutOf := rfl
  rw [hdef,mem_filterMap] at hp
  obtain ⟨t,ht,hpt⟩ := hp
  obtain ⟨ht,hout⟩ := mem_filter.mp ht
  rw [owedPegOuts,owedPegOuts,hvm,sum_eq_add_at base.vm.nodup.of_map ht (g := fun t =>
    if b.vmOutside base.vm.txs t ∧ (b.state base).unpaid (b.pegOutOf t) then paidTo b.script t.tx
    else 0)]
  · simp only [hpt,hbase,hgrown,hout]
    simp [b.pegOutOf_value hpt]
    abel
  · intro u hu hne
    cases hq : b.pegOutOf u with
    | none => rfl
    | some q =>
      have htxid : q.txid ≠ p.txid := by
        rw [b.pegOutOf_txid hq,b.pegOutOf_txid hpt]
        exact fun heq => hne (base.vm.eq_of_hash hu ht heq)
      rw [hother q htxid]

end Bridge

/-! ## One transaction more -/

/-- A transaction that spends coins of the peg is mined, and nothing spends its outputs yet. -/
structure SpendsPeg (b : Bridge) (base grown : History) (T : ChainTx) (inputs : List Utxo) :
    Prop where
  vm : grown.vm = base.vm
  inserts : Inserts T base.doge.txs grown.doge.txs
  mined : Mined grown
  spends : T.tx.spends = inputs.map (·.outPoint)
  nonempty : inputs ≠ []
  nodup : (inputs.map (·.outPoint)).Nodup
  held : ∀ u∈inputs, (∃ t∈base.doge.txs, u∈coinsWhere b.watches t) ∧
    Unspent base.doge.txs u.outPoint
  fresh : ∀ t∈base.doge.txs, ∀ op∈t.tx.spends, op.hash ≠ T.tx.txHash
  reads_spent : b.ReadsSpent base T.tx
  reads : b.ReadsExactly T
  /-- Nothing has settled its outputs before it was there. -/
  unnamed : ∀ op, op.hash = T.tx.txHash →
    (b.state base).released op = none ∧ (b.state base).refunded op = none

namespace SpendsPeg

variable {b : Bridge} {base grown : History} {T t : ChainTx} {inputs : List Utxo}

variable (h : SpendsPeg b base grown T inputs)

include h

theorem mined_base : Mined base where
  vm t ht := h.mined.vm t (h.vm ▸ ht)
  doge t ht := h.mined.doge t (h.inserts.mem.mpr (.inr ht))

theorem fresh_self : ∀ op∈T.tx.spends, op.hash ≠ T.tx.txHash := by
  intro op hop
  rw [h.spends] at hop
  obtain ⟨u,hu,rfl⟩ := mem_map.mp hop
  obtain ⟨⟨t,ht,hcoin⟩,-⟩ := h.held u hu
  rw [t.tx.hash_of_mem_outputs (mem_coinsWhere.mp hcoin).1]
  exact h.inserts.hash_ne ht

theorem dogeSigned_base (ht : t∈base.doge.txs) : b.dogeSigned grown.doge.txs t = b.dogeSigned base.doge.txs t := by
  refine h.inserts.spendsAny fun op hop hcoin => ?_
  obtain ⟨u,hu,rfl⟩ := mem_map.mp hcoin
  exact h.fresh t ht _ hop (T.tx.hash_of_mem_outputs (mem_coinsWhere.mp hu).1)

theorem dogeSigned_new : b.dogeSigned grown.doge.txs T := by
  obtain ⟨u,hu⟩ := exists_mem_of_ne_nil _ h.nonempty
  obtain ⟨⟨t,ht,hcoin⟩,-⟩ := h.held u hu
  rw [dogeSigned,spendsAny,any_eq_true]
  exact ⟨u.outPoint,h.spends ▸ mem_map_of_mem hu,decide_eq_true
    (b.mem_watchedOuts.mpr ⟨t,h.inserts.mem.mpr (.inr ht),u,hcoin,rfl⟩)⟩

theorem signed_inserts : Inserts T (base.doge.txs.filter (b.dogeSigned base.doge.txs))
      (grown.doge.txs.filter (b.dogeSigned grown.doge.txs)) := by
  have heq : base.doge.txs.filter (b.dogeSigned base.doge.txs) = base.doge.txs.filter (b.dogeSigned grown.doge.txs) :=
    filter_congr fun t ht => (h.dogeSigned_base ht).symm
  exact heq ▸ h.inserts.filter h.dogeSigned_new

theorem locked_eq : (b.state grown).locked = (b.state base).locked-inputsTotal inputs +
      ((coinsWhere b.watches T).map (·.value)).sum := by
  have hspent : (base.doge.txs.map fun t => ((coinsWhere b.watches t).map fun u =>
      if u.outPoint ∈ inputs.map (·.outPoint) then u.value else 0).sum).sum = inputsTotal inputs := by
    rw [inputsTotal,total_eq_sum,← sum_flatMap]
    refine sum_selected (base.doge.nodup_coins b.watches) h.nodup fun u hu => ?_
    obtain ⟨⟨t,ht,hcoin⟩,-⟩ := h.held u hu
    exact mem_flatMap.mpr ⟨t,ht,hcoin⟩
  have hunspent {op : OutPoint} : Unspent grown.doge.txs op ↔
      Unspent base.doge.txs op ∧ op ∉ inputs.map (·.outPoint) := by
    rw [h.inserts.unspent,h.spends]
  have hbase : ∀ t∈base.doge.txs, ((coinsWhere b.watches t).map fun u =>
        if Locked grown.doge.txs u.outPoint then countedValue grown.doge.txs u.outPoint u.value else 0).sum =
      ((coinsWhere b.watches t).map fun u =>
        if Locked base.doge.txs u.outPoint then countedValue base.doge.txs u.outPoint u.value else 0).sum -
      ((coinsWhere b.watches t).map fun u =>
        if u.outPoint ∈ inputs.map (·.outPoint) then u.value else 0).sum := by
    intro t ht
    rw [← sum_map_sub]
    refine sum_congr fun u hu => ?_
    simp only [h.mined.locked_iff,h.mined_base.locked_iff,countedValue,hunspent]
    by_cases hop : u.outPoint∈inputs.map (·.outPoint)
    · obtain ⟨c,hc,heq⟩ := mem_map.mp hop
      have hun : Unspent base.doge.txs u.outPoint := heq ▸ (h.held c hc).2
      have hread := h.reads_spent t ht u hu (h.spends ▸ hop)
      simp [hop,hun,hread]
    · simp [hop]
  have hnew : ∀ u∈coinsWhere b.watches T,
      (if Locked grown.doge.txs u.outPoint then countedValue grown.doge.txs u.outPoint u.value else 0) = u.value := by
    intro u hu
    have hhash : u.outPoint.hash = T.tx.txHash := T.tx.hash_of_mem_outputs (mem_coinsWhere.mp hu).1
    rw [countedValue_of_read (h.reads u hu)]
    refine if_pos ((h.mined.locked_iff _).mpr (h.inserts.unspent.mpr ⟨?_,?_⟩))
    · exact fun t ht hop => h.fresh t ht _ hop hhash
    · exact fun hop => h.fresh_self _ hop hhash
  rw [b.locked_eq,b.locked_eq,h.mined.inBlocks_doge,h.mined_base.inBlocks_doge,h.inserts.sum,
    sum_congr hbase,sum_map_sub,hspent,sum_congr hnew]

theorem owedDeposits_eq : b.owedDeposits grown = ((b.allDeposits base.doge.txs).map fun d =>
        if 0 < d.confirmations ∧ (b.state grown).unsettled d then d.value else 0).sum +
      ((T.tx.outputs.filterMap (b.depositOf true T)).map fun d =>
        if 0 < d.confirmations ∧ (b.state grown).unsettled d then d.value else 0).sum := by
  rw [owedDeposits,allDeposits,allDeposits,sum_flatMap,sum_flatMap,
    h.inserts.sum,h.dogeSigned_new,sum_congr fun t ht => by rw [h.dogeSigned_base ht]]

omit h

/-- What `T` adds for its own outputs: a personal address is owed what it is paid. -/
theorem outputs_eq (hscript : b.depositDest b.script=none)
    (howed : ∀ p∈T.tx.outputs, ∀ d, b.depositOf true T p = some d →
      0 < d.confirmations ∧ (b.state grown).unsettled d) :
    ((coinsWhere b.watches T).map (·.value)).sum-((T.tx.outputs.filterMap (b.depositOf true T)).map fun d =>
          if 0 < d.confirmations ∧ (b.state grown).unsettled d then d.value else 0).sum =
      paidTo b.script T.tx := by
  rw [paidTo_eq_sum,coinsTo,sum_coinsWhere,sum_coinsWhere,sum_filterMap,← sum_map_sub]
  refine sum_congr fun p hp => ?_
  rw [b.watches_eq]
  cases hd : b.depositOf true T p with
  | some d =>
    have hdest : (b.depositDest p.2.pkScript).isSome := by
      unfold depositOf at hd
      split at hd
      · next dest hdest => rw [hdest]; rfl
      · simp at hd
    have hne : p.2.pkScript ≠ b.script := fun heq => by simp [heq,hscript] at hdest
    simp [hdest,hne,howed p hp d hd,(b.depositOf_eq hd).2.1]
  | none =>
    have hdest : b.depositDest p.2.pkScript = none := by
      unfold depositOf at hd
      split at hd
      · cases hd
      · assumption
    simp [hdest]

/-! ## The actions it settles -/

variable (h : SpendsPeg b base grown T inputs)

include h

theorem refunded_of_ne {op : OutPoint} (hne : parseRefund T.tx≠some op) :
    (b.state grown).refunded op = (b.state base).refunded op := by
  rw [h.mined.refunded_eq,h.mined_base.refunded_eq,← List.head?_filter,← List.head?_filter,
    h.signed_inserts.filter_of_neg (by simpa using hne)]

theorem refunded_self {op : OutPoint} (hop : parseRefund T.tx=some op) (hnone : (b.state base).refunded op=none) :
    (b.state grown).refunded op = some T.tx.txHash := by
  rw [h.mined_base.refunded_eq,Option.map_eq_none_iff,List.find?_eq_none] at hnone
  obtain ⟨before,after,hbase,hgrown⟩ :=
    h.signed_inserts.filter (p := fun t => parseRefund t.tx = some op) (by simpa using hop)
  rw [filter_eq_nil_iff.mpr hnone] at hbase
  obtain ⟨rfl,rfl⟩ := append_eq_nil_iff.mp hbase.symm
  rw [h.mined.refunded_eq,← List.head?_filter,hgrown]
  rfl

theorem released_eq : (b.state grown).released = (b.state base).released := by
  change b.released grown.vm.txs = b.released base.vm.txs
  rw [h.vm]

theorem cancelled_eq : (b.state grown).cancelled = (b.state base).cancelled := by
  change b.cancelled grown.vm.txs = b.cancelled base.vm.txs
  rw [h.vm]

theorem unsettled_of_ne {e : Deposit} (hne : parseRefund T.tx≠some e.outPoint) :
    (b.state grown).unsettled e = (b.state base).unsettled e := by
  unfold PegState.unsettled isRefunded
  rw [h.released_eq,h.cancelled_eq,h.refunded_of_ne hne,h.mined.not_isUnconfirmed,h.mined_base.not_isUnconfirmed]

theorem unsettled_self {d : Deposit}
    (hop : parseRefund T.tx=some d.outPoint) (hnone : (b.state base).refunded d.outPoint=none)
    (hhash : T.tx.txHash≠0) : (b.state grown).unsettled d = false := by
  have href : isRefunded (b.state grown).refunded d = true := by
    simpa [isRefunded,h.refunded_self hop hnone] using hhash
  rw [PegState.unsettled,href,if_pos rfl,h.mined.not_isUnconfirmed]

theorem unpaid_eq (p : PegOut) : (b.state grown).unpaid (some p) = true ↔
      (b.state base).unpaid (some p) = true ∧ parsePayment T.tx ≠ some p.txid := by
  rw [h.mined.unpaid_iff,h.mined_base.unpaid_iff]
  constructor
  · exact fun hall => ⟨fun t ht => hall t (h.signed_inserts.mem.mpr (.inr ht)),
      hall T (h.signed_inserts.mem.mpr (.inl rfl))⟩
  · rintro ⟨hall,hT⟩ t ht
    rcases h.signed_inserts.mem.mp ht with rfl | ht
    · exact hT
    · exact hall t ht

theorem owedListed_eq (href : parseRefund T.tx=none) : ((b.allDeposits base.doge.txs).map fun d =>
      if 0 < d.confirmations ∧ (b.state grown).unsettled d then d.value else 0).sum =
        b.owedDeposits base := by
  refine sum_congr fun d _ => ?_
  rw [h.unsettled_of_ne (by simp [href])]

theorem owedPegOuts_eq (hpay : parsePayment T.tx=none) : b.owedPegOuts grown = b.owedPegOuts base := by
  have hunpaid : (b.state grown).unpaid = (b.state base).unpaid := by
    funext p
    cases p with
    | none => rfl
    | some p =>
      rw [Bool.eq_iff_iff,h.unpaid_eq,hpay]
      simp
  rw [owedPegOuts,owedPegOuts,h.vm,hunpaid]

theorem surplus_eq (hscript : b.depositDest b.script=none)
    (hself : ∀ op, parseRefund T.tx = some op → op.hash ≠ T.tx.txHash) :
    b.surplus grown = b.surplus base-inputsTotal inputs+paidTo b.script T.tx +
      (b.owedDeposits base-((b.allDeposits base.doge.txs).map fun d =>
        if 0 < d.confirmations ∧ (b.state grown).unsettled d then d.value else 0).sum) +
      (b.owedPegOuts base-b.owedPegOuts grown) := by
  have howed : ∀ p∈T.tx.outputs, ∀ d, b.depositOf true T p = some d →
      0 < d.confirmations ∧ (b.state grown).unsettled d := by
    intro p hp d hd
    obtain ⟨hop,-,hconf⟩ := b.depositOf_eq hd
    have hhash : d.outPoint.hash = T.tx.txHash := hop ▸ T.tx.hash_of_mem_outputs hp
    obtain ⟨hrel,href⟩ := h.unnamed d.outPoint hhash
    refine ⟨hconf ▸ h.mined.doge T (h.inserts.mem.mpr (.inl rfl)),?_⟩
    rw [h.unsettled_of_ne fun heq => hself _ heq hhash]
    simp [PegState.unsettled,isRefunded,hrel,href]
  rw [b.surplus_eq_owed,b.surplus_eq_owed,b.sum_vmTerm_of_vm_eq h.vm,h.locked_eq,
    h.owedDeposits_eq,← outputs_eq hscript howed]
  abel

theorem surplus_fence (hscript : b.depositDest b.script=none)
    (hpay : parsePayment T.tx=none) (href : parseRefund T.tx=none)
    (hback : paidTo b.script T.tx=inputsTotal inputs-fee) : b.surplus grown = b.surplus base-fee := by
  rw [h.surplus_eq hscript (by simp [href]),hback,h.owedPegOuts_eq hpay,h.owedListed_eq href]
  abel

end SpendsPeg

omit [Hashing] in
theorem topUp_bounds {value sum : Int64} (hvalue : 0≤value.toInt) (hcovered : value ≤ sum) :
    0 ≤ (payoutChange (sum-value)).2.toInt ∧ (payoutChange (sum-value)).2.toInt ≤ pegDust.toInt := by
  have hdust : pegDust.toInt = 1000000 := by decide
  have hle := Int64.le_iff_toInt_le.mp hcovered
  have hsub := toInt_sub_of_le hvalue hle
  unfold payoutChange
  split
  · next hlt =>
    rw [Int64.lt_iff_toInt_lt] at hlt
    rw [toInt_sub_of_le (by omega) (by omega)]
    omega
  · simp [hdust]

omit [Hashing] in
theorem Bridge.payoutChange_eq (change : Int64) : (payoutChange change).1 = change+(payoutChange change).2 := by
  unfold payoutChange
  split
  · exact (add_sub_cancel change pegDust).symm
  · exact (add_zero change).symm

namespace SpendsPeg

variable {b : Bridge} {base grown : History} {T : ChainTx} {inputs : List Utxo}

theorem paidTo_payout {value : Int64} {data : List UInt8}
    (htx : b.buildPayout inputs value dest data fee = .ok T.tx.unsigned) :
    paidTo b.script T.tx = inputsTotal inputs-value+(payoutChange (inputsTotal inputs-value)).2 := by
  obtain ⟨-,hdest,-,-,hbuilt⟩ := b.buildPayout_ok htx
  have hout : T.tx.txOut = _ := (MsgTx.unsigned_txOut T.tx).symm.trans (congrArg MsgTx.txOut hbuilt)
  rw [paidTo_congr hout,b.paidTo_newTx,if_neg hdest,← payoutChange_eq]
  simp

theorem surplus_payout (h : SpendsPeg b base grown T inputs) (hscript : b.depositDest b.script=none)
    (hp : p∈(b.state base).pegOuts) (hunpaid : (b.state base).unpaid (some p))
    (htx : b.buildPayout inputs p.value dest (encodePayment p.txid) fee = .ok T.tx.unsigned) :
    b.surplus grown = b.surplus base+(payoutChange (inputsTotal inputs-p.value)).2 := by
  have hcarries : Carries T.tx (encodePayment p.txid) := (b.buildPayout_carries htx (by simp) (by simp)).congr rfl
  have hpay := hcarries.parsePayment
  have href : parseRefund T.tx = none := hcarries.parseOutPointTag_payment _
  have howed : b.owedPegOuts grown = b.owedPegOuts base-p.value := by
    refine b.owedPegOuts_pay h.vm hp hunpaid ?_ fun q hne => ?_
    · rw [← Bool.not_eq_true,h.unpaid_eq,hpay]
      simp
    · rw [Bool.eq_iff_iff,h.unpaid_eq,hpay]
      simpa using fun _ => hne.symm
  rw [h.surplus_eq hscript (by simp [href]),paidTo_payout htx,howed,h.owedListed_eq href]
  abel

theorem surplus_refund (h : SpendsPeg b base grown T inputs) (hscript : b.depositDest b.script=none)
    {d : Deposit} (hd : d∈b.allDeposits base.doge.txs) (hrel : (b.state base).released d.outPoint=none)
    (href : (b.state base).refunded d.outPoint=none) (hhash : T.tx.txHash≠0)
    (htx : b.buildPayout inputs d.value dest (encodeRefund d.outPoint) fee = .ok T.tx.unsigned) :
    b.surplus grown = b.surplus base+(payoutChange (inputsTotal inputs-d.value)).2 := by
  have hcarries : Carries T.tx (encodeRefund d.outPoint) :=
    (b.buildPayout_carries htx (by simp [encodeRefund]) (by simp [encodeRefund])).congr rfl
  have hpay : parsePayment T.tx = none := hcarries.parsePayment_outPointTag
  have hparse : parseRefund T.tx = some d.outPoint := by
    rw [parseRefund,hcarries.parseOutPointTag,if_pos rfl]
  obtain ⟨t,ht,p,hp,hdp⟩ : ∃ t∈base.doge.txs, ∃ p∈t.tx.outputs,
      b.depositOf (b.dogeSigned base.doge.txs t) t p = some d := by
    obtain ⟨t,ht,hd⟩ := mem_flatMap.mp hd
    obtain ⟨p,hp,hd⟩ := mem_filterMap.mp hd
    exact ⟨t,ht,p,hp,hd⟩
  obtain ⟨hop,-,hconf⟩ := b.depositOf_eq hdp
  have hne : d.outPoint.hash ≠ T.tx.txHash := by
    rw [hop,t.tx.hash_of_mem_outputs hp]
    exact h.inserts.hash_ne ht
  have hnodup := b.nodup_allDeposits base.doge
  have hunsettled : (b.state base).unsettled d := by
    simp [PegState.unsettled,isRefunded,hrel,href]
  have howed : ((b.allDeposits base.doge.txs).map fun e =>
      if 0 < e.confirmations ∧ (b.state grown).unsettled e then e.value else 0).sum =
        b.owedDeposits base-d.value := by
    rw [owedDeposits,sum_eq_add_at hnodup.of_map hd (g := fun e =>
      if 0 < e.confirmations ∧ (b.state base).unsettled e then e.value else 0)]
    · simp only [hunsettled,h.unsettled_self hparse href hhash,hconf,h.mined_base.doge t ht]
      simp
      abel
    · intro e he hne
      rw [h.unsettled_of_ne]
      rw [hparse]
      exact fun heq => hne (inj_on_of_nodup_map hnodup he hd (Option.some.inj heq).symm)
  rw [h.surplus_eq hscript (by simpa [hparse] using hne),paidTo_payout htx,h.owedPegOuts_eq hpay,howed]
  abel

end SpendsPeg

end

end DogePeg
