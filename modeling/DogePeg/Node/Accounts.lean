import DogePeg.Node.Validate

/-!
# What the checks say about amounts

One lemma for each check that adds amounts: when it passes, the machine sum is the exact one. The loop of
`checkConnectBlock` works on a view, while the block is connected to the UTXO set; `Agree` says what the
two have in common before each transaction.
-/

namespace DogePeg.Node

open Amounts Holdings Checks List UtxoView

variable {p : Params} {op : OutPoint} {rest : List MsgTx} {view : UtxoView}

def worth (_ : OutPoint) (e : UtxoEntry) : ℤ := e.amount.toInt

def UtxoSet.supply (s : UtxoSet) : ℤ := weight worth s

def valueOut (tx : MsgTx) : ℤ := exact (tx.txOut.map (·.value))

def UtxoSet.amountAt (s : UtxoSet) (op : OutPoint) : Int64 := (s.lookup op).elim 0 (·.amount)

def amountsIn (s : UtxoSet) (tx : MsgTx) : List Int64 := (inputs tx).map s.amountAt

def valueIn (s : UtxoSet) (tx : MsgTx) : ℤ := exact (amountsIn s tx)

theorem toInt_amountAt (s : UtxoSet) (op : OutPoint) : (s.amountAt op).toInt = weightAt worth s op := by
  unfold UtxoSet.amountAt weightAt
  cases s.lookup op <;> rfl

theorem valueIn_eq_sum (s : UtxoSet) (tx : MsgTx) : valueIn s tx = ((inputs tx).map (weightAt worth s)).sum := by
  rw [valueIn,amountsIn,exact,map_map]
  congr 2
  funext op
  exact toInt_amountAt s op

/-! ## A transaction by itself -/

theorem checkOutputValues_ok {acc : Int64} {outs : List TxOut} (h : checkOutputValues acc outs = .ok ())
    (hlo : 0≤acc.toInt) (hhi : acc.toInt≤10^18) :
    (∀ o∈outs, 0 ≤ o.value.toInt) ∧ acc.toInt+exact (outs.map (·.value)) ≤ 10^18 := by
  induction outs generalizing acc with
  | nil => simpa using hhi
  | cons o outs ih =>
    simp only [checkOutputValues,checks_ok,require_eq_ok,decide_eq_true_eq] at h
    obtain ⟨hv,hvmax,ht,htmax,hrest⟩ := h
    rw [nonneg_iff] at hv ht
    have hadd := toInt_add_of_nonneg hlo hv ht
    rw [Int64.le_iff_toInt_le,toInt_maxSatoshi] at htmax
    obtain ⟨hpos,hle⟩ := ih hrest ht htmax
    refine ⟨?_,?_⟩
    · intro o' ho'
      rcases mem_cons.mp ho' with rfl | ho'
      · exact hv
      · exact hpos o' ho'
    · simp only [map_cons,exact_cons]
      omega

/-- What `CheckTransactionSanity` guarantees about amounts and inputs. -/
structure Sane (tx : MsgTx) : Prop where
  nonneg : ∀ o∈tx.txOut, 0 ≤ o.value.toInt
  le_max : valueOut tx ≤ 10^18
  nodup : tx.spends.Nodup

theorem checkTransactionSanity_ok {rules : Rules} {tx : MsgTx}
    (h : checkTransactionSanity rules tx = .ok ()) : Sane tx := by
  simp only [checkTransactionSanity,checks_ok,require_eq_ok,decide_eq_true_eq] at h
  obtain ⟨-,-,-,hvalues,hnodup,-⟩ := h
  have hv := checkOutputValues_ok hvalues (by simp) (by simp)
  exact ⟨hv.1,by simpa [valueOut] using hv.2, hnodup⟩

variable {tx : MsgTx}

theorem Sane.values_nonneg (h : Sane tx) : ∀ v∈tx.txOut.map (·.value), 0 ≤ v.toInt := by
  intro v hv
  obtain ⟨o,ho,rfl⟩ := mem_map.mp hv
  exact h.nonneg o ho

/-- The unchecked sums of the outputs, in `CheckTransactionInputs` and over the
coinbase, do not wrap. -/
theorem Sane.toInt_total (h : Sane tx) : (total (tx.txOut.map (·.value))).toInt = valueOut tx := by
  apply Amounts.toInt_total h.values_nonneg
  have := h.le_max
  unfold valueOut at this
  omega

theorem Sane.nodup_inputs (h : Sane tx) : (inputs tx).Nodup := by
  unfold inputs
  split
  · exact nodup_nil
  · exact h.nodup

/-! ## The inputs -/

/-- What the view has at `op`, zero when nothing is unspent there. -/
def UtxoView.amountAt (view : UtxoView) (op : OutPoint) : Int64 :=
  (view.unspent op).elim 0 (·.amount)

theorem sumInputs_ok {height : Int32} {acc r : Int64}
    {ops : List OutPoint} (h : sumInputs p height view acc ops = .ok r) (hacc : 0≤acc.toInt) :
    (∀ op∈ops, ∃ e, view.unspent op = some e ∧ 0 ≤ e.amount.toInt) ∧ r = (ops.map view.amountAt).foldl (· + ·) acc ∧
      r.toInt = acc.toInt+exact (ops.map view.amountAt) := by
  induction ops generalizing acc with
  | nil =>
    cases h
    simp
  | cons op ops ih =>
    unfold sumInputs at h
    split at h
    case h_1 => cases h
    case h_2 utxo hu =>
      simp only [checks_ok,require_eq_ok,decide_eq_true_eq,Bool.and_eq_true,Bool.not_eq_true',
        decide_eq_false_iff_not] at h
      obtain ⟨-,hv,-,⟨hover,-⟩,hrest⟩ := h
      rw [nonneg_iff] at hv
      have hadd := toInt_add_of_not_lt hacc hv hover
      obtain ⟨hall,hfold,hsum⟩ := ih hrest (by omega)
      have hat : view.amountAt op = utxo.amount := by simp [amountAt,hu]
      refine ⟨?_,?_,?_⟩
      · intro o ho
        rcases mem_cons.mp ho with rfl | ho
        · exact ⟨utxo,hu,hv⟩
        · exact hall o ho
      · rw [map_cons,foldl_cons,hat,hfold]
      · rw [map_cons,exact_cons,hat,hsum,hadd]
        omega

def feeOf (tx : MsgTx) (amounts : List Int64) : Int64 :=
  if isCoinbase tx then 0 else total amounts-total (tx.txOut.map (·.value))

/-- `CheckTransactionInputs` finds every input, and the fee it returns is the exact
difference of what goes in and what goes out. -/
theorem checkTransactionInputs_ok {height : Int32} {fee : Int64}
    (hsane : Sane tx) (h : checkTransactionInputs p tx height view = .ok fee) :
    (∀ op∈inputs tx, ∃ e, view.unspent op = some e ∧ 0 ≤ e.amount.toInt) ∧
      fee = feeOf tx ((inputs tx).map view.amountAt) ∧ 0 ≤ fee.toInt ∧ fee.toInt = (if isCoinbase tx then 0
        else exact ((inputs tx).map view.amountAt)-valueOut tx) ∧
      exact ((inputs tx).map view.amountAt) < 2^63 := by
  unfold checkTransactionInputs at h
  split at h
  case isTrue hc =>
    cases h
    simp [inputs,feeOf,hc]
  case isFalse hc =>
    simp only [checks_ok,require_eq_ok,decide_eq_true_eq] at h
    obtain ⟨sum,hsum,hle,hfee⟩ := h
    cases hfee
    obtain ⟨hall,hfold,heq⟩ := sumInputs_ok hsum (by simp)
    have hout := exact_nonneg hsane.values_nonneg
    rw [Int64.le_iff_toInt_le,hsane.toInt_total] at hle
    have hsub := toInt_sub_of_le (a := sum) (b := total (tx.txOut.map (·.value)))
      (by rw [hsane.toInt_total]; exact hout) (by rw [hsane.toInt_total]; exact hle)
    have hlt := sum.toInt_lt
    simp only [inputs,feeOf,hc,Bool.false_eq_true,↓reduceIte]
    rw [hsane.toInt_total] at hsub
    rw [Int64.toInt_zero,zero_add] at heq
    refine ⟨hall,?_,by omega, by omega, by omega⟩
    rw [hfold]
    rfl

/-! ## Connecting transactions -/

section

variable [Hashing] {height : Int32} {s : UtxoSet}

theorem lookup_apply_of_creates {e : UtxoEntry}
    (h : (op,e)∈newEntries tx height) : (s.apply tx height).lookup op = some e :=
  lookup_insertAll_of_mem (nodup_newEntries_keys tx height) h

theorem lookup_apply_of_not_creates (h : ¬ Creates tx op) :
    (s.apply tx height).lookup op = if op ∈ inputs tx then none else s.lookup op := by
  rw [UtxoSet.apply,lookup_insertAll_of_notMem (mt (creates_iff_mem_keys height).mpr h),lookup_eraseAll]

/-- A view and a UTXO set agree for the transactions still to be connected: an input
that no transaction before it creates is unspent in the view only as it is in the set. -/
def Agree (view : UtxoView) (s : UtxoSet) (rest : List MsgTx) : Prop :=
  ∀ pre tx post, rest = pre++tx::post → ∀ op∈inputs tx, (∀ u∈pre, ¬ Creates u op) →
    ∀ e, view.unspent op = some e → s.lookup op = some e

theorem Agree.head (h : Agree view s (tx::rest)) (hop : op∈inputs tx) {e : UtxoEntry}
    (he : view.unspent op=some e) : s.lookup op = some e := h [] tx rest rfl op hop (by simp) e he

theorem Agree.connect {view' : UtxoView}
    (h : Agree view s (tx::rest)) (hc : view.connectTransaction tx height = .ok view') :
    Agree view' (s.apply tx height) rest := by
  intro pre u post hrest op hop hpre e he
  simp only [connectTransaction,bind_eq_ok,Except.ok.injEq] at hc
  obtain ⟨w,hw,rfl⟩ := hc
  have hspent := entries_spendAll hw op
  by_cases hcreates : Creates tx op
  · obtain ⟨p,hp,rfl⟩ := mem_map.mp ((creates_iff_mem_keys height).mp hcreates)
    have hentry := entries_setAll_of_mem (v := w) (nodup_newEntries_keys tx height) hp
    rw [unspent_eq_some,addTxOuts,hentry] at he
    cases he
    exact lookup_apply_of_creates hp
  · have hsame : (w.addTxOuts tx height).unspent op = w.unspent op :=
      unspent_eq_of_entries (entries_setAll_of_notMem (mt (creates_iff_mem_keys height).mpr hcreates))
    rw [hsame] at he
    by_cases hin : op∈inputs tx
    · rw [hspent.2 hin] at he
      cases he
    · rw [lookup_apply_of_not_creates hcreates,if_neg hin]
      rw [unspent_eq_of_entries (hspent.1 hin)] at he
      refine h (tx::pre) u post (by rw [hrest]; rfl) op hop ?_ e he
      intro t ht
      rcases mem_cons.mp ht with rfl | ht
      · exact hcreates
      · exact hpre t ht

structure Spends (s : UtxoSet) (tx : MsgTx) : Prop where
  sane : Sane tx
  found : ∀ op∈inputs tx, ∃ e, s.lookup op = some e ∧ 0 ≤ e.amount.toInt
  fits : valueIn s tx < 2^63
  covers : isCoinbase tx = false → valueOut tx ≤ valueIn s tx

/-- The transactions of a block connected one after the other, each to the set the
ones before it leave. -/
inductive Connects (height : Int32) : UtxoSet → List MsgTx → UtxoSet → Prop
  | nil (s : UtxoSet) : Connects height s [] s
  | cons {s s' tx txs} (head : Spends s tx)
      (tail : Connects height (s.apply tx height) txs s') : Connects height s (tx::txs) s'

def feesOf (height : Int32) : UtxoSet → List MsgTx → List Int64
  | _, [] => []
  | s, tx::txs => feeOf tx (amountsIn s tx)::feesOf height (s.apply tx height) txs

def coinbaseOut (txs : List MsgTx) : ℤ := ((txs.filter isCoinbase).map valueOut).sum

theorem Agree.amounts_eq (h : Agree view s (tx::rest)) (hall : ∀ op∈inputs tx, ∃ e, view.unspent op = some e) :
    (inputs tx).map view.amountAt = amountsIn s tx := by
  apply map_congr_left
  intro op hop
  obtain ⟨e,he⟩ := hall op hop
  simp [amountAt,UtxoSet.amountAt,he,h.head hop he]

/-- The fee loop, run on a view that agrees with the set: the transactions connect to
the set as well, and the fees are the exact ones. -/
theorem connectFees_run {fees : Int64} {txs : List MsgTx} {r : UtxoView × Int64}
    (hsane : ∀ tx∈txs, Sane tx) (hagree : Agree view s txs) (hfees : 0≤fees.toInt)
    (h : connectFees p height (view,fees) txs = .ok r) :
    (∃ s', Connects height s txs s') ∧ r.2 = (feesOf height s txs).foldl (· + ·) fees ∧
      r.2.toInt = fees.toInt+exact (feesOf height s txs) := by
  induction txs generalizing view fees s with
  | nil =>
    cases h
    simpa [feesOf] using ⟨s,Connects.nil s⟩
  | cons tx txs ih =>
    simp only [connectFees,checks_ok,require_eq_ok,Bool.not_eq_true',decide_eq_false_iff_not] at h
    obtain ⟨fee,hfee,hover,view',hview,hrest⟩ := h
    have htx := hsane tx (by simp)
    obtain ⟨hall,hfeeOf,hnonneg,heq,hfits⟩ := checkTransactionInputs_ok htx hfee
    have hadd := toInt_add_of_not_lt hfees hnonneg hover
    -- the amounts found in the view are those of the set
    rw [hagree.amounts_eq fun op hop => (hall op hop).imp fun _ he => he.1] at hfeeOf heq hfits
    obtain ⟨⟨s',hconn⟩,hfold,hr⟩ := ih (fun t ht => hsane t (mem_cons_of_mem _ ht))
      (hagree.connect hview) (by omega) hrest
    have hspends : Spends s tx := by
      refine ⟨htx,?_,hfits,?_⟩
      · intro op hop
        obtain ⟨e,he,hpos⟩ := hall op hop
        exact ⟨e,hagree.head hop he,hpos⟩
      · intro hc
        rw [hc] at heq
        simp only [Bool.false_eq_true,↓reduceIte] at heq
        unfold valueIn
        omega
    refine ⟨⟨s',.cons hspends hconn⟩,?_,?_⟩
    · rw [hfold,hfeeOf]
      rfl
    · rw [hr,hadd,feesOf,exact_cons,← hfeeOf]
      omega

/-! ## What connecting does to the supply -/

omit [Hashing] in
theorem Spends.amounts_nonneg (h : Spends s tx) : ∀ v∈amountsIn s tx, 0 ≤ v.toInt := by
  intro v hv
  obtain ⟨op,hop,rfl⟩ := mem_map.mp hv
  obtain ⟨e,he,hpos⟩ := h.found op hop
  simpa [UtxoSet.amountAt,he] using hpos

omit [Hashing] in
theorem Spends.toInt_feeOf (h : Spends s tx) : (feeOf tx (amountsIn s tx)).toInt =
      if isCoinbase tx then 0 else valueIn s tx-valueOut tx := by
  unfold feeOf
  split
  · rfl
  · rename_i hc
    have hin : (total (amountsIn s tx)).toInt = valueIn s tx := Amounts.toInt_total h.amounts_nonneg h.fits
    have hcov := h.covers (by simpa using hc)
    have hout := exact_nonneg h.sane.values_nonneg
    rw [toInt_sub_of_le,hin,h.sane.toInt_total]
    · rw [h.sane.toInt_total]
      exact hout
    · rw [hin,h.sane.toInt_total]
      exact hcov

theorem newEntries_worth_nonneg (hsane : Sane tx) (height : Int32) : ∀ e∈newEntries tx height, 0 ≤ worth e.1 e.2 := by
  intro e he
  obtain ⟨p,hp,rfl⟩ := mem_map.mp he
  obtain ⟨i,hi,-⟩ := tx.mem_outputs.mp (mem_filter.mp hp).1
  exact hsane.nonneg _ (mem_of_getElem? hi)

theorem map_value_outputs (tx : MsgTx) : tx.outputs.map (fun p => p.2.value.toInt) = tx.txOut.map (·.value.toInt) := by
  rw [MsgTx.outputs,map_map]
  change tx.txOut.zipIdx.map ((·.value.toInt) ∘ Prod.fst) = _
  rw [← map_map,zipIdx_map_fst]

omit [Hashing] in
private theorem sum_filter_le {α : Type} (l : List α) (keep : α → Bool) (f : α → ℤ)
    (h : ∀ a∈l, 0 ≤ f a) : ((l.filter keep).map f).sum ≤ (l.map f).sum := by
  induction l with
  | nil => simp
  | cons a l ih =>
    have ha := h a (by simp)
    have hl := ih fun b hb => h b (mem_cons_of_mem _ hb)
    rw [filter_cons]
    split <;> simp only [map_cons,sum_cons] <;> omega

theorem sum_newEntries_le (hsane : Sane tx) (height : Int32) :
    ((newEntries tx height).map fun e => worth e.1 e.2).sum ≤ valueOut tx := by
  have hvalue : valueOut tx = (tx.outputs.map fun p => p.2.value.toInt).sum := by
    rw [map_value_outputs,valueOut,exact,map_map]
    rfl
  rw [hvalue,newEntries,map_map]
  apply sum_filter_le
  intro p hp
  obtain ⟨i,hi,-⟩ := tx.mem_outputs.mp hp
  exact hsane.nonneg _ (mem_of_getElem? hi)

/-- Connecting a transaction replaces the value of its inputs by at most that of its
outputs. -/
theorem supply_apply_le (hsane : Sane tx) (hs : Nonneg worth s) (height : Int32) :
    (s.apply tx height).supply ≤ s.supply-valueIn s tx+valueOut tx := by
  have herase := weight_eraseAll worth s hsane.nodup_inputs
  have hinsert := weight_insertAll_le (hs.eraseAll (inputs tx)) (newEntries_worth_nonneg hsane height)
  have hsum := sum_newEntries_le hsane height
  rw [valueIn_eq_sum]
  unfold UtxoSet.supply UtxoSet.apply
  omega

omit [Hashing] in
theorem coinbaseOut_cons (tx : MsgTx) (txs : List MsgTx) :
    coinbaseOut (tx::txs) = (if isCoinbase tx then valueOut tx else 0)+coinbaseOut txs := by
  unfold coinbaseOut
  rw [filter_cons]
  split <;> simp

variable {height : Int32} {s s' : UtxoSet} {txs : List MsgTx}

theorem Connects.nonneg (h : Connects height s txs s') (hs : Nonneg worth s) : Nonneg worth s' := by
  induction h with
  | nil s => exact hs
  | cons hspends _ ih =>
    exact ih ((hs.eraseAll _).insertAll (newEntries_worth_nonneg hspends.sane height))

theorem Connects.supply_le (h : Connects height s txs s') (hs : Nonneg worth s) :
    s'.supply ≤ s.supply+coinbaseOut txs-exact (feesOf height s txs) := by
  induction h with
  | nil s => simp [coinbaseOut,feesOf]
  | @cons s s' tx txs hspends _ ih =>
    have hstep := supply_apply_le hspends.sane hs height
    have hle := ih ((hs.eraseAll _).insertAll (newEntries_worth_nonneg hspends.sane height))
    rw [coinbaseOut_cons,feesOf,exact_cons,hspends.toInt_feeOf]
    split
    · rename_i hc
      have hin : valueIn s tx = 0 := by simp [valueIn,amountsIn,inputs,hc]
      omega
    · omega

theorem Connects.connectTransactions (h : Connects height s txs s') :
    UtxoSet.connectTransactions height s txs = .ok s' := by
  induction h with
  | nil s => rfl
  | @cons s s' tx txs hspends _ ih =>
    have hfound : ((inputs tx).all fun op => (s.lookup op).isSome) = true := by
      rw [all_eq_true]
      intro op hop
      obtain ⟨e,he,-⟩ := hspends.found op hop
      simp [he]
    simp only [UtxoSet.connectTransactions,UtxoSet.connectTransaction,hfound,↓reduceIte]
    exact ih

theorem Connects.fees_nonneg (h : Connects height s txs s') : ∀ f∈feesOf height s txs, 0 ≤ f.toInt := by
  induction h with
  | nil s => simp [feesOf]
  | @cons s s' tx txs hspends _ ih =>
    intro f hf
    rcases mem_cons.mp hf with rfl | hf
    · rw [hspends.toInt_feeOf]
      split
      · exact le_refl 0
      · rename_i hc
        have := hspends.covers (by simpa using hc)
        omega
    · exact ih f hf

end

end DogePeg.Node
