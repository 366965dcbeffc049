import DogePeg.Signer.Solvency

/-!
# The line goes on

Whatever a signer approves pays back to the set in one output, which is the next coin of the line for
every coin it spends (`lineage.next`): a release tops its inputs up, a payout its change, a cancellation
and a fence pay everything back but their fee.
-/

namespace DogePeg

open Amounts Checks List Int64 SignerView

variable {i : ℕ} {d : Deposit} {script : Script} {tx : MsgTx}

structure PaysBackOnce (script : Script) (tx : MsgTx) (i : ℕ) : Prop where
  pays : ∃ out, tx.txOut[i]? = some out ∧ out.pkScript = script ∧ pegDust ≤ out.value
  only : ∀ j out, tx.txOut[j]? = some out → out.pkScript = script → j = i

/-- What a cancellation of these coins needs, and what it pays back, are within an `int64`. -/
def Bridge.FeeFits (b : Bridge) (inputs : List Utxo) : Prop :=
  b.vmFee.toInt+pegDust.toInt < 2^63 ∧ exact (inputs.map (·.value))-b.vmFee.toInt < 2^63

theorem PaysBackOnce.congr {t u : MsgTx} (h : PaysBackOnce script t i)
    (htx : u.txOut=t.txOut) : PaysBackOnce script u i := ⟨htx ▸ h.pays,htx ▸ h.only⟩

section

variable [Hashing]

/-- The listed outputs hold what an output may. -/
def Nodes.MoneyRange (n : Nodes) : Prop :=
  ∀ t∈n.vm.txs++n.doge.txs, ∀ out∈t.tx.txOut, 0 ≤ out.value.toInt ∧ out.value.toInt ≤ 10^18

instance instDecidableNodesMoneyRange (n : Nodes) : Decidable n.MoneyRange :=
  inferInstanceAs (Decidable (∀ t∈n.vm.txs++n.doge.txs, ∀ out∈t.tx.txOut, _))

theorem Nodes.MoneyRange.vmUnspent {n : Nodes} (h : n.MoneyRange) (b : Bridge) :
    ∀ u∈b.vmUnspent n.vm.txs n.gettxout, u.InRange := by
  intro u hu
  obtain ⟨t,ht,hcoin⟩ := mem_flatMap.mp (mem_of_mem_filter hu)
  have hout : (⟨u.value,u.pkScript⟩ : TxOut)∈t.tx.txOut :=
    map_snd_outputs t.tx ▸ mem_map_of_mem (mem_coinsTo.mp hcoin).1
  exact h t (mem_append_left _ ht) _ hout

theorem Nodes.MoneyRange.allDeposits {n : Nodes} (h : n.MoneyRange) (b : Bridge)
    (hd : d∈b.allDeposits n.doge.txs) : 0 ≤ d.value.toInt ∧ d.value.toInt ≤ 10^18 := by
  obtain ⟨t,ht,hd⟩ := mem_flatMap.mp hd
  obtain ⟨p,hp,hd⟩ := mem_filterMap.mp hd
  have hout : p.2∈t.tx.txOut := map_snd_outputs t.tx ▸ mem_map_of_mem hp
  rw [(b.depositOf_eq hd).2.1]
  exact h t (mem_append_right _ ht) p.2 hout

/-! ## The next coin -/

theorem PaysBackOnce.lastOutputTo (h : PaysBackOnce script tx i) :
    lastOutputTo script tx = some (tx.outPoint i) := by
  obtain ⟨out,hi,hscript,-⟩ := h.pays
  have hmem : tx.outPoint i ∈ coinPoints script tx := mem_coinPoints.mpr ⟨out,tx.mem_outputs.mpr ⟨i,hi,rfl⟩,hscript⟩
  obtain ⟨last,hlast⟩ := lastOutputTo_isSome hmem
  obtain ⟨out',hout',hscript'⟩ := mem_coinPoints.mp (lastOutputTo_mem hlast)
  obtain ⟨j,hj,rfl⟩ := tx.mem_outputs.mp hout'
  rw [hlast,h.only j out' hj hscript']

/-- Once the transaction is in a block, the line goes from each of its inputs to that output. -/
theorem PaysBackOnce.next {rootDepth : ℤ} {txs : List ChainTx} {t : ChainTx}
    (h : PaysBackOnce script t.tx i) (ht : t∈inBlocks txs) {op : OutPoint} (hop : op∈t.tx.spends)
    (honce : ∀ u∈inBlocks txs, op∈u.tx.spends → u = t) :
    (newLineage txs script rootDepth).next op = .ok (some (t.tx.outPoint i)) := by
  rw [Lineage.next_ok_some]
  refine ⟨t,newLineage_spentBy_unique ht hop honce,?_⟩
  rw [newLineage_script,h.lastOutputTo]

/-! ## The builders -/

namespace Bridge

variable (b : Bridge) {version : Int32} {sequence : UInt32} {inputs : List Utxo} {value change : Int64}
  {data : List UInt8}

theorem paysBackOnce_change (hother : script≠b.script) (hdust : pegDust ≤ change) :
    PaysBackOnce b.script (newTx version sequence inputs ⟨value,script⟩ (some ⟨change,b.script⟩) data) 1 := by
  refine ⟨⟨_,rfl,rfl,hdust⟩,fun j out hj hscript => ?_⟩
  match j with
  | 0 =>
    cases hj
    exact absurd hscript hother
  | 1 => rfl
  | 2 =>
    cases hj
    exact absurd hscript (b.nullDataScript_ne_script data)
  | j+3 => cases hj

theorem paysBackOnce_self (hdust : pegDust≤value) :
    PaysBackOnce b.script (newTx version sequence inputs ⟨value,b.script⟩ none data) 0 := by
  refine ⟨⟨_,rfl,rfl,hdust⟩,fun j out hj hscript => ?_⟩
  match j with
  | 0 => rfl
  | 1 =>
    cases hj
    exact absurd hscript (b.nullDataScript_ne_script data)
  | j+2 => cases hj

omit [Hashing] in
theorem pegDust_le_payoutChange (change : Int64) : pegDust ≤ (payoutChange change).1 := by
  unfold payoutChange
  split
  · exact Int64.le_refl _
  · next h => exact Int64.not_lt.mp h

theorem buildPayout_paysBackOnce {dest : Destination} {fee : Int64}
    (h : b.buildPayout inputs value dest data fee = .ok tx) : PaysBackOnce b.script tx 1 := by
  obtain ⟨-,hdest,-,-,rfl⟩ := b.buildPayout_ok h
  exact b.paysBackOnce_change hdest (pegDust_le_payoutChange _)

theorem buildFence_paysBackOnce {chain : ChainName} {fee : Int64}
    (h : b.buildFence chain inputs fee = .ok tx) : PaysBackOnce b.script tx 0 := by
  unfold buildFence at h
  split at h
  · cases h
  · simp only [checks_ok,decide_eq_true_eq] at h
    obtain ⟨hdust,rfl⟩ := h
    exact b.paysBackOnce_self hdust

theorem buildRelease_paysBackOnce (hdest : d.destination.pkScript≠b.script)
    (h0 : 0≤d.value.toInt) (hmax : d.value.toInt≤10^18) (hcovered : d.value+pegDust ≤ inputsTotal inputs) :
    PaysBackOnce b.script (b.buildRelease inputs d) 1 := by
  have hdust : pegDust.toInt = 1000000 := by decide
  have hchange : pegDust ≤ inputsTotal inputs-d.value := by
    rw [le_iff_toInt_le,toInt_add_of_bounds (by omega) (by omega)] at hcovered
    rw [le_iff_toInt_le,toInt_sub_of_le h0 (by omega)]
    omega
  rw [buildRelease,if_pos (Int64.lt_of_lt_of_le (by decide) hchange)]
  exact b.paysBackOnce_change hdest hchange

/-- `total < need` sees no need that wraps, and a fee far below zero wraps what is paid back. -/
theorem buildCancel_paysBackOnce_iff {op : OutPoint} (hinputs : ∀ u∈inputs, 0 ≤ u.value.toInt)
    (hheld : exact (inputs.map (·.value))<2^63) (h : b.buildCancel inputs op = .ok tx) :
    (∃ i, PaysBackOnce b.script tx i) ↔ b.FeeFits inputs := by
  obtain ⟨-,hneed,-,rfl⟩ := b.buildCancel_ok h
  have hdust : pegDust.toInt = 1000000 := by decide
  have hvalues : ∀ w∈inputs.map (·.value), 0 ≤ w.toInt := forall_mem_map.mpr hinputs
  have htotal : (inputsTotal inputs).toInt = exact (inputs.map (·.value)) := toInt_total hvalues hheld
  have h0 := exact_nonneg hvalues
  have hlo := b.vmFee.le_toInt
  have hhi := b.vmFee.toInt_lt
  unfold FeeFits
  rw [← htotal] at h0 hheld ⊢
  constructor
  · rintro ⟨i,hback⟩
    obtain ⟨out,hout,-,hvalue⟩ := hback.pays
    obtain rfl : 0 = i := hback.only 0 _ rfl rfl
    cases hout
    rw [le_iff_toInt_le] at hvalue
    have hback : (inputsTotal inputs).toInt-b.vmFee.toInt < 2^63 := by
      by_contra hnot
      rw [toInt_sub,Int.bmod_def] at hvalue
      split at hvalue <;> omega
    rw [toInt_sub_of_bounds (by omega) hback] at hvalue
    exact ⟨by omega, hback⟩
  · rintro ⟨hfee,hback⟩
    rw [le_iff_toInt_le,toInt_add_of_bounds (by omega) hfee] at hneed
    refine ⟨0,b.paysBackOnce_self ?_⟩
    rw [le_iff_toInt_le,toInt_sub_of_bounds (by omega) hback]
    omega

end Bridge

/-! ## What a signer approves -/

namespace SignerView

variable {v : SignerView} {req : SignRequest} {log : SigningLog} {s : PegState} {draft : Draft}

theorem reserveUTXOs_inRange (hmoney : v.nodes.MoneyRange) : ∀ u∈v.state.reserveUTXOs, u.InRange :=
  fun u hu => hmoney.vmUnspent v.bridge u (mem_of_mem_filter hu)

theorem deposit_inRange (hmoney : v.nodes.MoneyRange) (hd : d∈v.state.deposits) :
    0 ≤ d.value.toInt ∧ d.value.toInt ≤ 10^18 :=
  hmoney.allDeposits v.bridge (mem_of_mem_filter (mem_of_mem_filter hd))

/-- If the request is a cancellation, the coins it spends fit the fee. -/
def CancelFits (v : SignerView) (req : SignRequest) : Prop :=
  ∀ op, req.action = .cancel op →
    ∀ inputs, pick req.tx v.state.reserveUTXOs = .ok inputs → v.bridge.FeeFits inputs

theorem Drafted.paysBackOnce_iff {key : ActionKey} (hmoney : v.nodes.MoneyRange)
    (hheld : ∀ inputs, pick req.tx v.state.reserveUTXOs = .ok inputs → exact (inputs.map (·.value)) < 2^63)
    (h : v.Drafted req log (v.stateFor log key) draft req.action) :
    (∃ i, PaysBackOnce v.bridge.script draft.want i) ↔ v.CancelFits req := by
  unfold CancelFits
  generalize haction : req.action = action at h
  cases h with
  | release h =>
    obtain ⟨h0,hmax⟩ := deposit_inRange hmoney h.deposit
    obtain ⟨hunsettled,hcredit⟩ := mem_filter.mp h.deposit
    have hdest := v.bridge.dest_ne_script (mem_of_mem_filter hunsettled) (Bool.and_eq_true_iff.mp hcredit).1
    exact iff_of_true ⟨1,h.want ▸ v.bridge.buildRelease_paysBackOnce hdest h0 hmax h.covered⟩ (by simp)
  | cancel h =>
    have hinputs := fun u hu => (reserveUTXOs_inRange hmoney u (h.picks.mem u hu)).1
    rw [v.bridge.buildCancel_paysBackOnce_iff hinputs (hheld _ h.picked) h.built]
    refine ⟨fun hfits op' _ inputs' hpick => ?_, fun hfits => hfits _ rfl _ h.picked⟩
    cases h.picked.symm.trans hpick
    exact hfits
  | fence h =>
    obtain ⟨hbuilt,-⟩ := nextFence_ok h.built
    exact iff_of_true ⟨0,h.want ▸ v.bridge.buildFence_paysBackOnce hbuilt⟩ (by simp)
  | payout _ h => exact iff_of_true ⟨1,v.bridge.buildPayout_paysBackOnce h.built⟩ (by simp)
  | refund _ h => exact iff_of_true ⟨1,v.bridge.buildPayout_paysBackOnce h.built⟩ (by simp)

end SignerView

/-- Of what a signer approves, for whatever action, exactly one output pays the set's script, with at
least `pegDust`, and wherever it is in a block of a history that spends each output once, the line
goes on from each of its inputs to that output: unless it is a cancellation whose fee wraps what it
needs or pays back. -/
theorem approved_keeps_line_iff (v : SignerView) (hmoney : v.nodes.MoneyRange) (req : SignRequest)
    (hheld : ∀ inputs, pick req.tx v.state.reserveUTXOs = .ok inputs → exact (inputs.map (·.value)) < 2^63)
    (st st' : Signer) (draft : Draft) (h : v.check req st=(.ok draft,st')) :
    (∃ i, PaysBackOnce v.bridge.script req.tx i ∧ ∀ txs rootDepth, ∀ t∈inBlocks txs, t.tx.unsigned = req.tx →
        (∀ u∈inBlocks txs, ∀ op∈t.tx.spends, op∈u.tx.spends → u = t) →
        ∀ op∈req.tx.spends, (newLineage txs v.bridge.script rootDepth).next op = .ok (some (t.tx.outPoint i))) ↔
      v.CancelFits req := by
  obtain ⟨gated,learnt,happroves⟩ := check_ok h
  obtain ⟨-,hdrafted⟩ := draft_ok happroves.drafted
  rw [← hdrafted.paysBackOnce_iff hmoney hheld,happroves.want]
  refine exists_congr fun i => and_iff_left_of_imp fun hi txs rootDepth t ht hsigned honce op hop => ?_
  have hspends : op∈t.tx.spends := by rwa [← hsigned,MsgTx.unsigned_spends] at hop
  have hout : t.tx.txOut = req.tx.txOut := by rw [← hsigned,MsgTx.unsigned_txOut]
  exact (hi.congr hout).next ht hspends fun u hu hmem => honce u hu op hspends hmem

end

section Sample

attribute [local instance] sampleHashing

/-- A release in a block: the line goes from the coin it spends to its change. -/
theorem mined_release_keeps_line :
    (newLineage [⟨sampleFunds,9,0⟩,minedRelease sampleCredit] sampleBridge.script 1).next sampleCoin.outPoint =
      .ok (some ((minedRelease sampleCredit).tx.outPoint 1)) := by
  have hcheck : (sampleView sampleBridge quietHistory).check (releaseRequest sampleCredit)
      (sampleSigner sampleAnchors) = (.ok (releaseDraft sampleCredit),_) := check_eq_ok (by decide +kernel)
  have hpick : (pick (releaseRequest sampleCredit).tx
      (sampleView sampleBridge quietHistory).state.reserveUTXOs).toOption = some [sampleCoin] := by decide +kernel
  obtain ⟨i,hback,hnext⟩ := (approved_keeps_line_iff (sampleView sampleBridge quietHistory) (by decide +kernel) _
    (fun inputs hinputs => by rw [hinputs] at hpick; cases hpick; decide) _ _ _ hcheck).mpr (by rintro op ⟨⟩)
  have hi : i = 1 := (hback.only 1 _ rfl rfl).symm
  subst hi
  exact hnext _ 1 (minedRelease sampleCredit) (by decide +kernel) (newTx_unsigned ..) (by decide +kernel) _
    (by decide +kernel)

/-- A fee to which `pegDust` cannot be added, and a set of two of three keys. -/
def wrappingBridge : Bridge := { sampleBridge with vmFee := Int64.maxValue,keys := 3,required := 2 }

def wrappingCancel : SignRequest :=
  ⟨some .dogecoinVM,.cancel sampleCredit.outPoint,newTx txVersion maxTxInSequenceNum [sampleCoin]
    ⟨2000000-Int64.maxValue,sampleBridge.script⟩ none (encodeCancel sampleCredit.outPoint),0⟩

/-- Under that fee a signer approves a cancellation whose one output to the set has a negative value. -/
theorem wrapping_cancel_pays_nothing_back : (sampleView wrappingBridge quietHistory).nodes.MoneyRange ∧
    (∃ draft st', (sampleView wrappingBridge quietHistory).check wrappingCancel (sampleSigner sampleAnchors) =
      (.ok draft,st')) ∧ ¬ ∃ i, PaysBackOnce wrappingBridge.script wrappingCancel.tx i := by
  refine ⟨by decide +kernel, ?_, ?_⟩
  · have hsome : (((sampleView wrappingBridge quietHistory).check wrappingCancel
        (sampleSigner sampleAnchors)).1.toOption).isSome = true := by decide +kernel
    obtain ⟨draft,hdraft⟩ := Option.isSome_iff_exists.mp hsome
    exact ⟨draft,_,check_eq_ok hdraft⟩
  · rintro ⟨i,hback⟩
    obtain ⟨out,hout,hscript,hdust⟩ := hback.pays
    have hi : i = 0 := (hback.only 0 _ rfl rfl).symm
    subst hi
    cases hout
    exact absurd hdust (by decide)

end Sample

end DogePeg
