import DogePeg.Node.Codec
import DogePeg.Signer.Approval
import DogePeg.Signer.Relay

/-!
# The size of a fence

`fenceSize` adds up what a fence takes once it is signed, each signature at its largest, and
`trimToSize` drops inputs until that is small enough to relay (`cmd/dogevm/cutover.go`). Both
are compared here with the bytes `assemble` and `btcd/wire` write.
-/

namespace DogePeg

open Amounts Bytes Checks Node Readers List

variable {fee : Int64} {n : ℕ}

/-! ## What the wire takes -/

theorem length_varIntBytes (h : n≤0xffffffff) : (varIntBytes n).length = varIntLen n := by
  unfold varIntBytes varIntLen
  split_ifs
  · rfl
  · rw [length_cons,length_leBytes]
  · rw [length_cons,length_leBytes]

theorem TxIn.length_bytes (i : TxIn) :
    i.bytes.length = 40+(varIntBytes i.signatureScript.length).length+i.signatureScript.length := by
  simp only [TxIn.bytes,OutPoint.bytes,length_append,length_leBytes,length_toBytes]
  omega

theorem TxOut.length_bytes (o : TxOut) :
    o.bytes.length = 8+(varIntBytes o.pkScript.length).length+o.pkScript.length := by
  simp only [TxOut.bytes,length_append,length_leBytes]

theorem MsgTx.length_bytes {tx : MsgTx} (h : ∀ i∈tx.txIn, i.witness = []) :
    tx.bytes.length = 8+(varIntBytes tx.txIn.length).length+(varIntBytes tx.txOut.length).length +
      (tx.txIn.map fun i => i.bytes.length).sum+(tx.txOut.map fun o => o.bytes.length).sum := by
  have hnone : ¬ hasWitness tx = true := by
    simpa [hasWitness] using h
  rw [MsgTx.bytes,if_neg hnone]
  simp only [MsgTx.bytesNoWitness,length_append,length_leBytes,length_flatMap]
  omega

def inputBytes (script : Script) : ℕ := 40+(varIntBytes script.length).length+script.length

theorem MsgTx.length_bytes_withScripts {tx : MsgTx} {scripts : List Script} (h : ∀ i∈tx.txIn, i.witness = [])
    (hscripts : scripts.length=tx.txIn.length) :
    (tx.withScripts scripts).bytes.length = 8+(varIntBytes tx.txIn.length).length +
      (varIntBytes tx.txOut.length).length+(scripts.map inputBytes).sum +
      (tx.txOut.map fun o => o.bytes.length).sum := by
  have hfill : ∀ (ins : List TxIn) (scripts : List Script), (∀ i∈ins, i.witness = []) → scripts.length = ins.length →
      (∀ i∈ins.zipWith (fun i script => { i with signatureScript := script }) scripts, i.witness = []) ∧
      (ins.zipWith (fun i script => { i with signatureScript := script }) scripts).map (fun i => i.bytes.length) =
        scripts.map inputBytes := by
    intro ins
    induction ins with
    | nil => simp
    | cons i ins ih =>
      intro scripts hwit hlen
      cases scripts with
      | nil => simp at hlen
      | cons script scripts =>
        obtain ⟨hnone,hsizes⟩ := ih scripts (fun j hj => hwit j (mem_cons_of_mem _ hj)) (by simpa using hlen)
        rw [zipWith_cons_cons,map_cons,hsizes,TxIn.length_bytes]
        refine ⟨?_,rfl⟩
        intro j hj
        rcases mem_cons.mp hj with rfl | hj
        · exact hwit i (mem_cons_self ..)
        · exact hnone j hj
  obtain ⟨hnone,hsizes⟩ := hfill tx.txIn scripts h hscripts
  rw [MsgTx.length_bytes hnone]
  simp only [MsgTx.withScripts,hsizes,length_zipWith,hscripts,Nat.min_self]

theorem length_addData {data : List UInt8} (hlo : 2≤data.length) (hhi : data.length<0x4c) :
    (addData data).length = data.length+1 := by
  match data with
  | a::b::rest =>
    simp only [addData]
    rw [if_pos hhi,length_cons]

/-! ## What a signed fence takes -/

theorem inputBytes_le_fenceInputSize {required : ℕ} (hrequired : required≤15) {redeem script : Script}
    (hredeem : redeem.length≤520) (h : script.length≤fenceScriptSize required redeem) :
    inputBytes script ≤ fenceInputSize required redeem := by
  have hsize : fenceInputSize required redeem =
      36+varIntLen (fenceScriptSize required redeem)+fenceScriptSize required redeem+4 := rfl
  have hpush : pushLen redeem.length ≤ 3 := by
    unfold pushLen
    split_ifs <;> omega
  have hmost : fenceScriptSize required redeem ≤ 0xffffffff := by
    unfold fenceScriptSize
    omega
  have hvar := varIntLen_mono h
  rw [inputBytes,length_varIntBytes (h.trans hmost),hsize]
  omega

section

variable [Hashing] {b : Bridge}

theorem exists_newTx_of_buildFence {chain : ChainName} {inputs : List Utxo} {tx : MsgTx}
    (h : b.buildFence chain inputs fee = .ok tx) : ∃ first sequence, inputs.head? = some first ∧
      tx = newTx txVersion sequence inputs ⟨inputsTotal inputs-fee,b.script⟩ none (encodeFence first.outPoint) := by
  unfold Bridge.buildFence at h
  split at h
  · cases h
  · next first rest =>
    simp only [checks_ok] at h
    exact ⟨first,_,rfl,h.2.symm⟩

theorem size_txOut_of_buildFence {chain : ChainName} {inputs : List Utxo} {tx : MsgTx}
    (h : b.buildFence chain inputs fee = .ok tx) :
    tx.txOut.length = 2 ∧ (tx.txOut.map fun o => o.bytes.length).sum = 32+51 := by
  obtain ⟨first,sequence,-,rfl⟩ := exists_newTx_of_buildFence h
  have hscript : b.script.length = 23 := length_p2shScript b.redeemScript
  have htag : (nullData (encodeFence first.outPoint)).pkScript.length = 42 := by
    have hdata : (encodeFence first.outPoint).length = 40 := length_encodeOutPointTag ..
    rw [nullData,nullDataScript,length_cons,length_addData (by omega) (by omega),hdata]
  refine ⟨rfl,?_⟩
  simp only [newTx_txOut,Option.toList_none,nil_append,map_cons,map_nil,sum_cons,
    sum_nil,TxOut.length_bytes,hscript,htag]
  rfl

section

variable [Signing] {s : SignerSet} {tx signed : MsgTx} {redeems : List Script} {sigs : ℕ → Option (List (List UInt8))}

theorem length_bytes_le_fenceSize {chain : ChainName} {inputs : List Utxo}
    (hlen : inputs.length≤0xffffffff) (hrequired : s.required.toNat≤15)
    (hbuilt : b.buildFence chain inputs fee = .ok tx) (hsigs : ∀ i l, sigs i = some l → ∀ raw∈l, raw.length ≤ 73)
    (h : s.assemble tx redeems sigs = .ok signed) : signed.bytes.length ≤ fenceSize redeems s.required.toNat := by
  obtain ⟨hcount,houts⟩ := size_txOut_of_buildFence hbuilt
  obtain ⟨first,sequence,-,rfl⟩ := exists_newTx_of_buildFence hbuilt
  simp only [SignerSet.assemble,checks_ok,decide_eq_true_eq] at h
  obtain ⟨hredeems,-,scripts,hscripts,rfl⟩ := h
  have hall := forall₂_of_mapM_ok hscripts
  have hscriptsLen : scripts.length = redeems.length := by rw [← hall.length_eq,length_zipIdx]
  -- input by input, in the order of the redeem scripts
  have hinputs : (scripts.map inputBytes).sum ≤ (redeems.map (fenceInputSize s.required.toNat)).sum := by
    have hredeemsEq : redeems = redeems.zipIdx.map Prod.fst := by rw [zipIdx_map_fst]
    rw [hredeemsEq,map_map]
    apply List.Forall₂.sum_le_sum
    rw [forall₂_map_left_iff,forall₂_map_right_iff]
    refine hall.flip.imp ?_
    intro script p hp
    obtain ⟨hredeem,hscript⟩ := length_inputScript_le hsigs hp
    exact inputBytes_le_fenceInputSize hrequired hredeem hscript
  have hins : (newTx txVersion sequence inputs ⟨inputsTotal inputs-fee,b.script⟩ none
      (encodeFence first.outPoint)).txIn.length = inputs.length := by simp [newTx]
  rw [MsgTx.length_bytes_withScripts (by simp [newTx]) (hscriptsLen.trans hredeems),hcount,houts,hins,
    length_varIntBytes hlen,fenceSize,hredeems,hins]
  change 8+_+1+_+83 ≤ _
  omega

end

end

/-! ## Dropping inputs -/

section

variable {size : List Utxo → Except Refusal ℕ} {inputs kept : List Utxo}

theorem length_take_shrink (bytes : ℕ) (h : ¬ inputs.length≤1) :
    1 ≤ (inputs.take (max 1 (min (inputs.length*maxFenceBytes / bytes) (inputs.length-1)))).length ∧
      (inputs.take (max 1 (min (inputs.length*maxFenceBytes / bytes) (inputs.length-1)))).length <
        inputs.length := by
  rw [length_take]
  omega

theorem trimToSize_ne_nil (hne : inputs≠[]) (h : trimToSize size n inputs = .ok kept) : kept ≠ [] := by
  induction n generalizing inputs with
  | zero =>
    cases h
    exact hne
  | succ n ih =>
    rw [trimToSize] at h
    split at h
    · cases h
      exact hne
    · next hlen =>
      obtain ⟨bytes,-,h⟩ := bind_eq_ok.mp h
      split at h
      · cases h
        exact hne
      · exact ih (ne_nil_of_length_pos (length_take_shrink bytes hlen).1) h

theorem trimToSize_small (hn : inputs.length≤n) (h : trimToSize size n inputs = .ok kept) :
    kept.length ≤ 1 ∨ ∃ bytes ≤ maxFenceBytes, size kept = .ok bytes := by
  induction n generalizing inputs with
  | zero =>
    cases h
    exact .inl (hn.trans zero_le_one)
  | succ n ih =>
    rw [trimToSize] at h
    split at h
    · next hlen =>
      cases h
      exact .inl hlen
    · next hlen =>
      obtain ⟨bytes,hbytes,h⟩ := bind_eq_ok.mp h
      split at h
      · next hsmall =>
        cases h
        exact .inr ⟨bytes,hsmall,hbytes⟩
      · exact ih (by have := (length_take_shrink bytes hlen).2; omega) h

theorem trimToSize_fuel (hn : inputs.length≤n) : trimToSize size n inputs = trimToSize size (n+1) inputs := by
  induction n generalizing inputs with
  | zero => rw [trimToSize,trimToSize,if_pos (hn.trans zero_le_one)]
  | succ n ih =>
    rw [trimToSize,trimToSize]
    split
    · rfl
    · next hlen =>
      refine bind_congr fun bytes => ?_
      split
      · rfl
      · exact ih (by have := (length_take_shrink bytes hlen).2; omega)

theorem trimToSize_eq (hn : inputs.length≤n) : trimToSize size n inputs = trimToSize size inputs.length inputs := by
  induction n, hn using Nat.le_induction with
  | base => rfl
  | succ n hn ih => rw [← trimToSize_fuel hn,ih]

theorem exists_trimToSize (hsize : ∀ l, l <+: inputs → ∃ bytes, size l = .ok bytes) (n : ℕ) :
    ∃ kept, trimToSize size n inputs = .ok kept := by
  induction n generalizing inputs with
  | zero => exact ⟨inputs,rfl⟩
  | succ n ih =>
    rw [trimToSize]
    split
    · exact ⟨inputs,rfl⟩
    · obtain ⟨bytes,hbytes⟩ := hsize inputs prefix_rfl
      rw [hbytes]
      change ∃ kept, (if bytes ≤ maxFenceBytes then Except.ok inputs else _) = _
      split
      · exact ⟨inputs,rfl⟩
      · exact ih fun l hl => hsize l (hl.trans ( take_prefix ..))

end

section

variable [Hashing] {b : Bridge} {chain : ChainName} {inputs : List Utxo}

theorem exists_fenceSizeOf {redeems : List Script} (h : b.fenceRedeems chain inputs = .ok redeems) {l : List Utxo}
    (hl : l <+: inputs) : ∃ bytes, b.fenceSizeOf chain l = .ok bytes := by
  have hparts : ∃ parts, b.fenceRedeems chain l = .ok parts := by
    cases chain with
    | dogecoinVM => exact ⟨_,rfl⟩
    | dogecoin =>
      obtain ⟨parts,hparts,-⟩ := exists_mapM_ok (P := fun _ _ => True) fun u hu => by
        obtain ⟨redeem,-,hredeem⟩ := mem_of_mapM_ok h u (hl.subset hu)
        exact ⟨redeem,hredeem,trivial⟩
      exact ⟨parts,hparts⟩
  obtain ⟨parts,hparts⟩ := hparts
  exact ⟨_,bind_eq_ok.mpr ⟨parts,hparts,rfl⟩⟩

theorem nextFence_new {s : PegState} {recorded : List OutPoint} {now : ℤ} {fence : Bridge.BuiltFence}
    (hnone : (s.fenceState b chain recorded).1=none) (h : b.nextFence s chain recorded now = .ok fence) :
    ∃ all, s.fenceInputs chain recorded = .ok all ∧ trimToSize (b.fenceSizeOf chain) all.length all = .ok fence.inputs ∧
      (fence.inputs.any fun u => u.outPoint ∈ recorded) = true ∧
      b.buildFence chain fence.inputs fence.fee = .ok fence.tx := by
  unfold Bridge.nextFence at h
  split at h
  · next pending _ hstate =>
    rw [hstate] at hnone
    cases hnone
  · simp only [Bridge.fenceOf,checks_ok] at h
    obtain ⟨-,all,hall,inputs,htrim,hrecorded,size,-,tx,htx,rfl⟩ := h
    exact ⟨all,hall,htrim,hrecorded,htx⟩

omit [Hashing] in
theorem length_fenceInputs_le {s : PegState} {recorded : List OutPoint}
    (h : s.fenceInputs chain recorded = .ok inputs) : inputs.length ≤ 400 := by
  simp only [PegState.fenceInputs,checks_ok] at h
  obtain ⟨order,-,-,rfl⟩ := h
  refine (length_take_le ..).trans ?_
  cases chain <;> decide

omit [Hashing] in
theorem fenceSize_singleton_le {required : ℕ} (hrequired : required≤15) {redeem : Script}
    (hredeem : redeem.length≤520) : fenceSize [redeem] required ≤ maxFenceBytes := by
  have hpush : pushLen redeem.length ≤ 3 := by
    unfold pushLen
    split_ifs <;> omega
  have hvar : ∀ n, varIntLen n ≤ 5 := by
    intro n
    unfold varIntLen
    split_ifs <;> omega
  have hscript := hvar (1+required*(1+73)+pushLen redeem.length+redeem.length)
  have hcount := hvar [redeem].length
  simp only [fenceSize,fenceInputSize,map_cons,map_nil,sum_cons,sum_nil,maxFenceBytes]
  omega

variable [Signing]

omit [Hashing] in
theorem redeems_of_assemble {s : SignerSet} {tx signed : MsgTx} {redeems : List Script}
    {sigs : ℕ → Option (List (List UInt8))} (h : s.assemble tx redeems sigs = .ok signed) :
    redeems.length = tx.txIn.length ∧ ∀ redeem∈redeems, redeem.length ≤ 520 := by
  simp only [SignerSet.assemble,checks_ok,decide_eq_true_eq] at h
  obtain ⟨hcount,-,scripts,hscripts,-⟩ := h
  refine ⟨hcount,fun redeem hmem => ?_⟩
  obtain ⟨j,hj⟩ := List.getElem?_of_mem hmem
  obtain ⟨script,-,hscript⟩ := mem_of_mapM_ok hscripts (redeem,j) (mem_zipIdx_iff_getElem?.mpr hj)
  simp only [SignerSet.inputScript,checks_ok] at hscript
  obtain ⟨raws,-,hscript⟩ := hscript
  exact length_le_of_signatureScript hscript

/-- The size of a fence. Signed, it takes no more than `fenceSize`, if the number of its inputs
fits in four bytes. `trimToSize` ends with inputs that are small enough, or with one. And so a
new fence takes no more than `maxFenceBytes`. -/
theorem fence_size_bound (b : Bridge) (s : SignerSet) (hset : b.required=s.required.toNat)
    (hrequired : s.required≤15) : (∀ chain inputs fee tx redeems sigs signed, inputs.length ≤ 0xffffffff →
      b.buildFence chain inputs fee = .ok tx → (∀ i l, sigs i = some l → ∀ raw∈l, raw.length ≤ 73) →
      s.assemble tx redeems sigs = .ok signed → signed.bytes.length ≤ fenceSize redeems b.required) ∧
    (∀ chain inputs redeems, inputs ≠ [] → b.fenceRedeems chain inputs = .ok redeems →
      ∃ kept, (∀ n, inputs.length ≤ n → trimToSize (b.fenceSizeOf chain) n inputs = .ok kept) ∧
        kept <+: inputs ∧ kept ≠ [] ∧
        (kept.length = 1 ∨ ∃ bytes ≤ maxFenceBytes, b.fenceSizeOf chain kept = .ok bytes)) ∧
    (∀ st chain recorded now fence redeems sigs signed, (st.fenceState b chain recorded).1 = none →
      b.nextFence st chain recorded now = .ok fence → b.fenceRedeems chain fence.inputs = .ok redeems →
      (∀ i l, sigs i = some l → ∀ raw∈l, raw.length ≤ 73) → s.assemble fence.tx redeems sigs = .ok signed →
      signed.bytes.length ≤ maxFenceBytes) := by
  have hnat : s.required.toNat ≤ 15 := by omega
  refine ⟨?_,?_,?_⟩
  · intro chain inputs fee tx redeems sigs signed hlen hbuilt hsigs hsigned
    rw [hset]
    exact length_bytes_le_fenceSize hlen hnat hbuilt hsigs hsigned
  · intro chain inputs redeems hne hredeems
    obtain ⟨kept,hkept⟩ := exists_trimToSize (fun l hl => exists_fenceSizeOf hredeems hl) inputs.length
    have hnonempty := trimToSize_ne_nil hne hkept
    refine ⟨kept,fun n hn => (trimToSize_eq hn).trans hkept, prefix_of_trimToSize hkept, hnonempty, ?_⟩
    refine (trimToSize_small le_rfl hkept).imp_left fun hone => ?_
    exact le_antisymm hone (length_pos_of_ne_nil hnonempty)
  · intro st chain recorded now fence redeems sigs signed hnone hnext hredeems hsigs hsigned
    obtain ⟨all,hall,htrim,-,hbuilt⟩ := nextFence_new hnone hnext
    have hlen := (prefix_of_trimToSize htrim).length_le.trans (length_fenceInputs_le hall)
    refine (length_bytes_le_fenceSize (hlen.trans (by decide)) hnat hbuilt hsigs hsigned).trans ?_
    rcases trimToSize_small le_rfl htrim with hone | ⟨bytes,hsmall,hbytes⟩
    · obtain ⟨hcount,hshort⟩ := redeems_of_assemble hsigned
      obtain ⟨first,sequence,hfirst,htx⟩ := exists_newTx_of_buildFence hbuilt
      have hlength : redeems.length = 1 := by
        have hpos := length_pos_of_ne_nil (ne_nil_of_mem (mem_of_head? hfirst))
        rw [hcount,htx]
        simp only [newTx,length_map]
        omega
      obtain ⟨redeem,rfl⟩ := length_eq_one_iff.mp hlength
      exact fenceSize_singleton_le hnat (hshort redeem (mem_singleton_self redeem))
    · obtain ⟨parts,hparts,hsize⟩ := bind_eq_ok.mp hbytes
      cases hparts.symm.trans hredeems
      rw [← hset,pure_eq_ok.mp hsize]
      exact hsmall

end

section Sample

attribute [local instance] sampleHashing sampleSigning

/-- The coins of two deposits, in one fence. -/
theorem two_deposits_fenced : ∃ s, newSignerSet 2 3 sampleSecrets = .ok s ∧ ∃ st fence redeems signed,
      st = s.defaultBridge.load (depositNodes s.defaultBridge 2 (by decide)) ∧
      s.defaultBridge.nextFence st .dogecoin (st.lockedUTXOs.map (·.outPoint)) 0 = .ok fence ∧
      fence.tx.txIn.length = 2 ∧ s.assemble fence.tx redeems (longSignatures 2) = .ok signed ∧
      signed.bytes.length ≤ maxFenceBytes := by
  obtain ⟨s,hs,hcheck⟩ := exists_ok_of_any (x := newSignerSet 2 3 sampleSecrets) (p := fun s =>
      let b := s.defaultBridge
      let st := b.load (depositNodes b 2 (by decide))
      let recorded := st.lockedUTXOs.map (·.outPoint)
      s.required = 2 && (st.fenceState b .dogecoin recorded).1.isNone &&
      (b.nextFence st .dogecoin recorded 0).toOption.any fun fence => fence.tx.txIn.length = 2 &&
        (b.fenceRedeems .dogecoin fence.inputs).toOption.any fun redeems =>
          (s.assemble fence.tx redeems (longSignatures 2)).toOption.any fun _ => true)
    (by decide +kernel)
  simp only [Bool.and_eq_true,decide_eq_true_eq,Option.isNone_iff_eq_none] at hcheck
  obtain ⟨⟨hrequired,hnone⟩,hnext⟩ := hcheck
  obtain ⟨fence,hfence,hbuilt⟩ := exists_ok_of_any hnext
  simp only [Bool.and_eq_true,decide_eq_true_eq] at hbuilt
  obtain ⟨hcount,hredeems⟩ := hbuilt
  obtain ⟨redeems,hredeems,hassemble⟩ := exists_ok_of_any hredeems
  obtain ⟨signed,hsigned,-⟩ := exists_ok_of_any hassemble
  exact ⟨s,hs,_,fence,redeems,signed,rfl,hfence,hcount,hsigned,
    (fence_size_bound s.defaultBridge s (by rw [hrequired]; rfl) (by omega)).2.2 _ _ _ _ _ _ _ _ hnone
      hfence hredeems (longSignatures_le 2) hsigned⟩

end Sample

end DogePeg
