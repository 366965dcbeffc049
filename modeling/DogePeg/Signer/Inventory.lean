import DogePeg.Signer.FenceTip

/-!
# What the fences will cost

Before a cutover the inventory prices the fences it will take (`fenceBudget` in
`cmd/dogevm/inventory.go`): it builds them one after the other, as `nextFence` would. The hashes are not
those of the fences to come; the sizes, the fees and the change depend on values and scripts alone.
-/

namespace DogePeg

open Amounts Bytes Checks List PegState Bridge

variable {inputs : List Utxo} {script : Script}

/-! ## The budget -/

/-- Why `fenceBudget` finds the fences of a chain infeasible. -/
inductive Infeasible where
  | order (why : Refusal)
  | noRoom
  | fence (number : ℕ) (why : BuildError)

/-- Where the loop of `fenceBudget` stops before the coins run out. -/
inductive FenceStop where
  | noRoom
  | build (why : BuildError)

section

variable [Hashing]

namespace Bridge

variable (b : Bridge) (chain : ChainName)

/-- The change the next batch starts with. -/
def carryOf (tx : MsgTx) : Option Utxo :=
  tx.txOut.head?.map fun out => ⟨tx.outPoint 0,out.value,out.pkScript,1⟩

/-- The loop of `fenceBudget`: the fee of each batch, and why it stopped. Each round takes a coin
at least, so the number of the coins is fuel enough. -/
def priceFences : ℕ → Option Utxo → List Utxo → Except Refusal (List Int64 × Option FenceStop)
  | 0, _, _ => .ok ([],none)
  | n+1, carry, coins =>
    if coins = [] then .ok ([],none)
    else do
      let all := carry.toList++coins.take (maxFenceInputs chain-carry.toList.length)
      let batch ← trimToSize (b.fenceSizeOf chain) all.length all
      let used := batch.length-carry.toList.length
      if used = 0 then return ([],some .noRoom)
      else
        let size ← b.fenceSizeOf chain batch
        let fee := fenceFee chain (b.fenceBase chain) size
        match b.buildFence chain batch fee with
        | .error why => return ([],some (.build why))
        | .ok tx =>
          let (fees,stop) ← priceFences n (carryOf tx) (coins.drop used)
          return (fee::fees,stop)

end Bridge

/-- What `fenceBudget` returns: the fee of every batch stands for their total, their number and
the costliest one. -/
structure FenceBudget where
  each : List Int64
  infeasible : Option Infeasible

namespace FenceBudget

def fees (w : FenceBudget) : Int64 := total w.each

def batches (w : FenceBudget) : ℕ := w.each.length

def costliest (w : FenceBudget) : Int64 := w.each.foldl max 0

end FenceBudget

/-- The problem the inventory lists, for a loop that stopped after the fees. -/
def FenceStop.problem (fees : List Int64) : FenceStop → Infeasible
  | .noRoom => .noRoom
  | .build why => .fence (fees.length+1) why

def Bridge.fenceBudget (b : Bridge) (s : PegState) (chain : ChainName) : Except Refusal FenceBudget :=
  match s.fenceOrder chain with
  | .error why => .ok ⟨[],some (.order why)⟩
  | .ok coins => do
    let (fees,stop) ← b.priceFences chain coins.length none coins
    return ⟨fees,stop.map (FenceStop.problem fees)⟩

/-! ## Batches -/

/-- What a fee and a size depend on. -/
def Utxo.shape (u : Utxo) : Int64 × Script := (u.value,u.pkScript)

/-- The first fence of the coins in an order: what `trimToSize` keeps of them, and its fee. -/
structure Batch (b : Bridge) (chain : ChainName) (order batch : List Utxo) (fee : Int64) : Prop where
  trim : trimToSize (b.fenceSizeOf chain) (order.take (maxFenceInputs chain)).length
    (order.take (maxFenceInputs chain)) = .ok batch
  size : ∃ size, b.fenceSizeOf chain batch = .ok size ∧ fee = fenceFee chain (b.fenceBase chain) size

section Batches

variable {b : Bridge} {chain : ChainName} {order order' batch : List Utxo} {fee : Int64} {carry : Option Utxo}
  {coins : List Utxo} {n : ℕ}

theorem fenceRedeems_doge {redeems : List Script} : b.fenceRedeems .dogecoin inputs = .ok redeems ↔
      inputs.map (fun u => b.redeemFor u.pkScript) = redeems.map some := by
  constructor
  · intro h
    have hall := (forall₂_of_mapM_ok h).imp fun _ _ hu => found_eq_ok.mp hu
    rw [← forall₂_eq_eq_eq,forall₂_map_left_iff,forall₂_map_right_iff]
    exact hall
  · intro h
    rw [← forall₂_eq_eq_eq,forall₂_map_left_iff,forall₂_map_right_iff] at h
    exact mapM_eq_ok (h.imp fun _ _ hu => found_eq_ok.mpr hu)

theorem fenceSizeOf_congr {inputs' : List Utxo} (hshape : inputs'.map Utxo.shape=inputs.map Utxo.shape)
    {size : ℕ} (h : b.fenceSizeOf chain inputs = .ok size) : b.fenceSizeOf chain inputs' = .ok size := by
  obtain ⟨redeems,hredeems,hsize⟩ := bind_eq_ok.mp h
  refine bind_eq_ok.mpr ⟨redeems,?_,hsize⟩
  cases chain with
  | dogecoinVM =>
    have hlen : inputs'.length = inputs.length := by simpa using congrArg List.length hshape
    rw [← hredeems]
    simp only [fenceRedeems,map_const',hlen]
  | dogecoin =>
    have hscripts := congrArg (List.map fun p : Int64 × Script => b.redeemFor p.2) hshape
    rw [map_map,map_map] at hscripts
    exact fenceRedeems_doge.mpr (hscripts.trans (fenceRedeems_doge.mp hredeems))

omit [Hashing] in
theorem trimToSize_congr {size : List Utxo → Except Refusal ℕ} {α : Type} {f : Utxo → α}
    (hsize : ∀ l l' : List Utxo, l'.map f = l.map f → ∀ bytes, size l = .ok bytes → size l' = .ok bytes)
    {inputs' kept : List Utxo} (hshape : inputs'.map f=inputs.map f) (h : trimToSize size n inputs = .ok kept) :
    ∃ kept', trimToSize size n inputs' = .ok kept' ∧ kept'.map f = kept.map f := by
  induction n generalizing inputs inputs' with
  | zero =>
    cases h
    exact ⟨inputs',rfl,hshape⟩
  | succ n ih =>
    have hlen : inputs'.length = inputs.length := by simpa using congrArg List.length hshape
    rw [trimToSize] at h
    rw [trimToSize,hlen]
    split at h
    · next hone =>
      cases h
      exact ⟨inputs',if_pos hone,hshape⟩
    · next hone =>
      obtain ⟨bytes,hbytes,h⟩ := bind_eq_ok.mp h
      rw [if_neg hone,hsize inputs inputs' hshape bytes hbytes]
      change ∃ kept', (if bytes ≤ maxFenceBytes then Except.ok inputs' else _) = _ ∧ _
      split at h
      · next hsmall =>
        cases h
        exact ⟨inputs',if_pos hsmall,hshape⟩
      · next hsmall =>
        rw [if_neg hsmall]
        exact ih (by rw [map_take,map_take,hshape]) h

theorem Batch.congr (h : Batch b chain order batch fee) (hshape : order'.map Utxo.shape=order.map Utxo.shape) :
    ∃ batch', Batch b chain order' batch' fee ∧ batch'.map Utxo.shape = batch.map Utxo.shape := by
  obtain ⟨htrim,size,hsize,hfee⟩ := h
  have htake : (order'.take (maxFenceInputs chain)).map Utxo.shape =
      (order.take (maxFenceInputs chain)).map Utxo.shape := by rw [map_take,map_take,hshape]
  have hlen : (order'.take (maxFenceInputs chain)).length =
      (order.take (maxFenceInputs chain)).length := by simpa using congrArg List.length htake
  obtain ⟨batch',htrim',hbatch⟩ := trimToSize_congr (fun _ _ heq _ hbytes => fenceSizeOf_congr heq hbytes) htake htrim
  rw [← hlen] at htrim'
  exact ⟨batch',⟨htrim',size,fenceSizeOf_congr hbatch hsize,hfee⟩,hbatch⟩

theorem exists_batch (chain : ChainName) (h : ∀ u∈order, b.watches u.pkScript = true) :
    ∃ batch fee, Batch b chain order batch fee := by
  have hredeems : ∃ redeems, b.fenceRedeems chain (order.take (maxFenceInputs chain)) = .ok redeems := by
    cases chain with
    | dogecoinVM => exact ⟨_,rfl⟩
    | dogecoin =>
      obtain ⟨redeems,hredeems,-⟩ := exists_mapM_ok (P := fun _ _ => True)
        (f := fun u : Utxo => found (b.redeemFor u.pkScript) (Refusal.noRedeem u.outPoint)) fun u hu => by
          obtain ⟨redeem,hredeem⟩ := Option.isSome_iff_exists.mp (h u (mem_of_mem_take hu))
          exact ⟨redeem,found_eq_ok.mpr hredeem,trivial⟩
      exact ⟨redeems,hredeems⟩
  obtain ⟨redeems,hredeems⟩ := hredeems
  obtain ⟨batch,htrim⟩ := exists_trimToSize (fun l hl => exists_fenceSizeOf hredeems hl)
    (order.take (maxFenceInputs chain)).length
  obtain ⟨size,hsize⟩ := exists_fenceSizeOf hredeems (prefix_of_trimToSize htrim)
  exact ⟨batch,_,htrim,size,hsize,rfl⟩

theorem Batch.isPrefix (h : Batch b chain order batch fee) : batch <+: order :=
  (prefix_of_trimToSize h.trim).trans ( take_prefix ..)

theorem Batch.ne_nil (h : Batch b chain order batch fee) (hne : order≠[]) : batch ≠ [] := by
  refine trimToSize_ne_nil ?_ h.trim
  have hpos := length_pos_of_ne_nil hne
  have hmax : 0 < maxFenceInputs chain := by cases chain <;> decide
  refine ne_nil_of_length_pos ?_
  rw [length_take]
  omega

end Batches

/-! ## One round -/

section Rounds

variable {b : Bridge} {chain : ChainName} {s : PegState} {recorded : List OutPoint} {now : ℤ}
  {order batch batch' coins : List Utxo} {carry : Option Utxo} {fee : Int64}

omit [Hashing] in
theorem inputsTotal_congr (h : batch'.map Utxo.shape=batch.map Utxo.shape) :
    inputsTotal batch' = inputsTotal batch := by
  have hvalues := congrArg (List.map Prod.fst) h
  rw [map_map,map_map] at hvalues
  exact congrArg total hvalues

theorem buildFence_of_le (hne : batch≠[]) (h : pegDust ≤ inputsTotal batch-fee) :
    ∃ tx, b.buildFence chain batch fee = .ok tx ∧ tx.txOut.head? = some ⟨inputsTotal batch-fee,b.script⟩ := by
  obtain ⟨first,rest,rfl⟩ := exists_cons_of_ne_nil hne
  exact ⟨_,bind_eq_ok.mpr ⟨(),ensure_eq_ok.mpr (decide_eq_true h),rfl⟩,rfl⟩

theorem buildFence_of_not_le (hne : batch≠[]) (h : ¬ pegDust ≤ inputsTotal batch-fee) :
    b.buildFence chain batch fee = .error (.inputsHold (inputsTotal batch) fee) := by
  obtain ⟨first,rest,rfl⟩ := exists_cons_of_ne_nil hne
  simp only [buildFence,ensure,decide_eq_false h]
  rfl

theorem priceFences_round {n : ℕ} (hcoins : coins≠[]) (h : Batch b chain (carry.toList++coins) batch fee)
    (hused : carry.toList.length<batch.length) : b.priceFences chain (n+1) carry coins =
      match b.buildFence chain batch fee with
      | .error why => .ok ([],some (.build why))
      | .ok tx => (b.priceFences chain n (carryOf tx) (coins.drop (batch.length-carry.toList.length))).map
          fun r => (fee::r.1,r.2) := by
  obtain ⟨htrim,size,hsize,rfl⟩ := h
  have hall : (carry.toList++coins).take (maxFenceInputs chain) =
      carry.toList++coins.take (maxFenceInputs chain-carry.toList.length) := by
    rw [take_append,take_of_length_le]
    refine (Option.length_toList_le ..).trans ?_
    cases chain <;> decide
  rw [hall] at htrim
  rw [priceFences,if_neg hcoins]
  simp only [htrim,hsize,bind,Except.bind]
  rw [if_neg (by omega)]
  cases b.buildFence chain batch (fenceFee chain (b.fenceBase chain) size) with
  | error why => rfl
  | ok tx =>
    dsimp only
    cases b.priceFences chain n (carryOf tx) (coins.drop (batch.length-carry.toList.length)) with
    | error why => rfl
    | ok r => rfl

theorem nextFence_of_batch (hstate : s.fenceState b chain recorded=(none,false))
    (horder : s.fenceOrder chain = .ok order) (h : Batch b chain order batch fee)
    (hrecorded : ∃ u∈batch, u.outPoint∈recorded) :
    b.nextFence s chain recorded now = b.fenceOf chain batch fee := by
  obtain ⟨htrim,size,hsize,rfl⟩ := h
  obtain ⟨u,hu,hmem⟩ := hrecorded
  have htake : u∈order.take (maxFenceInputs chain) := (prefix_of_trimToSize htrim).subset hu
  have hany : ∀ l : List Utxo, u∈l → (l.any fun u => u.outPoint ∈ recorded) = true := fun l hl =>
    any_eq_true.mpr ⟨u,hl,decide_eq_true hmem⟩
  have hinputs : s.fenceInputs chain recorded = .ok (order.take (maxFenceInputs chain)) := by
    simp only [fenceInputs,horder,bind,Except.bind,ensure,hany _ htake]
    rfl
  simp only [nextFence,hstate,hinputs,htrim,hsize,hany _ hu,bind,Except.bind,ensure]
  rfl

theorem nextFence_nothingRecorded (hstate : s.fenceState b chain recorded=(none,false))
    (horder : s.fenceOrder chain = .ok order) (hnone : ∀ u∈order, u.outPoint ∉ recorded) :
    b.nextFence s chain recorded now = .error (.nothingRecorded chain) := by
  have hany : ((order.take (maxFenceInputs chain)).any fun u => u.outPoint ∈ recorded) = false :=
    any_eq_false.mpr fun u hu => by simpa using hnone u (mem_of_mem_take hu)
  have hinputs : s.fenceInputs chain recorded = .error (.nothingRecorded chain) := by
    simp only [fenceInputs,horder,bind,Except.bind,ensure,hany]
    rfl
  simp only [nextFence,hstate,hinputs,bind,Except.bind,ensure]
  rfl

end Rounds

/-! ## Two inputs fit -/

/-- A bridge of a signer set that loads. -/
structure Bridge.OfSet [Signing] (b : Bridge) (s : SignerSet) : Prop where
  loaded : Accepted s
  redeemScript : b.redeemScript = s.redeemScript
  required : b.required = s.required.toNat

section Set

variable [Signing] {b : Bridge} {s : SignerSet} {chain : ChainName}

omit [Hashing] in
theorem Bridge.OfSet.bounds (h : b.OfSet s) : b.required ≤ 294 ∧ b.redeemScript.length ≤ 10000 := by
  obtain ⟨f,hf⟩ := h.loaded.loaded
  have hsize := (multiSigScript_ok hf.script).2
  have hkeys := length_multiSigScript (length_serialized s.pubKeys) hf.script
  have hfile : s.required = f.required := by rw [← hf.file]
  have hle := hf.required_le
  rw [length_map] at hkeys
  rw [maxScriptSize] at hsize
  rw [h.required,h.redeemScript]
  omega

omit [Signing] in
theorem length_redeemFor_le {redeem : Script} (h : b.redeemFor script=some redeem) :
    redeem.length ≤ b.redeemScript.length+23 := by
  unfold redeemFor at h
  split at h
  · cases h
    simp [depositRedeemScript]
    omega
  · split at h
    · cases h
      omega
    · cases h

omit [Hashing] [Signing] in
theorem fenceSize_le {redeems : List Script} {required : ℕ} (hne : redeems≠[]) (hrequired : required≤294)
    (hredeems : ∀ redeem∈redeems, redeem.length ≤ 10023) : fenceSize redeems required ≤ 45000*redeems.length := by
  have hvar : ∀ n, varIntLen n ≤ 5 := by
    intro n
    unfold varIntLen
    split_ifs <;> omega
  have hsum : (redeems.map (fenceInputSize required)).sum ≤ redeems.length*32000 := by
    have hall : ∀ m∈redeems.map (fenceInputSize required), m ≤ 32000 := by
      intro m hm
      obtain ⟨redeem,hredeem,rfl⟩ := mem_map.mp hm
      have hlen := hredeems redeem hredeem
      have hpush : pushLen redeem.length ≤ 3 := by
        unfold pushLen
        split_ifs <;> omega
      have hscript := hvar (1+required*(1+73)+pushLen redeem.length+redeem.length)
      simp only [fenceInputSize]
      omega
    simpa using sum_le_card_nsmul _ _ hall
  have hpos := length_pos_of_ne_nil hne
  have hcount := hvar redeems.length
  rw [fenceSize]
  omega

theorem Bridge.OfSet.fenceSizeOf_le (h : b.OfSet s) {size : ℕ} (hne : inputs≠[])
    (hsize : b.fenceSizeOf chain inputs = .ok size) : size ≤ 45000*inputs.length := by
  obtain ⟨hrequired,hlen⟩ := h.bounds
  obtain ⟨redeems,hredeems,hsize⟩ := bind_eq_ok.mp hsize
  rw [← pure_eq_ok.mp hsize]
  have hfacts : redeems.length = inputs.length ∧ ∀ redeem∈redeems, redeem.length ≤ 10023 := by
    cases chain with
    | dogecoinVM =>
      cases hredeems
      refine ⟨length_map ..,fun redeem hmem => ?_⟩
      obtain ⟨_,-,rfl⟩ := mem_map.mp hmem
      omega
    | dogecoin =>
      have hall := forall₂_of_mapM_ok hredeems
      refine ⟨hall.length_eq.symm,fun redeem hmem => ?_⟩
      obtain ⟨u,-,hu⟩ := exists_of_mem_mapM hredeems redeem hmem
      have := length_redeemFor_le (found_eq_ok.mp hu)
      omega
  rw [← hfacts.1]
  refine fenceSize_le ?_ hrequired hfacts.2
  rw [← length_pos_iff,hfacts.1]
  exact length_pos_of_ne_nil hne

omit [Hashing] [Signing] in
theorem two_le_trimToSize {size : List Utxo → Except Refusal ℕ} {n : ℕ} {kept : List Utxo}
    (hsize : ∀ l ≠ [], ∀ bytes, size l = .ok bytes → bytes ≤ 45000*l.length) (h2 : 2 ≤ inputs.length)
    (h : trimToSize size n inputs = .ok kept) : 2 ≤ kept.length := by
  induction n generalizing inputs with
  | zero =>
    cases h
    exact h2
  | succ n ih =>
    rw [trimToSize,if_neg (by omega)] at h
    obtain ⟨bytes,hbytes,h⟩ := bind_eq_ok.mp h
    have hle := hsize inputs (ne_nil_of_length_pos (by omega)) bytes hbytes
    split at h
    · cases h
      exact h2
    · next hlarge =>
      refine ih ?_ h
      rw [maxFenceBytes] at hlarge ⊢
      have hquotient : 2 ≤ inputs.length*90000 / bytes := by
        rw [Nat.le_div_iff_mul_le (by omega)]
        omega
      rw [length_take]
      omega

theorem Batch.two_le {order batch : List Utxo} {fee : Int64} (h : Batch b chain order batch fee) (hset : b.OfSet s)
    (h2 : 2≤order.length) : 2 ≤ batch.length := by
  refine two_le_trimToSize (fun l hne bytes hbytes => hset.fenceSizeOf_le hne hbytes) ?_ h.trim
  have hmax : 2 ≤ maxFenceInputs chain := by cases chain <;> decide
  rw [length_take]
  omega

theorem Batch.used {order batch coins : List Utxo} {carry : Option Utxo} {fee : Int64}
    (h : Batch b chain order batch fee) (hset : b.OfSet s) (hcoins : coins≠[])
    (hlen : order.length=carry.toList.length+coins.length) : carry.toList.length < batch.length := by
  have hpos := length_pos_of_ne_nil hcoins
  cases carry with
  | none =>
    refine length_pos_of_ne_nil (h.ne_nil ?_)
    exact ne_nil_of_length_pos (by omega)
  | some c =>
    refine h.two_le hset ?_
    rw [hlen,Option.toList_some,length_singleton]
    omega

end Set

end

end DogePeg
