import DogePeg.Web.Balances

/-!
# The index's entries and the unspent outputs of the chain

Each output an index stores is an unspent output of the chain, gone through transaction by transaction,
and has its transaction in the history of its script, and the nets of the history add up to the stored
value.
-/

namespace DogePeg

open Amounts Batches List IndexEntries

variable {w : IndexValue}

/-- Outputs that are unspent, with the heights of their blocks. -/
abbrev Unspents := OutPoint → Option (TxOut × ℕ)

def outputOf (t : Hash × MsgTx) (op : OutPoint) : Option TxOut :=
  if op.hash = t.1 then t.2.txOut[op.index.toNat]? else none

namespace Unspents

/-- One transaction of the block at `height`. -/
def transaction (height : ℕ) (u : Unspents) (t : (Hash × MsgTx) × ℕ) : Unspents := fun op =>
  match outputOf t.1 op with
  | some out => some (out,height)
  | none => if op ∈ blockSpends t then none else u op

def block (height : ℕ) (u : Unspents) (txs : List (Hash × MsgTx)) : Unspents :=
  txs.zipIdx.foldl (transaction height) u

end Unspents

open Unspents

/-- The unspent outputs of a chain. -/
def unspents (chain : List DogeBlock) : Unspents :=
  chain.zipIdx.foldl (fun u b => block b.2 u b.1.txs) fun _ => none

section Chain

variable {U : Set DogeBlock} {chain : List DogeBlock} {u : Unspents} {op : OutPoint} {out : TxOut} {b : DogeBlock}
  {txs : List (Hash × MsgTx)} {t : Hash × MsgTx} {height j k m : ℕ}

theorem outputOf_hash (h : outputOf t op=some out) : op.hash = t.1 := by
  unfold outputOf at h
  split at h
  · assumption
  · cases h

theorem outputOf_of_ne (h : op.hash≠t.1) : outputOf t op = none := if_neg h

theorem outputOf_of_mem {out : TxOut × ℕ} (h : out∈t.2.txOut.zipIdx) :
    outputOf t ⟨t.1,UInt32.ofNat out.2⟩ = some out.1 := by
  have hget := mem_zipIdx_iff_getElem?.mp h
  rw [outputOf,if_pos rfl,toNat_index t.2 (List.getElem?_eq_some_iff.mp hget).1,hget]

theorem unspents_concat (chain : List DogeBlock) (b : DogeBlock) :
    unspents (chain++[b]) = block chain.length (unspents chain) b.txs := by
  rw [unspents,zipIdx_append,foldl_append]
  simp [unspents]

theorem block_of_not_mem (h : op.hash∉txs.map Prod.fst) :
    block height u txs op = if op ∈ txs.zipIdx.flatMap blockSpends then none else u op := by
  have hfold (l : List ((Hash × MsgTx) × ℕ)) (hl : ∀ t∈l, op.hash ≠ t.1.1) (u : Unspents) :
      l.foldl (transaction height) u op = if op ∈ l.flatMap blockSpends then none else u op := by
    induction l generalizing u with
    | nil => simp
    | cons t l ih =>
      rw [foldl_cons,ih (fun t ht => hl t (mem_cons_of_mem _ ht)),flatMap_cons,
        Unspents.transaction,outputOf_of_ne (hl t (mem_cons_self ..))]
      by_cases hspent : op∈blockSpends t
      · rw [if_pos (mem_append_left _ hspent)]
        simp only [hspent,if_true,ite_self]
      · simp only [hspent,if_false]
        exact if_congr (by rw [mem_append,or_iff_right hspent]) rfl rfl
  refine hfold _ (fun t ht heq => h ?_) u
  rw [heq]
  exact mem_map_of_mem (fst_mem_of_mem_zipIdx ht)

theorem mem_block (h : block height u txs op=some (out,j)) :
    (j = height ∧ ∃ t∈txs, outputOf t op = some out) ∨ u op = some (out,j) := by
  have hfold (l : List ((Hash × MsgTx) × ℕ)) (u : Unspents) (h : l.foldl (transaction height) u op=some (out,j)) :
      (j = height ∧ ∃ t∈l, outputOf t.1 op = some out) ∨ u op = some (out,j) := by
    induction l generalizing u with
    | nil => exact .inr h
    | cons t l ih =>
      rcases ih _ h with ⟨hj,t',ht',hout⟩ | hu
      · exact .inl ⟨hj,t',mem_cons_of_mem _ ht',hout⟩
      · unfold Unspents.transaction at hu
        split at hu
        · next hout =>
          cases hu
          exact .inl ⟨rfl,t,mem_cons_self ..,hout⟩
        · split at hu
          · cases hu
          · exact .inr hu
  rcases hfold _ u h with ⟨hj,t,ht,hout⟩ | hu
  · exact .inl ⟨hj,t.1,fst_mem_of_mem_zipIdx ht,hout⟩
  · exact .inr hu

theorem mem_unspents (h : unspents chain op=some (out,j)) :
    ∃ b t, chain[j]? = some b ∧ t∈b.txs ∧ outputOf t op = some out := by
  induction chain using List.reverseRecOn with
  | nil => cases h
  | append_singleton chain b ih =>
    rw [unspents_concat] at h
    rcases mem_block h with ⟨rfl,t,ht,hout⟩ | hold
    · exact ⟨b,t,by simp, ht, hout⟩
    · obtain ⟨b',t,hb',ht,hout⟩ := ih hold
      refine ⟨b',t,?_,ht,hout⟩
      rw [List.getElem?_append_left (List.getElem?_eq_some_iff.mp hb').1,hb']

/-- An unspent output has been unspent since its block: no block in between spends it. -/
theorem unspents_since (hchain : DogeChain U chain) (h : unspents (chain.take (k+1)) op=some (out,j))
    (hk : k<chain.length) (hjm : j ≤ m) (hmk : m≤k) : unspents (chain.take (m+1)) op = some (out,j) ∧
      ∀ i b, m < i → i ≤ k → chain[i]? = some b → op ∉ b.txs.zipIdx.flatMap blockSpends := by
  induction k with
  | zero =>
    obtain rfl : m = 0 := by omega
    exact ⟨h,fun i b hlo hhi => by omega⟩
  | succ k ih =>
    rcases Nat.eq_or_lt_of_le hmk with rfl | hlt
    · exact ⟨h,fun i b hlo hhi => by omega⟩
    · obtain ⟨c,hc⟩ : ∃ c, chain[k+1]? = some c := ⟨_,List.getElem?_eq_getElem hk⟩
      have htake : chain.take (k+1+1) = chain.take (k+1)++[c] := by
        rw [take_add_one,hc,Option.toList_some]
      -- its transaction is in a block below, so not in this one
      obtain ⟨b,t,hb,ht,hout⟩ := mem_unspents h
      have hnot : op.hash ∉ c.txs.map Prod.fst := by
        have hnodup := (htake ▸ hchain.take (k+1+1)).nodup
        rw [flatMap_append,flatMap_singleton] at hnodup
        refine fun hmem => (nodup_append.mp hnodup).2.2 op.hash ?_ op.hash hmem rfl
        rw [htake,List.getElem?_append_left (by rw [length_take]; omega)] at hb
        rw [outputOf_hash hout]
        exact mem_flatMap.mpr ⟨b,mem_of_getElem? hb,mem_map_of_mem ht⟩
      rw [htake,unspents_concat,block_of_not_mem hnot] at h
      split at h
      · cases h
      · next hspent =>
        obtain ⟨hm,hrest⟩ := ih h (by omega) (by omega)
        refine ⟨hm,fun i b hlo hhi hb => ?_⟩
        rcases Nat.eq_or_lt_of_le hhi with rfl | hlt
        · cases hc.symm.trans hb
          exact hspent
        · exact hrest i b hlo (by omega) hb

end Chain

/-! ## Entries that mirror the chain -/

/-- Each stored output is unspent in the chain and its transaction recorded, and history and value
agree. -/
structure Mirrors (body : Hash → MsgTx) (u : Unspents) (e : IndexEntries) : Prop where
  paired : Paired body e
  finite : e.IsFinite
  unspent : ∀ s op v j, e (.utxo s op) = some (.utxo v j) → u op = some (⟨v,s⟩,j)
  recorded : ∀ s op v j, e (.utxo s op) = some (.utxo v j) → e (.history s j op.hash) ≠ none
  balance : ∀ s, historyNet s e = storedValue s e

section Mirror

variable {body : Hash → MsgTx} {u : Unspents} {e : IndexEntries} {acc : IndexEntries × Nets} {op : OutPoint}
  {s : Script} {v : Int64} {j height : ℕ} {watched : Script → Bool} {unix : ℤ} {txid : Hash}
  {t : (Hash × MsgTx) × ℕ}

theorem Mirrors.empty (u : Unspents) : Mirrors body u fun _ => none where
  paired := .empty
  finite := Store.isFinite_empty
  unspent := fun _ _ _ _ h => by cases h
  recorded := fun _ _ _ _ h => by cases h
  balance := fun s => (Store.total_empty _).trans (Store.total_empty _).symm

theorem Paired.utxo_value (h : Paired body e) (hw : e (.utxo s op)=some w) : ∃ v j, w = .utxo v j := by
  have howner := (h.utxo s op (hw ▸ Option.some_ne_none w)).2
  obtain ⟨s',v,j,howner',hutxo⟩ := h.owner op (howner ▸ Option.some_ne_none _)
  cases howner.symm.trans howner'
  exact ⟨v,j,Option.some.inj (hw.symm.trans hutxo)⟩

theorem Paired.output (h : Paired body e) (hv : e (.utxo s op)=some (.utxo v j)) : output e op = some (s,v) :=
  output_eq_some.mpr ⟨(h.utxo s op (hv ▸ Option.some_ne_none _)).2,j,hv⟩

theorem Paired.spend (h : Paired body acc.1) (op : OutPoint) : Paired body (spend acc op).1 := by
  unfold IndexEntries.spend
  split
  · next s v hout =>
    obtain ⟨-,j,hutxo⟩ := output_eq_some.mp hout
    exact h.write_pair (h.utxo s op (hutxo ▸ Option.some_ne_none _)).1 (.inl ⟨rfl,rfl⟩)
  · exact h

variable {out : TxOut × ℕ}

theorem Paired.pay (h : Paired body acc.1) (hout : out∈(body txid).txOut.zipIdx) :
    Paired body (pay watched height txid acc out).1 := by
  unfold IndexEntries.pay
  split
  · exact h.write_pair (payee_of_mem hout) (.inr ⟨_,_,rfl,rfl⟩)
  · exact h

theorem Paired.spends (h : Paired body acc.1) (ops : List OutPoint) :
    Paired body (ops.foldl IndexEntries.spend acc).1 :=
  List.foldlRecOn ops _ (motive := fun acc : IndexEntries × Nets => Paired body acc.1) h
    fun _ hacc op _ => hacc.spend op

theorem Paired.touch (h : Paired body e) (ht : t.1.2=body t.1.1) :
    Paired body (IndexEntries.touch watched height e t).1 :=
  List.foldlRecOn _ _ (motive := fun acc : IndexEntries × Nets => Paired body acc.1)
    (Paired.spends h _) fun _ hacc _ hout => hacc.pay (ht ▸ hout)

theorem Paired.transaction (h : Paired body e) (ht : t.1.2=body t.1.1) :
    Paired body (transaction watched height unix e t) :=
  List.foldlRecOn _ _ (motive := fun e : IndexEntries => Paired body e) (h.touch ht)
    fun _ he _ _ => he.record height t.1.1 _

theorem output_spends_mem {ops : List OutPoint} (h : op∈ops) : output (ops.foldl spend acc).1 op = none := by
  have hself (acc : IndexEntries × Nets) : output (spend acc op).1 op = none := by
    unfold spend
    split
    · exact output_update_none
    · assumption
  induction ops generalizing acc with
  | nil => cases h
  | cons op' ops ih =>
    rw [foldl_cons]
    by_cases hmem : op∈ops
    · exact ih hmem
    · obtain rfl := (mem_cons.mp h).resolve_right hmem
      rw [output_spends hmem,hself]

theorem spends_le {k : IndexKey} {ops : List OutPoint} (h : (ops.foldl spend acc).1 k=some w) : acc.1 k = some w := by
  by_contra hne
  have hle := List.foldlRecOn ops spend
    (motive := fun a : IndexEntries × Nets => a.1 k = some w → acc.1 k = some w) (b := acc) id
    fun a ha op _ hsome => ha ?_
  · exact hne (hle h)
  · unfold spend at hsome
    split at hsome
    · simp only [Function.update_apply] at hsome
      split at hsome
      · cases hsome
      · split at hsome
        · cases hsome
        · exact hsome
    · exact hsome

theorem keys_pay (h : s∈acc.2.map Prod.fst) : s∈(pay watched height txid acc out).2.map Prod.fst := by
  unfold pay
  split
  · exact Nets.mem_keys_add.mpr (.inl h)
  · exact h

theorem utxo_of_pay (h : (pay watched height txid acc out).1 (.utxo s op)=some w) :
    (op = ⟨txid,UInt32.ofNat out.2⟩ ∧ out.1.pkScript = s ∧ w = .utxo out.1.value height ∧
        s ∈ (pay watched height txid acc out).2.map Prod.fst) ∨ acc.1 (.utxo s op) = some w := by
  unfold pay at h ⊢
  split at h
  · next hwatched =>
    rw [if_pos hwatched]
    simp only [Function.update_apply,reduceCtorEq,if_false,IndexKey.utxo.injEq] at h
    split at h
    · next heq =>
      obtain ⟨rfl,rfl⟩ := heq
      exact .inl ⟨rfl,rfl,(Option.some.inj h).symm,Nets.mem_keys_add.mpr (.inr rfl)⟩
    · exact .inr h
  · exact .inr h

/-- The stored outputs after the inputs and outputs of a transaction: one it pays to a watched script,
or one that was stored and that it does not spend. The script of the former has a net. -/
theorem utxo_of_touch (he : Paired body e)
    (h : (IndexEntries.touch watched height e t).1 (.utxo s op)=some (.utxo v j)) :
    (∃ out∈t.1.2.txOut.zipIdx, op = ⟨t.1.1,UInt32.ofNat out.2⟩ ∧ out.1 = ⟨v,s⟩ ∧ j = height ∧
        s ∈ (IndexEntries.touch watched height e t).2.map Prod.fst) ∨
      e (.utxo s op) = some (.utxo v j) ∧ op ∉ blockSpends t := by
  have hfold (outs : List (TxOut × ℕ)) (acc : IndexEntries × Nets)
      (h : (outs.foldl (IndexEntries.pay watched height t.1.1) acc).1 (.utxo s op)=some (.utxo v j)) :
      (∃ out∈outs, op = ⟨t.1.1,UInt32.ofNat out.2⟩ ∧ out.1 = ⟨v,s⟩ ∧ j = height ∧
        s ∈ (outs.foldl (IndexEntries.pay watched height t.1.1) acc).2.map Prod.fst) ∨
        acc.1 (.utxo s op) = some (.utxo v j) := by
    induction outs using List.reverseRecOn with
    | nil => exact .inr h
    | append_singleton outs out ih =>
      rw [foldl_concat] at h ⊢
      rcases utxo_of_pay h with ⟨rfl,rfl,hvalue,hkeys⟩ | hold
      · cases hvalue
        exact .inl ⟨out,mem_append_right _ (mem_singleton_self out),rfl,rfl,rfl,hkeys⟩
      · rcases ih hold with ⟨out',hout',hop,hval,hj,hkeys⟩ | hacc
        · exact .inl ⟨out',mem_append_left _ hout',hop,hval,hj,keys_pay hkeys⟩
        · exact .inr hacc
  rcases hfold _ _ h with hpaid | hspent
  · exact .inl hpaid
  · refine .inr ⟨spends_le hspent,fun hmem => ?_⟩
    have hout := (he.spends (blockSpends t)).output hspent
    exact absurd (output_spends_mem hmem) (hout ▸ Option.some_ne_none _)

theorem record_apply (height : ℕ) (unix : ℤ) (txid : Hash) (acc : IndexEntries × Nets) (k : IndexKey) :
    (record height unix txid acc k = acc.1 k ∧ ∀ n∈acc.2, k ≠ .history n.1 height txid) ∨
      ∃ n∈acc.2, k = .history n.1 height txid ∧ record height unix txid acc k ≠ none := by
  obtain ⟨e,nets⟩ := acc
  unfold record
  induction nets using List.reverseRecOn with
  | nil => exact .inl ⟨rfl,by simp⟩
  | append_singleton nets n ih =>
    rw [foldl_concat]
    by_cases hk : k = .history n.1 height txid
    · exact .inr ⟨n,mem_append_right _ (mem_singleton_self n),hk,by simp [hk]⟩
    · rw [Function.update_of_ne hk]
      rcases ih with ⟨hsame,hne⟩ | ⟨m,hm,hkey,hsome⟩
      · refine .inl ⟨hsame,fun m hm => ?_⟩
        rcases mem_append.mp hm with hm | hm
        · exact hne m hm
        · rwa [mem_singleton.mp hm]
      · exact .inr ⟨m,mem_append_left _ hm,hkey,hsome⟩

theorem Mirrors.transaction (h : Mirrors body u e) (ht : t.1.2=body t.1.1)
    (hfresh : ∀ k, k.txid = t.1.1 → e k = none) :
    Mirrors body (u.transaction height t) (transaction watched height unix e t) := by
  have hbalance := transaction_balance watched height unix h.finite hfresh
  have hmoved := moved_touch watched height h.finite hfresh
  have hutxo {s : Script} {op : OutPoint} : IndexEntries.transaction watched height unix e t (.utxo s op) =
      (touch watched height e t).1 (.utxo s op) := by
    rcases record_apply height unix t.1.1 (touch watched height e t) (.utxo s op) with
      ⟨hsame,-⟩ | ⟨n,-,hkey,-⟩
    · exact hsame
    · cases hkey
  refine ⟨h.paired.transaction ht,(hbalance []).2.2,fun s op v j hv => ?_, fun s op v j hv => ?_, fun s => ?_⟩
  · rw [hutxo] at hv
    rcases utxo_of_touch h.paired hv with ⟨out,hout,rfl,hval,rfl,-⟩ | ⟨hold,hspent⟩
    · rw [Unspents.transaction,outputOf_of_mem hout,hval]
    · have hne : op.hash ≠ t.1.1 := fun heq => by
        rw [hfresh (.utxo s op) heq] at hold
        cases hold
      rw [Unspents.transaction,outputOf_of_ne hne]
      simp only [hspent,if_false]
      exact h.unspent s op v j hold
  · rw [hutxo] at hv
    rcases record_apply height unix t.1.1 (touch watched height e t)
      (.history s j op.hash) with ⟨hsame,hne⟩ | ⟨n,-,-,hsome⟩
    · rw [IndexEntries.transaction,hsame]
      rcases utxo_of_touch h.paired hv with ⟨out,-,rfl,-,rfl,hkeys⟩ | ⟨hold,-⟩
      · obtain ⟨n,hn,rfl⟩ := mem_map.mp hkeys
        exact absurd rfl (hne n hn)
      · rw [hmoved.history]
        exact h.recorded s op v j hold
    · exact hsome
  · rw [(hbalance s).1,(hbalance s).2.1,h.balance]

theorem Mirrors.block {txs : List (Hash × MsgTx)} (h : Mirrors body u e) (htxs : ∀ t∈txs, t.2 = body t.1)
    (hnodup : (txs.map Prod.fst).Nodup) (hfresh : ∀ k, e k ≠ none → k.txid ∉ txs.map Prod.fst) :
    Mirrors body (block height u txs) (block watched height unix e txs) := by
  have hfold (l : List ((Hash × MsgTx) × ℕ)) {u : Unspents} {e : IndexEntries} (h : Mirrors body u e)
      (hl : ∀ t∈l, t.1.2 = body t.1.1) (hnodup : (l.map fun t => t.1.1).Nodup)
      (hfresh : ∀ k, e k ≠ none → k.txid ∉ l.map fun t => t.1.1) :
      Mirrors body (l.foldl (Unspents.transaction height) u)
        (l.foldl (IndexEntries.transaction watched height unix) e) := by
    induction l generalizing u e with
    | nil => exact h
    | cons t l ih =>
      rw [map_cons,nodup_cons] at hnodup
      have hnew : ∀ k, k.txid = t.1.1 → e k = none := by
        intro k hk
        by_contra hne
        exact hfresh k hne (hk ▸ mem_cons_self ..)
      refine ih (h.transaction (hl t (mem_cons_self ..)) hnew) (fun t ht => hl t (mem_cons_of_mem _ ht))
        hnodup.2 fun k hk hmem => ?_
      have hne : k.txid ≠ t.1.1 := fun heq => hnodup.1 (heq ▸ hmem)
      refine hk (transaction_apply hne ?_)
      by_contra hold
      exact hfresh k hold (mem_cons_of_mem _ hmem)
  have hids : txs.zipIdx.map (fun t => t.1.1) = txs.map Prod.fst := by
    change txs.zipIdx.map (Prod.fst ∘ Prod.fst) = _
    rw [← map_map,zipIdx_map_fst]
  exact hfold _ h (fun t ht => htxs t.1 (fst_mem_of_mem_zipIdx ht)) (hids ▸ hnodup) (hids ▸ hfresh)

end Mirror

end DogePeg
