import DogePeg.Lib.Sums
import DogePeg.Node.Supply
import Mathlib.Data.List.Induction

/-!
# Where the unspent outputs come from

A block's coinbase starts with its height, and any other transaction spends outputs that are gone
afterwards, so on an accepted chain hashes repeat only by a collision, and an output is created once and
spent once. What the coinbases create is accounted for exactly: it is unspent, or it was a fee no
coinbase claimed, or it went to an output that cannot be spent.
-/

namespace DogePeg.Node

open Amounts Holdings Checks List MsgTx

variable {coinbase : MsgTx}

section

variable [Hashing]

/-- Transactions with one hash are the same but for their witnesses. -/
def CollisionFree (txs : List MsgTx) : Prop :=
  ∀ t∈txs, ∀ u∈txs, t.txHash = u.txHash → t.stripWitness = u.stripWitness

theorem CollisionFree.of_nodup {txs : List MsgTx} (h : (txs.map txHash).Nodup) : CollisionFree txs := by
  intro t ht u hu heq
  rw [inj_on_of_nodup_map h ht hu heq]

theorem CollisionFree.mono {txs us : List MsgTx} (h : CollisionFree txs) (hsub : us ⊆ txs) : CollisionFree us :=
  fun t ht u hu => h t (hsub ht) u (hsub hu)

/-- A set that the transactions `txs` have left: each has its own hash, every unspent output
is one of theirs, and what they have spent is one of theirs and is gone. -/
structure Provenance (txs : List MsgTx) (s : UtxoSet) : Prop where
  nodup : (txs.map txHash).Nodup
  origin : ∀ op e, s.lookup op = some e → ∃ tx∈txs, ∃ out, (op,out)∈tx.outputs ∧
    e.amount = out.value ∧ e.pkScript = out.pkScript
  spent : ∀ tx∈txs, ∀ op∈inputs tx, s.lookup op = none ∧ ∃ u∈txs, op.hash = u.txHash

namespace Provenance

variable {txs : List MsgTx} {s : UtxoSet} {tx : MsgTx} {height : Int32}

theorem perm {txs' : List MsgTx} (h : Provenance txs s) (hp : txs.Perm txs') : Provenance txs' s where
  nodup := (hp.map _).nodup_iff.mp h.nodup
  origin op e he := by
    obtain ⟨tx,htx,hout⟩ := h.origin op e he
    exact ⟨tx,hp.mem_iff.mp htx,hout⟩
  spent tx htx op hop := by
    obtain ⟨hnone,u,hu,hash⟩ := h.spent tx (hp.mem_iff.mpr htx) op hop
    exact ⟨hnone,u,hp.mem_iff.mp hu,hash⟩

theorem origin_hash (h : Provenance txs s) {op : OutPoint} {e : UtxoEntry}
    (he : s.lookup op=some e) : ∃ u∈txs, op.hash = u.txHash := by
  obtain ⟨u,hu,out,hout,-⟩ := h.origin op e he
  exact ⟨u,hu,u.hash_of_mem_outputs hout⟩

theorem lookup_of_fresh (h : Provenance txs s) (hfresh : tx.txHash∉txs.map txHash)
    {op : OutPoint} (hop : op.hash=tx.txHash) : s.lookup op = none := by
  cases he : s.lookup op with
  | none => rfl
  | some e =>
    obtain ⟨u,hu,hash⟩ := h.origin_hash he
    exact absurd (mem_map.mpr ⟨u,hu,hash.symm.trans hop⟩) hfresh

theorem apply (h : Provenance txs s) (hspends : Spends s tx)
    (hfresh : tx.txHash∉txs.map txHash) : Provenance (tx::txs) (s.apply tx height) where
  nodup := nodup_cons.mpr ⟨hfresh,h.nodup⟩
  origin := by
    intro op e he
    by_cases hc : Creates tx op
    · obtain ⟨q,hq,rfl⟩ := mem_map.mp ((creates_iff_mem_keys height).mp hc)
      rw [lookup_apply_of_creates hq,Option.some.injEq] at he
      obtain ⟨p,hp,rfl⟩ := mem_map.mp hq
      exact ⟨tx,mem_cons_self ..,p.2,(mem_filter.mp hp).1,by rw [← he], by rw [← he]⟩
    · rw [lookup_apply_of_not_creates hc] at he
      split at he
      · cases he
      · obtain ⟨u,hu,hout⟩ := h.origin op e he
        exact ⟨u,mem_cons_of_mem _ hu,hout⟩
  spent := by
    intro u hu op hop
    have hown : ∃ v∈txs, op.hash = v.txHash := by
      rcases mem_cons.mp hu with rfl | hu
      · obtain ⟨e,he,-⟩ := hspends.found op hop
        exact h.origin_hash he
      · exact (h.spent u hu op hop).2
    obtain ⟨v,hv,hash⟩ := hown
    have hnot : ¬ Creates tx op := fun hc =>
      hfresh (mem_map.mpr ⟨v,hv,hash.symm.trans hc.hash_eq⟩)
    refine ⟨?_,v,mem_cons_of_mem _ hv,hash⟩
    rw [lookup_apply_of_not_creates hnot]
    split
    · rfl
    · rename_i hin
      rcases mem_cons.mp hu with rfl | hu
      · exact absurd hop hin
      · exact (h.spent u hu op hop).1

omit [Hashing] in
theorem isCoinbase_of_stripWitness {t u : MsgTx} (h : t.stripWitness=u.stripWitness) :
    isCoinbase t = isCoinbase u := by
  have hstrip (v : MsgTx) : isCoinbase v.stripWitness = isCoinbase v := by
    unfold isCoinbase stripWitness
    rcases v.txIn with _ | ⟨i,_ | ⟨j,l⟩⟩ <;> rfl
  rw [← hstrip t,h,hstrip u]

/-- A transaction with inputs has a new hash: one of the same hash would have spent them. -/
theorem fresh_of_spends (h : Provenance txs s) (hspends : Spends s tx)
    (hinj : CollisionFree (tx::txs)) (hcb : isCoinbase tx=false) (hne : tx.txIn≠[]) :
    tx.txHash ∉ txs.map txHash := by
  intro hmem
  obtain ⟨u,hu,hash⟩ := mem_map.mp hmem
  have hstrip := hinj u (mem_cons_of_mem _ hu) tx (mem_cons_self ..) hash
  have hsame : inputs u = inputs tx := by
    rw [inputs,inputs,isCoinbase_of_stripWitness hstrip,← u.stripWitness_spends,hstrip,tx.stripWitness_spends]
  obtain ⟨i,rest,hin⟩ := exists_cons_of_ne_nil hne
  have hop : i.previousOutPoint∈inputs tx := by
    simp [inputs,hcb,spends,hin]
  obtain ⟨e,he,-⟩ := hspends.found _ hop
  rw [(h.spent u hu _ (hsame ▸ hop)).1] at he
  cases he

end Provenance

/-! ## Value -/

def burnedIn (tx : MsgTx) : ℤ :=
  ((tx.outputs.filter fun p => isUnspendable p.2.pkScript).map (·.2.value.toInt)).sum

def valueTo (script : Script) (tx : MsgTx) : ℤ :=
  exact ((tx.txOut.filter fun o => o.pkScript = script).map (·.value))

def valueElsewhere (script : Script) (tx : MsgTx) : ℤ :=
  exact ((tx.txOut.filter fun o => !decide (o.pkScript = script)).map (·.value))

omit [Hashing] in
theorem valueTo_add_valueElsewhere (script : Script) (tx : MsgTx) :
    valueTo script tx+valueElsewhere script tx = valueOut tx := by
  have hsplit := sum_filter_add_sum_filter_not (fun o : TxOut => decide (o.pkScript = script))
    (fun o => o.value.toInt) tx.txOut
  simpa only [valueTo,valueElsewhere,valueOut,exact,map_map,Function.comp_def] using hsplit

theorem sum_newEntries_add_burnedIn (tx : MsgTx) (height : Int32) :
    ((newEntries tx height).map fun e => worth e.1 e.2).sum+burnedIn tx = valueOut tx := by
  have hvalue : valueOut tx = (tx.outputs.map fun p => p.2.value.toInt).sum := by
    rw [map_value_outputs,valueOut,exact,map_map]
    rfl
  have hsplit := sum_filter_add_sum_filter_not
    (fun p : OutPoint × TxOut => isUnspendable p.2.pkScript) (fun p => p.2.value.toInt) tx.outputs
  rw [hvalue,← hsplit,burnedIn,newEntries,map_map,add_comm]
  rfl

/-- Connecting a transaction with a new hash moves the value of its inputs to its outputs,
but for what it burns. -/
theorem Provenance.supply_apply {txs : List MsgTx} {s : UtxoSet} {tx : MsgTx}
    (h : Provenance txs s) (hspends : Spends s tx) (hfresh : tx.txHash∉txs.map txHash) (height : Int32) :
    (s.apply tx height).supply = s.supply-valueIn s tx+valueOut tx-burnedIn tx := by
  have herase := weight_eraseAll worth s hspends.sane.nodup_inputs
  have hnew : ∀ e∈newEntries tx height, (eraseAll s (inputs tx)).lookup e.1 = none := by
    intro e he
    have hcreates : Creates tx e.1 := (creates_iff_mem_keys height).mpr (mem_map_of_mem he)
    rw [lookup_eraseAll,h.lookup_of_fresh hfresh hcreates.hash_eq]
    split <;> rfl
  have hinsert := weight_insertAll_of_new (f := worth) (nodup_newEntries_keys tx height) hnew
  have hsum := sum_newEntries_add_burnedIn tx height
  rw [valueIn_eq_sum]
  unfold UtxoSet.supply UtxoSet.apply
  omega

theorem Connects.provenance {height : Int32} {s s' : UtxoSet} {old txs : List MsgTx}
    (h : Connects height s txs s') (hold : Provenance old s)
    (hinj : CollisionFree (txs++old)) (hcb : ∀ tx∈txs, isCoinbase tx = false) (hne : ∀ tx∈txs, tx.txIn ≠ []) :
    Provenance (txs++old) s' ∧ s'.supply = s.supply-exact (feesOf height s txs)-(txs.map burnedIn).sum := by
  induction h generalizing old with
  | nil s => exact ⟨hold,by simp [feesOf]⟩
  | @cons s s' tx txs hspends _ ih =>
    have hperm : (txs++tx::old).Perm (tx::txs++old) := perm_middle
    have hfresh := hold.fresh_of_spends hspends
      (hinj.mono (cons_subset_cons tx (subset_append_right ..))) (hcb tx (by simp)) (hne tx (by simp))
    obtain ⟨hprov,hsupply⟩ := ih (hold.apply hspends hfresh) (hinj.mono hperm.subset)
      (fun t ht => hcb t (mem_cons_of_mem _ ht)) (fun t ht => hne t (mem_cons_of_mem _ ht))
    refine ⟨hprov.perm hperm,?_⟩
    have hstep := hold.supply_apply hspends hfresh height
    have hfee := hspends.toInt_feeOf
    rw [hcb tx (by simp)] at hfee
    simp only [Bool.false_eq_true,↓reduceIte] at hfee
    rw [hsupply,feesOf,exact_cons,hfee,map_cons,sum_cons]
    omega

/-! ## Whole chains -/

def chainTxs (blocks : List MsgBlock) : List MsgTx := blocks.flatMap (·.transactions)

theorem CollisionFree.of_cons {block : MsgBlock} {blocks : List MsgBlock}
    (h : CollisionFree (chainTxs (block::blocks))) :
    CollisionFree (chainTxs blocks) := h.mono (subset_append_right ..)

def heightAfter (blocks : List MsgBlock) : Int32 := Int32.ofNat (blocks.length+1)

def utxosAfter : List MsgBlock → UtxoSet
  | [] => ∅
  | block::blocks => (utxosAfter blocks).applyAll (heightAfter blocks) block.transactions

/-- The fees of a block that its coinbase does not pay out to other scripts than `script`. -/
def unclaimedFees (script : Script) (block : MsgBlock) (blocks : List MsgBlock) : ℤ :=
  exact (feesOf (heightAfter blocks) (utxosAfter blocks) block.transactions) -
    ((block.transactions.filter isCoinbase).map (valueElsewhere script)).sum

/-- The value that left circulation without going back to `script` as a payment: fees no
coinbase paid out and outputs that cannot be spent. -/
def lost (script : Script) : List MsgBlock → ℤ
  | [] => 0
  | block::blocks => lost script blocks+unclaimedFees script block blocks +
      (block.transactions.map burnedIn).sum

/-- What the coinbases of the chain pay to `script`. -/
def created (script : Script) (blocks : List MsgBlock) : ℤ :=
  (((chainTxs blocks).filter isCoinbase).map (valueTo script)).sum

/-- What is known of the books of an accepted chain with a reserve at `script`. -/
structure Ledger (script : Script) (c : BestChain) (blocks : List MsgBlock) : Prop where
  provenance : Provenance (chainTxs blocks) c.utxos
  heights : ∀ tx∈chainTxs blocks, isCoinbase tx = true →
    ∃ height, extractCoinbaseHeight tx = .ok height ∧ height.toInt ≤ blocks.length
  utxos_eq : c.utxos = utxosAfter blocks
  books : created script blocks = c.utxos.supply+lost script blocks
  lost_nonneg : 0 ≤ lost script blocks

section

variable {rules : Rules} {p : Params} {cps : Checkpoints} {g : Hash} {r : PegReserve} {now : ℤ}
  {c c' : BestChain} {block : MsgBlock} {blocks : List MsgBlock} {blockHeight : Int32}

theorem checkBlockSanity_inputs (h : checkBlockSanity rules now block = .ok ()) :
    ∀ tx∈block.transactions, tx.txIn ≠ [] := by
  simp only [checkBlockSanity,checks_ok,require_eq_ok] at h
  obtain ⟨-,-,-,-,-,-,hsane,-⟩ := h
  intro tx htx
  have htx := forM_eq_ok.mp hsane tx htx
  simp only [checkTransactionSanity,checks_ok,require_eq_ok,decide_eq_true_eq] at htx
  exact htx.1

theorem TemplateOk.coinbaseHeight {rest : List MsgTx}
    (h : TemplateOk rules p cps now c block blockHeight) (hbound : ¬ nextHeight c.nodes<p.bip0034Height)
    (htxs : block.transactions=coinbase::rest) : extractCoinbaseHeight coinbase = .ok (nextHeight c.nodes) := by
  have hle : p.bip0034Height ≤ nextHeight c.nodes := Int32.not_lt.mp hbound
  have hheader := h.header
  simp only [checkHeaderBeforeCheckpoint,checkHeaderRules,checks_ok,require_eq_ok] at hheader
  obtain ⟨⟨-,-,-,-,-,hversion⟩,-⟩ := hheader
  rw [← nextHeight] at hversion
  have hcontents := h.contents
  simp only [checkBlockContents,checks_ok,require_eq_ok] at hcontents
  obtain ⟨-,-,-,hheight,-⟩ := hcontents
  have hv : 2 ≤ block.header.version := by
    simp only [Bool.not_eq_true',Bool.or_eq_false_iff,Bool.and_eq_false_iff,decide_eq_false_iff_not] at hversion
    rcases hversion.1.1 with hv | hv
    · exact Int32.not_lt.mp hv
    · exact absurd hle hv
  rw [checkCoinbaseHeight,htxs,List.head?_cons] at hheight
  simp only [hv,hle,and_self,↓reduceIte,checkSerializedHeight,bind_eq_ok,require_eq_ok,
    decide_eq_true_eq] at hheight
  obtain ⟨height,hextract,heq⟩ := hheight
  rw [hextract,heq]

omit [Hashing] in
theorem extractCoinbaseHeight_stripWitness (tx : MsgTx) :
    extractCoinbaseHeight tx.stripWitness = extractCoinbaseHeight tx := by
  have hscript : (tx.stripWitness.txIn.head?.map (·.signatureScript)) = tx.txIn.head?.map (·.signatureScript) := by
    unfold stripWitness
    cases tx.txIn <;> rfl
  rw [extractCoinbaseHeight,hscript]
  rfl

omit [Hashing] in
theorem ChainBound.heightAfter_eq (h : ChainBound r c blocks.length) : heightAfter blocks = nextHeight c.nodes := by
  have hroom := h.room
  rw [← Int32.toInt_inj,h.toInt_nextHeight,heightAfter,Int32.toInt_ofNat_of_lt (by omega)]
  push_cast
  rfl

/-- What an accepted chain keeps whatever its reserve is. -/
structure Distinct (c : BestChain) (blocks : List MsgBlock) : Prop where
  provenance : Provenance (chainTxs blocks) c.utxos
  heights : ∀ tx∈chainTxs blocks, isCoinbase tx = true →
    ∃ height, extractCoinbaseHeight tx = .ok height ∧ height.toInt ≤ blocks.length
  next : (nextHeight c.nodes).toInt = blocks.length+1

/-- No coinbase of the chain has the hash of the next one: it starts with a lower height. -/
theorem Distinct.fresh_coinbase (h : Distinct c blocks) (hcb : isCoinbase coinbase=true)
    (hheight : extractCoinbaseHeight coinbase = .ok (nextHeight c.nodes))
    (hinj : CollisionFree (coinbase::chainTxs blocks)) : coinbase.txHash ∉ (chainTxs blocks).map txHash := by
  intro hmem
  obtain ⟨u,hu,hash⟩ := mem_map.mp hmem
  have hstrip := hinj u (mem_cons_of_mem _ hu) coinbase (mem_cons_self ..) hash
  have hucb := (Provenance.isCoinbase_of_stripWitness hstrip).trans hcb
  obtain ⟨height,hextract,hle⟩ := h.heights u hu hucb
  rw [← extractCoinbaseHeight_stripWitness,hstrip,extractCoinbaseHeight_stripWitness,hheight,
    Except.ok.injEq] at hextract
  rw [← hextract,h.next] at hle
  omega

theorem Distinct.heights_cons (h : Distinct c blocks) {rest : List MsgTx}
    (htxs : block.transactions=coinbase::rest) (hrest : ∀ tx∈rest, isCoinbase tx = false)
    (hheight : extractCoinbaseHeight coinbase = .ok (nextHeight c.nodes)) :
    ∀ tx∈chainTxs (block::blocks), isCoinbase tx = true →
      ∃ height, extractCoinbaseHeight tx = .ok height ∧ height.toInt ≤ (block::blocks).length := by
  intro tx htx htxcb
  rw [chainTxs,flatMap_cons,htxs,cons_append] at htx
  rw [length_cons]
  push_cast
  rcases mem_cons.mp htx with rfl | htx
  · exact ⟨_,hheight,h.next.le⟩
  · rcases mem_append.mp htx with htx | htx
    · rw [hrest tx htx] at htxcb
      cases htxcb
    · obtain ⟨height,hextract,hle⟩ := h.heights tx htx htxcb
      exact ⟨height,hextract,by omega⟩

omit [Hashing] in
theorem le_exact_of_mem {vs : List Int64} (hvs : ∀ v∈vs, 0 ≤ v.toInt) {v : Int64}
    (hv : v∈vs) : v.toInt ≤ exact vs := by
  induction vs with
  | nil => cases hv
  | cons w ws ih =>
    have hws : ∀ v∈ws, 0 ≤ v.toInt := fun v hv => hvs v (mem_cons_of_mem _ hv)
    have hw := hvs w (mem_cons_self ..)
    have hrest := exact_nonneg hws
    rw [exact_cons]
    rcases mem_cons.mp hv with rfl | hv
    · omega
    · have := ih hws hv
      omega

variable {height : Int32} {pre post : List MsgTx}

omit [Hashing] in
/-- A coinbase that passes the checks leaves no more than the fees to other scripts. -/
theorem valueElsewhere_le {fees : Int64} (hsane : Sane coinbase) (hfees : 0≤fees.toInt)
    (h : checkCoinbase (pegParams g r) height coinbase fees = .ok ()) :
    valueElsewhere r.pkScript coinbase ≤ fees.toInt := by
  obtain ⟨-,hle,hpays⟩ := checkCoinbase_ok (p := pegParams g r) rfl rfl hsane hfees h
  have hsplit := valueTo_add_valueElsewhere r.pkScript coinbase
  have hnonneg : ∀ v∈(coinbase.txOut.filter fun o => o.pkScript = r.pkScript).map (·.value), 0 ≤ v.toInt := by
    intro v hv
    obtain ⟨o,ho,rfl⟩ := mem_map.mp hv
    exact hsane.nonneg o (mem_filter.mp ho).1
  -- what the reserve block creates goes to the reserve
  have hreserve : ((pegParams g r).pegReserveAt height).toInt ≤ valueTo r.pkScript coinbase := by
    by_cases hpos : 0 < ((pegParams g r).pegReserveAt height).toInt
    · obtain ⟨o,ho,hvalue,hscript⟩ := hpays hpos
      have hamount : ((pegParams g r).pegReserveAt height).toInt = r.amount.toInt := by
        rw [pegReserveAt_eq (r := r) rfl] at hpos ⊢
        split at hpos
        · rw [if_pos ‹_›]
        · simp at hpos
      rw [hamount,← hvalue]
      refine le_exact_of_mem hnonneg (mem_map.mpr ⟨o,?_,rfl⟩)
      exact mem_filter.mpr ⟨ho,by simpa using hscript⟩
    · have := exact_nonneg hnonneg
      unfold valueTo
      omega
  omega

theorem burnedIn_nonneg {tx : MsgTx} (h : Sane tx) : 0 ≤ burnedIn tx := by
  refine sum_nonneg fun v hv => ?_
  obtain ⟨p,hp,rfl⟩ := mem_map.mp hv
  obtain ⟨i,hi,-⟩ := tx.mem_outputs.mp (mem_filter.mp hp).1
  exact h.nonneg _ (mem_of_getElem? hi)

theorem Connects.eq_applyAll {s s' : UtxoSet} {txs : List MsgTx}
    (h : Connects height s txs s') : s' = s.applyAll height txs := by
  induction h with
  | nil => rfl
  | cons _ _ ih => exact ih

theorem Ledger.connect (h : Ledger r.pkScript c blocks) (hbound : ChainBound r c blocks.length)
    (hok : TemplateOk rules (pegParams g r) cps now c block blockHeight)
    (hc : c.connectTip (newBlockNode (rules.blockHash block.header) block.header c.nodes) block = .ok c')
    (hinj : CollisionFree (chainTxs (block::blocks))) : Ledger r.pkScript c' (block::blocks) := by
  obtain ⟨coinbase,rest,s',htxs,hcb,hrest,hsane,hconn,hlt,hcheck,-⟩ := hok.connects hbound.not_lt_bip0034
  obtain ⟨-,-,hutxos⟩ := connectTip_ok hc hconn
  have hheight := hok.coinbaseHeight hbound.not_lt_bip0034 htxs
  have hchain : chainTxs (block::blocks) = coinbase::rest++chainTxs blocks := by
    rw [chainTxs,flatMap_cons,htxs]
    rfl
  have hperm : (rest++coinbase::chainTxs blocks).Perm (coinbase::rest++chainTxs blocks) := perm_middle
  rw [hchain] at hinj
  have happlied := hconn.eq_applyAll
  have hfeesnonneg := hconn.fees_nonneg
  have hfeesExact := toInt_total hfeesnonneg hlt
  have hsaneall : ∀ tx∈block.transactions, Sane tx := (checkBlockSanity_ok hok.sanity).2
  have hne := checkBlockSanity_inputs hok.sanity
  rw [htxs] at hconn hne
  obtain _ | ⟨hspends,htail⟩ := hconn
  have hdistinct : Distinct c blocks := ⟨h.provenance,h.heights,hbound.toInt_nextHeight⟩
  have hfresh := hdistinct.fresh_coinbase hcb hheight ((hinj.mono hperm.subset).mono (subset_append_right ..))
  obtain ⟨hprov,hsupply⟩ := htail.provenance (h.provenance.apply hspends hfresh) (hinj.mono hperm.subset) hrest
    fun tx htx => hne tx (mem_cons_of_mem _ htx)
  -- the coinbase has no inputs and no fee
  have hfirst := h.provenance.supply_apply hspends hfresh (nextHeight c.nodes)
  have hin : valueIn c.utxos coinbase = 0 := by simp [valueIn,amountsIn,inputs,hcb]
  have hfees : exact (feesOf (nextHeight c.nodes) c.utxos block.transactions) =
      exact (feesOf (nextHeight c.nodes) (c.utxos.apply coinbase (nextHeight c.nodes)) rest) := by
    have hzero : (feeOf coinbase (amountsIn c.utxos coinbase)).toInt = 0 := by simp [feeOf,hcb]
    rw [htxs,feesOf,exact_cons,hzero,zero_add]
  have hnone : rest.filter isCoinbase = [] := filter_eq_nil_iff.mpr fun tx htx => by simp [hrest tx htx]
  have hcoinbases : (coinbase::rest).filter isCoinbase = [coinbase] := by
    rw [filter_cons_of_pos hcb,hnone]
  have hunclaimed : unclaimedFees r.pkScript block blocks =
      exact (feesOf (nextHeight c.nodes) c.utxos block.transactions)-valueElsewhere r.pkScript coinbase := by
    rw [unclaimedFees,hbound.heightAfter_eq,← h.utxos_eq,htxs,hcoinbases,map_singleton,sum_singleton]
  have hsplit := valueTo_add_valueElsewhere r.pkScript coinbase
  have helse := valueElsewhere_le hsane (hfeesExact ▸ exact_nonneg hfeesnonneg) hcheck
  have hlost := h.lost_nonneg
  have hburned : 0 ≤ (block.transactions.map burnedIn).sum := by
    refine sum_nonneg fun v hv => ?_
    obtain ⟨tx,htx,rfl⟩ := mem_map.mp hv
    exact burnedIn_nonneg (hsaneall tx htx)
  refine ⟨hutxos ▸ hchain ▸ hprov.perm hperm,hdistinct.heights_cons htxs hrest hheight,?_,?_,?_⟩
  · rw [hutxos,utxosAfter,hbound.heightAfter_eq,← h.utxos_eq,happlied]
  · have hcreated : created r.pkScript (block::blocks) = valueTo r.pkScript coinbase+created r.pkScript blocks := by
      rw [created,hchain,filter_append,hcoinbases,map_append,sum_append]
      simp [created]
    have hbooks := h.books
    have hburn : (block.transactions.map burnedIn).sum =
        burnedIn coinbase+(rest.map burnedIn).sum := by rw [htxs,map_cons,sum_cons]
    rw [hcreated,hutxos,lost,hunclaimed,hburn]
    omega
  · rw [lost,hunclaimed]
    rw [hfeesExact] at helse
    omega

theorem Accepted.ledger (h : Accepted rules (pegParams g r) cps c blocks)
    (hinj : CollisionFree (chainTxs blocks)) : Ledger r.pkScript c blocks := by
  induction h with
  | genesis header _ =>
    exact ⟨⟨by simp [chainTxs], by simp, by simp [chainTxs]⟩,by simp [chainTxs], rfl, rfl, le_rfl⟩
  | @connect c c' blocks chain now lookupNode cache block blockHeight accepts connects ih =>
    exact (ih hinj.of_cons).connect chain.chainBound (checkConnectBlockTemplate_ok accepts) connects hinj

/-! ## Transaction IDs -/

theorem Connects.append {s s' : UtxoSet}
    (h : Connects height s (pre++post) s') : ∃ s₁, Connects height s pre s₁ := by
  induction pre generalizing s with
  | nil => exact ⟨s,.nil s⟩
  | cons tx pre ih =>
    obtain _ | ⟨hspends,htail⟩ := h
    obtain ⟨s₁,hs₁⟩ := ih htail
    exact ⟨s₁,.cons hspends hs₁⟩

omit [Hashing] in
theorem not_lt_bip0034Height (hp : p.bip0034Height=0) (h : (nextHeight c.nodes).toInt=blocks.length+1) :
    ¬ nextHeight c.nodes < p.bip0034Height := by
  rw [hp,Int32.lt_iff_toInt_lt,h,Int32.toInt_zero]
  omega

theorem Distinct.connects (h : Distinct c blocks) (hp : p.bip0034Height=0)
    (hok : TemplateOk rules p cps now c block blockHeight) (hinj : CollisionFree (chainTxs (block::blocks)))
    (hsplit : block.transactions=pre++post) :
    ∃ s, Connects (nextHeight c.nodes) c.utxos pre s ∧ Provenance (pre++chainTxs blocks) s := by
  have hbip := not_lt_bip0034Height hp h.next
  obtain ⟨coinbase,rest,s',htxs,hcb,hrest,-,hconn,-⟩ := hok.connects hbip
  have hne := checkBlockSanity_inputs hok.sanity
  rw [hsplit] at hconn hne
  obtain ⟨s,hs⟩ := hconn.append
  refine ⟨s,hs,?_⟩
  rw [chainTxs,flatMap_cons,hsplit] at hinj
  cases pre with
  | nil =>
    cases hs
    exact h.provenance
  | cons first pre =>
    obtain ⟨rfl,rfl⟩ := cons.inj (hsplit.symm.trans htxs)
    obtain _ | ⟨hspends,htail⟩ := hs
    have hsub : pre++first::chainTxs blocks ⊆ first::pre++post++chainTxs blocks := by
      intro t ht
      rw [mem_append,mem_cons] at ht
      simp only [mem_append,mem_cons]
      tauto
    have hfresh := h.fresh_coinbase hcb (hok.coinbaseHeight hbip htxs)
      ((hinj.mono hsub).mono (subset_append_right ..))
    exact (htail.provenance (h.provenance.apply hspends hfresh) (hinj.mono hsub)
      (fun t ht => hrest t (mem_append_left _ ht)) fun t ht => hne t (by simp [ht])).1.perm perm_middle

theorem Accepted.distinct (hp : p.bip0034Height=0) (h : Accepted rules p cps c blocks)
    (hinj : CollisionFree (chainTxs blocks)) : Distinct c blocks := by
  induction h with
  | genesis header _ => exact ⟨⟨by simp [chainTxs], by simp, by simp [chainTxs]⟩,by simp [chainTxs], rfl⟩
  | @connect c c' blocks chain now lookupNode cache block blockHeight accepts connects ih =>
    have hok := checkConnectBlockTemplate_ok accepts
    have hdistinct := ih hinj.of_cons
    obtain ⟨s,hconn,hprov⟩ := hdistinct.connects hp hok hinj (append_nil _).symm
    obtain ⟨hslice,hnodes,hutxos⟩ := connectTip_ok connects hconn
    have hbip := not_lt_bip0034Height hp hdistinct.next
    obtain ⟨coinbase,rest,-,htxs,-,hrest,-⟩ := hok.connects hbip
    refine ⟨hutxos ▸ hprov,hdistinct.heights_cons htxs hrest (hok.coinbaseHeight hbip htxs),?_⟩
    have hnext : nextHeight c'.nodes = nextHeight c.nodes+1 := by
      rw [hnodes]
      rfl
    have hheight := hdistinct.next
    rw [hnext,toInt_add_one_of_slice (by omega) hslice,hheight,length_cons]
    push_cast
    rfl

/-- A block accepted on a chain of the network, where `checkBIP0030` does not run: no two
transactions of the chain have one ID, and connecting the block overwrites no unspent
output. -/
theorem txids_distinct (reserve : Option PegReserve)
    (h : Accepted rules { dogecoinVMParams g with pegReserve := reserve } cps c blocks)
    {lookupNode : Hash → Option BlockNode} {cache : CheckpointCache}
    (accepts : (checkConnectBlockTemplate rules { dogecoinVMParams g with pegReserve := reserve } cps now c lookupNode
      cache block blockHeight).1 = .ok ())
    (hinj : CollisionFree (chainTxs (block::blocks))) :
    ¬ nextHeight c.nodes < (dogecoinVMParams g).bip0034Height ∧ ((chainTxs (block::blocks)).map txHash).Nodup ∧
      ∀ pre tx post, block.transactions = pre++tx::post →
        ∃ s, UtxoSet.connectTransactions (nextHeight c.nodes) c.utxos pre = .ok s ∧
          ∀ o∈tx.outputs, s.lookup o.1 = none := by
  have hdistinct := h.distinct rfl hinj.of_cons
  have hok := checkConnectBlockTemplate_ok accepts
  have hconnects {pre post : List MsgTx} (hsplit : block.transactions=pre++post) :=
    hdistinct.connects rfl hok hinj hsplit
  obtain ⟨_,-,hprov⟩ := hconnects (append_nil _).symm
  refine ⟨not_lt_bip0034Height (p := dogecoinVMParams g) rfl hdistinct.next,hprov.nodup,fun pre tx post hsplit => ?_⟩
  obtain ⟨s,hs,hpre⟩ := hconnects hsplit
  have hnodup := hprov.nodup
  rw [hsplit,append_assoc,cons_append] at hnodup
  refine ⟨s,hs.connectTransactions,fun o ho => hpre.lookup_of_fresh (fun hmem => ?_) (tx.hash_of_mem_outputs ho)⟩
  rw [map_append,map_cons,nodup_middle,nodup_cons] at hnodup
  refine hnodup.1 ?_
  simp only [map_append,mem_append] at hmem ⊢
  exact hmem.imp_right .inr

theorem Distinct.nodup_spent (h : Distinct c blocks) (hp : p.bip0034Height=0)
    (hok : TemplateOk rules p cps now c block blockHeight) (hinj : CollisionFree (chainTxs (block::blocks)))
    (hold : ((chainTxs blocks).flatMap inputs).Nodup) (hsplit : block.transactions=pre++post) :
    ((pre++chainTxs blocks).flatMap inputs).Nodup := by
  induction pre using List.reverseRecOn generalizing post with
  | nil => exact hold
  | append_singleton pre tx ih =>
    rw [append_assoc] at hsplit
    obtain ⟨s,hs,hprov⟩ := h.connects hp hok hinj hsplit
    obtain ⟨_,hall,-⟩ := h.connects hp hok hinj (append_nil _).symm
    have hspends := hall.spends hsplit
    rw [← hs.eq_applyAll] at hspends
    rw [append_assoc,singleton_append,(perm_middle.flatMap_right inputs).nodup_iff,flatMap_cons,nodup_append]
    refine ⟨hspends.sane.nodup_inputs,ih hsplit,fun op hop _ hspent => ?_⟩
    rintro rfl
    obtain ⟨u,hu,hin⟩ := mem_flatMap.mp hspent
    obtain ⟨e,he,-⟩ := hspends.found op hop
    cases he.symm.trans (hprov.spent u hu op hin).1

/-- No output is spent twice on an accepted chain, and what is unspent is an output of its transactions
that none spends. -/
theorem spent_once (hp : p.bip0034Height=0) (h : Accepted rules p cps c blocks)
    (hinj : CollisionFree (chainTxs blocks)) : ((chainTxs blocks).flatMap inputs).Nodup ∧
      ∀ op e, c.utxos.lookup op = some e → op ∉ (chainTxs blocks).flatMap inputs ∧
        ∃ tx∈chainTxs blocks, (op,⟨e.amount,e.pkScript⟩)∈tx.outputs := by
  refine ⟨?_,fun op e he => ⟨fun hspent => ?_, ?_⟩⟩
  · induction h with
    | genesis => exact .nil
    | @connect _ _ blocks chain _ _ _ _ _ accepts _ ih =>
      exact (chain.distinct hp hinj.of_cons).nodup_spent hp (checkConnectBlockTemplate_ok accepts) hinj
        (ih hinj.of_cons) (append_nil _).symm
  · obtain ⟨u,hu,hin⟩ := mem_flatMap.mp hspent
    cases he.symm.trans ((h.distinct hp hinj).provenance.spent u hu op hin).1
  · obtain ⟨tx,htx,⟨_,_⟩,hout,rfl,rfl⟩ := (h.distinct hp hinj).provenance.origin op e he
    exact ⟨tx,htx,hout⟩

end

end

section Sample

attribute [local instance] sampleHashing

theorem sampleChain2_txids : ((chainTxs [sampleBlock2,sampleBlock1]).map txHash).Nodup := by
  obtain _ | ⟨chain,now,lookupNode,cache,_,height,accepts,-⟩ := sampleChain2_accepted
  exact (txids_distinct (some sampleReserve) chain accepts (by unfold CollisionFree; decide +kernel)).2.1

theorem sampleChain2_spent_once : ((chainTxs [sampleBlock2,sampleBlock1]).flatMap inputs).Nodup :=
  (spent_once rfl sampleChain2_accepted (by unfold CollisionFree; decide +kernel)).1

end Sample

end DogePeg.Node
