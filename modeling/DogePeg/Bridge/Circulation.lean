import DogePeg.Bridge.Books
import DogePeg.Node.Ledger

/-!
# What circulates on DogecoinVM

The bridge takes what the coinbases paid to the reserve, less what the reserve still
holds, for what circulates. The consensus rules account for the same value from the other
side: what is unspent outside the reserve, and what was lost on the way.
-/

namespace DogePeg

open Amounts Holdings Node List

variable {blocks : List MsgBlock}

section

variable [Hashing]

def heldAt (script : Script) (s : UtxoSet) : ℤ :=
  weight (fun _ e => if e.pkScript = script then e.amount.toInt else 0) s

def heldOutside (script : Script) (s : UtxoSet) : ℤ :=
  weight (fun _ e => if e.pkScript = script then 0 else e.amount.toInt) s

omit [Hashing] in
theorem heldAt_add_heldOutside (script : Script) (s : UtxoSet) : heldAt script s+heldOutside script s = s.supply := by
  rw [heldAt,heldOutside,UtxoSet.supply,weight,weight,weight,← sum_map_add]
  refine sum_congr fun e _ => ?_
  rw [worth]
  split
  · rw [add_zero]
  · rw [zero_add]

/-- The address index at the tip of a chain with the transactions `txs` and nothing in the
mempool: it lists only these, and each that pays `script`. -/
structure Indexed (script : Script) (txs : List MsgTx) (l : Listing) : Prop where
  listed : ∀ t∈l.txs, t.tx∈txs ∧ 0 < t.confirmations
  complete : ∀ tx∈txs, coinPoints script tx ≠ [] → ∃ t∈l.txs, t.tx = tx

variable {script : Script} {txs : List MsgTx} {l : Listing}

theorem valueTo_eq_zero {tx : MsgTx} (h : coinPoints script tx=[]) : valueTo script tx = 0 := by
  have hnone : (tx.txOut.filter fun o => o.pkScript = script) = [] := by
    rw [filter_eq_nil_iff]
    intro o ho hs
    obtain ⟨i,hi⟩ := List.getElem?_of_mem ho
    have hmem : tx.outPoint i ∈ coinPoints script tx :=
      mem_coinPoints.mpr ⟨o,tx.mem_outputs.mpr ⟨i,hi,rfl⟩,by simpa using hs⟩
    rw [h] at hmem
    cases hmem
  rw [valueTo,hnone]
  rfl

theorem Indexed.sum_coinbases (h : Indexed script txs l) (hnodup : (txs.map MsgTx.txHash).Nodup) :
    ((l.txs.filter fun t => isCoinbase t.tx && 0 < t.confirmations).map fun t => valueTo script t.tx).sum =
      ((txs.filter isCoinbase).map (valueTo script)).sum := by
  have hperm : ((l.txs.map (·.tx)).filter fun tx =>
        isCoinbase tx && decide (coinPoints script tx ≠ [])).Perm
      (txs.filter fun tx => isCoinbase tx && decide (coinPoints script tx ≠ [])) := by
    rw [perm_ext_iff_of_nodup]
    · intro tx
      simp only [mem_filter,Bool.and_eq_true,decide_eq_true_eq]
      refine and_congr_left fun hpays => ?_
      constructor
      · rw [mem_map]
        rintro ⟨t,ht,rfl⟩
        exact (h.listed t ht).1
      · intro htx
        obtain ⟨t,ht,rfl⟩ := h.complete tx htx hpays.2
        exact mem_map_of_mem ht
    · have hn : ((l.txs.map (·.tx)).map MsgTx.txHash).Nodup := by
        rw [map_map]
        exact l.nodup
      exact (hn.of_map _).filter _
    · exact (hnodup.of_map _).filter _
  -- one that pays the reserve nothing adds nothing
  have hzero (tx : MsgTx) : (if isCoinbase tx then valueTo script tx else 0) =
      if isCoinbase tx && decide (coinPoints script tx ≠ []) then valueTo script tx else 0 := by
    by_cases hp : coinPoints script tx = []
    · simp [valueTo_eq_zero hp]
    · simp [hp]
  have hsum := (hperm.map (valueTo script)).sum_eq
  rw [sum_filter,sum_filter,map_map,← sum_congr fun tx _ => hzero tx] at hsum
  rw [sum_filter,sum_filter,← hsum]
  refine sum_congr fun t ht => ?_
  rw [Function.comp_apply,← hzero]
  simp [(h.listed t ht).2]

theorem Indexed.sum_unspent (h : Indexed script txs l) {s : UtxoSet} (hprov : Provenance txs s) :
    (((l.txs.flatMap (coinsTo script)).filter fun u => (s.lookup u.outPoint).isSome).map
      fun u => u.value.toInt).sum = heldAt script s := by
  have hperm : (((l.txs.flatMap (coinsTo script)).filter fun u =>
        (s.lookup u.outPoint).isSome).map fun u => (u.outPoint,u.value)).Perm
      ((s.entries.filter fun e => e.2.pkScript = script).map fun e => (e.1,e.2.amount)) := by
    rw [perm_ext_iff_of_nodup]
    · rintro ⟨op,v⟩
      simp only [mem_map,mem_filter,Prod.mk.injEq]
      constructor
      · rintro ⟨u,⟨hu,hfound⟩,rfl,rfl⟩
        obtain ⟨t,ht,hut⟩ := mem_flatMap.mp hu
        obtain ⟨hout,hscript,-⟩ := mem_coinsTo.mp hut
        obtain ⟨e,he⟩ := Option.isSome_iff_exists.mp hfound
        obtain ⟨tx,htx,out,hout',hamount,hpk⟩ := hprov.origin _ _ he
        -- the hash tells which transaction made it
        have hash : u.outPoint.hash = t.tx.txHash := t.tx.hash_of_mem_outputs hout
        have hash' : u.outPoint.hash = tx.txHash := tx.hash_of_mem_outputs hout'
        have heq : tx = t.tx := inj_on_of_nodup_map hprov.nodup htx (h.listed t ht).1 (hash'.symm.trans hash)
        subst heq
        have hsame := (t.tx.outputAt_eq_some hout').symm.trans (t.tx.outputAt_eq_some hout)
        rw [Option.some.injEq] at hsame
        subst hsame
        refine ⟨⟨u.outPoint,e⟩,⟨AList.mem_lookup_iff.mp he,?_⟩,rfl,hamount⟩
        simpa [hpk] using hscript
      · rintro ⟨⟨op',e⟩,⟨hmem,hscript⟩,rfl,rfl⟩
        have he : s.lookup op' = some e := AList.mem_lookup_iff.mpr hmem
        have hscript : e.pkScript = script := by simpa using hscript
        obtain ⟨tx,htx,out,hout,hamount,hpk⟩ := hprov.origin _ _ he
        have hpoint : op'∈coinPoints script tx := mem_coinPoints.mpr ⟨out,hout,hpk.symm.trans hscript⟩
        obtain ⟨t,ht,rfl⟩ := h.complete tx htx (ne_nil_of_mem hpoint)
        refine ⟨⟨op',out.value,out.pkScript,t.confirmations⟩,⟨?_,by simp [he]⟩,rfl,hamount.symm⟩
        exact mem_flatMap.mpr ⟨t,ht,mem_coinsTo.mpr ⟨hout,hpk.symm.trans hscript,rfl⟩⟩
    · have hn := (l.nodup_coins (· = script)).sublist
        ((filter_sublist (p := fun u => (s.lookup u.outPoint).isSome)).map _)
      refine List.Nodup.of_map Prod.fst ?_
      rwa [map_map]
    · refine List.Nodup.of_map Prod.fst ?_
      rw [map_map]
      exact s.nodupKeys.sublist filter_sublist
  have hsum := (hperm.map fun p => p.2.toInt).sum_eq
  rw [map_map,map_map,sum_filter _ _ s.entries] at hsum
  rw [heldAt,weight]
  refine Eq.trans hsum (sum_congr fun e _ => ?_)
  simp

omit [Hashing] in
theorem isCoinbase_spends {tx : MsgTx} {op : OutPoint} (h : isCoinbase tx=true)
    (hop : op∈tx.spends) : op.index = maxPrevOutIndex := by
  unfold isCoinbase at h
  split at h
  case h_1 i hin =>
    rw [Bool.and_eq_true,decide_eq_true_eq] at h
    rw [MsgTx.spends,hin,map_singleton,mem_singleton] at hop
    rw [hop,h.1]
  case h_2 => cases h

theorem Indexed.not_spent (h : Indexed script txs l) {s : UtxoSet} (hprov : Provenance txs s)
    {u : Utxo} (hu : u∈l.txs.flatMap (coinsTo script)) (hfound : (s.lookup u.outPoint).isSome) :
    Unspent l.txs u.outPoint := by
  intro t ht hspends
  obtain ⟨v,hv,huv⟩ := mem_flatMap.mp hu
  cases hcb : isCoinbase t.tx with
  | false =>
    have hin : u.outPoint∈inputs t.tx := by simpa [inputs,hcb] using hspends
    rw [(hprov.spent _ (h.listed t ht).1 _ hin).1] at hfound
    cases hfound
  | true =>
    -- no output has the index of a coinbase's input
    obtain ⟨i,hi,hop⟩ := v.tx.mem_outputs.mp (mem_coinsTo.mp huv).1
    have hlt := (List.getElem?_eq_some_iff.mp hi).1
    have hindex := v.tx.outPoint_index_toNat hlt
    have hle := v.tx.outputs_le
    rw [← hop,isCoinbase_spends hcb hspends] at hindex
    unfold maxTxOutPerMessage at hle
    have hmax : maxPrevOutIndex.toNat = 4294967295 := rfl
    omega

omit [Hashing] in
theorem paidTo_eq_ofInt (script : Script) (tx : MsgTx) : paidTo script tx = Int64.ofInt (valueTo script tx) := by
  rw [paidTo,total_eq_sum,sum_eq_ofInt,valueTo]

/-- What `load` and `audit` take for the value in circulation, up to wrapping. -/
theorem Indexed.circulating_eq {b : Bridge} {n : Nodes} {c : BestChain}
    (hindex : Indexed b.script (chainTxs blocks) n.vm) (hledger : Ledger b.script c blocks)
    (hget : ∀ op, n.gettxout op = (c.utxos.lookup op).isSome) :
    (b.load n).circulating = Int64.ofInt (heldOutside b.script c.utxos+lost b.script blocks) := by
  have hcreated : (b.load n).reserveCreated = Int64.ofInt (created b.script blocks) := by
    have hdef : (b.load n).reserveCreated = total ((n.vm.txs.filter fun t =>
      isCoinbase t.tx && 0 < t.confirmations).map fun t => paidTo b.script t.tx) := rfl
    rw [hdef,total_eq_sum,sum_congr fun t _ => paidTo_eq_ofInt b.script t.tx, sum_map_ofInt,
      hindex.sum_coinbases hledger.provenance.nodup, created]
  have hheld : (b.load n).reserveUnspent = Int64.ofInt (heldAt b.script c.utxos) := by
    have hall : (b.vmUnspent n.vm.txs n.gettxout).filter (b.reserveHeld n.vm.txs) =
        (n.vm.txs.flatMap (coinsTo b.script)).filter fun u =>
          (c.utxos.lookup u.outPoint).isSome := by
      rw [Bridge.vmUnspent,filter_filter]
      refine filter_congr fun u hu => ?_
      rw [hget]
      cases hfound : (c.utxos.lookup u.outPoint).isSome with
      | false => rw [Bool.and_false]
      | true =>
        obtain ⟨t,ht,hut⟩ := mem_flatMap.mp hu
        have hconf : u.confirmations ≠ 0 := by
          rw [(mem_coinsTo.mp hut).2.2]
          exact (hindex.listed t ht).2.ne'
        simp [Bridge.reserveHeld,not_any_spends,hconf,hindex.not_spent hledger.provenance hu hfound]
    have hdef : (b.load n).reserveUnspent = total (((b.vmUnspent n.vm.txs n.gettxout).filter
      (b.reserveHeld n.vm.txs)).map (·.value)) := rfl
    rw [hdef,hall,total_eq_sum,sum_eq_ofInt,exact,map_map]
    exact congrArg Int64.ofInt (hindex.sum_unspent hledger.provenance)
  have hsplit := heldAt_add_heldOutside b.script c.utxos
  rw [PegState.circulating,hcreated,hheld,← Int64.ofInt_sub,hledger.books,← hsplit]
  congr 1
  omega

/-- Every coinbase pays all fees of its block to other scripts, and nothing is burned. -/
def ClaimsAll (script : Script) (blocks : List MsgBlock) : Prop :=
  ∀ block rest, block::rest <:+ blocks →
    unclaimedFees script block rest = 0 ∧ ∀ tx∈block.transactions, burnedIn tx = 0

theorem ClaimsAll.lost_eq_zero (h : ClaimsAll script blocks) : lost script blocks = 0 := by
  induction blocks with
  | nil => rfl
  | cons block blocks ih =>
    obtain ⟨hfees,hburned⟩ := h block blocks suffix_rfl
    have hrest := ih fun b rest hb => h b rest (hb.trans (suffix_cons block blocks))
    rw [lost,hrest,hfees,sum_eq_zero hburned]
    rfl

/-- The audit does not understate what circulates: on every accepted chain `Circulating` is
at least the value unspent outside the reserve, as long as that value and what was lost on
the way fit an `int64`, and it is that value when nothing was lost. -/
theorem circulating_covers_outside {rules : Rules} {cps : Checkpoints} {g : Hash} {r : PegReserve}
    {c : BestChain} {blocks : List MsgBlock} (b : Bridge) (n : Nodes)
    (haccepted : Accepted rules (pegParams g r) cps c blocks)
    (hinj : CollisionFree (chainTxs blocks)) (hscript : r.pkScript=b.script)
    (hindex : Indexed b.script (chainTxs blocks) n.vm) (hget : ∀ op, n.gettxout op = (c.utxos.lookup op).isSome)
    (hfits : heldOutside b.script c.utxos+lost b.script blocks<2^63) :
    heldOutside b.script c.utxos ≤ (b.load n).audit.circulating.toInt ∧ (ClaimsAll b.script blocks →
        (b.load n).audit.circulating.toInt = heldOutside b.script c.utxos) := by
  have hledger := haccepted.ledger hinj
  rw [hscript] at hledger
  have hlost := hledger.lost_nonneg
  have hout : 0 ≤ heldOutside b.script c.utxos := by
    refine sum_nonneg fun v hv => ?_
    obtain ⟨e,he,rfl⟩ := mem_map.mp hv
    dsimp only
    split
    · exact le_rfl
    · exact haccepted.chainBound.nonneg e.1 e.2 (AList.mem_lookup_iff.mpr he)
  have hcirc : (b.load n).audit.circulating.toInt = heldOutside b.script c.utxos+lost b.script blocks := by
    change (b.load n).circulating.toInt = _
    rw [hindex.circulating_eq hledger hget,toInt_ofInt_of_nonneg (by omega) hfits]
  refine ⟨by omega, fun hclaims => ?_⟩
  rw [hcirc,hclaims.lost_eq_zero,add_zero]

end

/-! ## Eleven reserve blocks, all of them burned as fees -/

section Sample

attribute [local instance] sampleHashing

def burnReserve : PegReserve :=
  ⟨sampleBridge.script,pegReserveAmountPerBlock,11,pegReserveAmountPerBlock_pos,by decide⟩

/-- A block that creates the reserve and spends it at once for a fee that is not claimed. -/
def burnBlock (prevBlock : Hash) (height : ℕ) : MsgBlock :=
  let coinbase := sampleCoinbase (UInt8.ofNat height) pegReserveAmountPerBlock sampleBridge.script
  sampleBlock prevBlock (UInt32.ofNat (1790121600+100*height))
    [coinbase,sampleSpend (coinbase.outPoint 0) 0 [0x52]]

def tipHash (c : BestChain) : Hash := (c.nodes.head?.map (·.hash)).getD 0

def burnChain : ℕ → BestChain × List MsgBlock
  | 0 => (sampleStart,[])
  | n+1 =>
    ((burnChain n).1.connected sampleRules (burnBlock (tipHash (burnChain n).1) (n+1)),
      burnBlock (tipHash (burnChain n).1) (n+1)::(burnChain n).2)

def burnParams : Params := pegParams (sampleRules.blockHash sampleGenesis) burnReserve

def takes (c : BestChain) (block : MsgBlock) : Bool :=
  succeeded (checkConnectBlockTemplate sampleRules burnParams noCheckpoints 1790200000 c
      (fun _ => none) ⟨none,none⟩ block 0).1 &&
    succeeded (c.connectTip (newBlockNode (sampleRules.blockHash block.header) block.header c.nodes) block)

theorem Node.Accepted.takes {c : BestChain} {block : MsgBlock}
    (h : Accepted sampleRules burnParams noCheckpoints c blocks) (ht : takes c block=true) :
    Accepted sampleRules burnParams noCheckpoints (c.connected sampleRules block) (block::blocks) := by
  rw [DogePeg.takes,Bool.and_eq_true] at ht
  exact h.connected 1790200000 block ht.1 ht.2

theorem burnChain_accepted {n : ℕ}
    (h : ∀ k < n, takes (burnChain k).1 (burnBlock (tipHash (burnChain k).1) (k+1)) = true) :
    Accepted sampleRules burnParams noCheckpoints (burnChain n).1 (burnChain n).2 := by
  induction n with
  | zero => exact .genesis sampleGenesis rfl
  | succ n ih =>
    have hchain := ih fun k hk => h k (Nat.lt_succ_of_lt hk)
    have hnext := hchain.takes (h n (Nat.lt_succ_self n))
    rw [burnChain]
    dsimp only
    exact hnext

theorem burn11_accepted : Accepted sampleRules burnParams noCheckpoints (burnChain 11).1 (burnChain 11).2 :=
  burnChain_accepted (by decide +kernel)

def listedTxs (blocks : List MsgBlock) : List ChainTx :=
  blocks.zipIdx.flatMap fun p => p.1.transactions.map fun tx => ⟨tx,p.2+1,0⟩

def nodesAt (c : BestChain) (vm : Listing) : Nodes where
  vm := vm
  gettxout op := (c.utxos.lookup op).isSome
  doge := .empty
  dogeConflicted := []
  dogeUnspent := []

def burnListing : Listing where
  txs := listedTxs (burnChain 11).2
  nodup := by decide +kernel
  nonneg := by decide +kernel

instance (txs : List MsgTx) : Decidable (CollisionFree txs) :=
  inferInstanceAs (Decidable (∀ t∈txs, ∀ u∈txs, t.txHash = u.txHash → t.stripWitness = u.stripWitness))

/-- Nothing is unspent outside the reserve, and `Circulating` has wrapped to a negative
amount. -/
theorem burned_reserve_wraps : Accepted sampleRules burnParams noCheckpoints (burnChain 11).1 (burnChain 11).2 ∧
      CollisionFree (chainTxs (burnChain 11).2) ∧
      Indexed sampleBridge.script (chainTxs (burnChain 11).2) burnListing ∧
      heldOutside sampleBridge.script (burnChain 11).1.utxos = 0 ∧
      (sampleBridge.load (nodesAt (burnChain 11).1 burnListing)).audit.circulating < 0 :=
  ⟨burn11_accepted,by decide +kernel, ⟨by decide +kernel, by decide +kernel⟩, by decide +kernel, by decide +kernel⟩

/-- A block that creates the reserve and pays 100 out of it, without a fee. -/
def payBlock : MsgBlock :=
  let coinbase := sampleCoinbase 1 pegReserveAmountPerBlock sampleBridge.script
  sampleBlock (tipHash sampleStart) 1790121700 [coinbase,{ sampleSpend (coinbase.outPoint 0) 100 [0x52] with
      txOut := [⟨100,[0x52]⟩,⟨pegReserveAmountPerBlock-100,sampleBridge.script⟩]
      outputs_le := by decide }]

def payListing : Listing where
  txs := listedTxs [payBlock]
  nodup := by decide +kernel
  nonneg := by decide +kernel

theorem payBlock_claimsAll : ClaimsAll sampleBridge.script [payBlock] := by
  intro block rest hsuffix
  rcases suffix_cons_iff.mp hsuffix with heq | hnil
  · cases heq
    exact ⟨by decide +kernel, by decide +kernel⟩
  · cases suffix_nil.mp hnil

theorem payBlock_circulating :
    heldOutside sampleBridge.script (sampleStart.connected sampleRules payBlock).utxos = 100 ∧
      (sampleBridge.load (nodesAt (sampleStart.connected sampleRules payBlock)
        payListing)).audit.circulating.toInt = 100 := by
  have hchain : Accepted sampleRules burnParams noCheckpoints (sampleStart.connected sampleRules payBlock) [payBlock] :=
    Accepted.takes (.genesis sampleGenesis rfl) (by decide +kernel)
  have hcovers := circulating_covers_outside sampleBridge
    (nodesAt (sampleStart.connected sampleRules payBlock) payListing) hchain (by decide +kernel) rfl
    ⟨by decide +kernel, by decide +kernel⟩ (fun _ => rfl) (by decide +kernel)
  have hout : heldOutside sampleBridge.script
      (sampleStart.connected sampleRules payBlock).utxos = 100 := by decide +kernel
  exact ⟨hout,(hcovers.2 payBlock_claimsAll).trans hout⟩

end Sample

end DogePeg
