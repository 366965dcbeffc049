import DogePeg.Node.BestChain

/-!
# The supply of the ledger

With the block subsidy off, value enters the ledger only through the peg reserve: the
supply at height `h` is at most the reserve amount times the number of reserve blocks
up to `h`, and no `int64` sum of an accepted block wraps.
-/

namespace DogePeg.Node

open Amounts Holdings Checks List

variable {height : Int32} {s' : UtxoSet} {now : ℤ} {block : MsgBlock} {s : UtxoSet} {blockHeight : Int32}
  {coinbase : MsgTx} {c : BestChain} {n : ℕ}

section

variable [Hashing]

def UtxoSet.applyAll (height : Int32) (s : UtxoSet) (txs : List MsgTx) : UtxoSet :=
  txs.foldl (fun s tx => s.apply tx height) s

/-- The coinbase of the block pays the reserve amount to the reserve script in one output. -/
def PaysReserve (r : PegReserve) (block : MsgBlock) : Prop :=
  ∃ coinbase, block.transactions.head? = some coinbase ∧
    ∃ o∈coinbase.txOut, o.value = r.amount ∧ o.pkScript = r.pkScript

/-- Every `int64` accumulator of the validation of a block holds the exact sum, after
every step of its loop. -/
structure ExactSums (p : Params) (height : Int32) (s : UtxoSet) (txs : List MsgTx) : Prop where
  outputs : ∀ tx∈txs, ∀ k, (total ((tx.txOut.map (·.value)).take k)).toInt =
    exact ((tx.txOut.map (·.value)).take k)
  inputs : ∀ pre tx post, txs = pre++tx::post → ∀ k,
    (total ((amountsIn (s.applyAll height pre) tx).take k)).toInt =
      exact ((amountsIn (s.applyAll height pre) tx).take k)
  fee : ∀ pre tx post, txs = pre++tx::post → isCoinbase tx = false →
    (feeOf tx (amountsIn (s.applyAll height pre) tx)).toInt =
      valueIn (s.applyAll height pre) tx-valueOut tx
  fees : ∀ k, (total ((feesOf height s txs).take k)).toInt = exact ((feesOf height s txs).take k)
  expected : (calcBlockSubsidy height p+total (feesOf height s txs) +
      p.pegReserveAt height).toInt =
    (calcBlockSubsidy height p).toInt+exact (feesOf height s txs)+(p.pegReserveAt height).toInt

/-- The fee loop of `checkConnectBlock` on a block after `c` ends with the sum of the fees
of its transactions. -/
def FeeLoop (p : Params) (c : BestChain) (block : MsgBlock) (blockHeight : Int32) : Prop :=
  ∃ view, connectFees p (nextHeight c.nodes) ((UtxoView.new block.header.prevBlock).fetchInputUtxos
      c.utxos block.transactions blockHeight,0) block.transactions =
    .ok (view,total (feesOf (nextHeight c.nodes) c.utxos block.transactions))

section

variable {rules : Rules} {p : Params} {cps : Checkpoints}

theorem checkBlockSanity_ok (h : checkBlockSanity rules now block = .ok ()) :
    (∃ coinbase rest, block.transactions = coinbase::rest ∧ isCoinbase coinbase = true ∧
      ∀ tx∈rest, isCoinbase tx = false) ∧ ∀ tx∈block.transactions, Sane tx := by
  simp only [checkBlockSanity,checks_ok,require_eq_ok] at h
  obtain ⟨-,-,-,-,hfirst,hrest,hsane,-⟩ := h
  constructor
  · cases htxs : block.transactions with
    | nil => simp [htxs] at hfirst
    | cons coinbase rest =>
      refine ⟨coinbase,rest,rfl,by simpa [htxs] using hfirst, ?_⟩
      simpa [htxs] using hrest
  · intro tx htx
    exact checkTransactionSanity_ok (forM_eq_ok.mp hsane tx htx)

/-- The fee loop and the coinbase checks of an accepted block, at a height where
BIP0034 is active. -/
theorem checkConnectBlock_ok {node : BlockNode} {prev : List BlockNode} {view view' : UtxoView}
    (h : checkConnectBlock rules p cps s node prev block view blockHeight = .ok view')
    (hbip : ¬ node.height<p.bip0034Height) : ∃ r, connectFees p node.height
        (view.fetchInputUtxos s block.transactions blockHeight,0) block.transactions = .ok r ∧
      checkCoinbaseValue p node.height block.transactions r.2 = .ok () := by
  simp only [checkConnectBlock,checks_ok,require_eq_ok,hbip,and_false,↓reduceIte,Except.ok.injEq] at h
  obtain ⟨-,-,_,rfl,_,-,-,r,hfees,hcoinbase,-⟩ := h
  exact ⟨r,hfees,hcoinbase⟩

theorem agree_fetchInputUtxos {hash : Hash} {rest : List MsgTx} (hc : isCoinbase coinbase=true) :
    Agree ((UtxoView.new hash).fetchInputUtxos s (coinbase::rest) blockHeight) s (coinbase::rest) := by
  intro pre tx post hsplit op hop hpre e he
  cases pre with
  | nil =>
    -- the coinbase has no inputs
    cases hsplit
    simp [inputs,hc] at hop
  | cons first pre =>
    cases hsplit
    have hspends : op∈tx.spends := by
      unfold inputs at hop
      split at hop
      · cases hop
      · exact hop
    apply UtxoView.unspent_fetchInputUtxos (i := pre.length) _ _ he
    · refine mem_flatMap.mpr ⟨(tx,pre.length),?_,mem_map.mpr ⟨op,hspends,rfl⟩⟩
      rw [mem_zipIdx_iff_getElem?]
      simp
    · intro j hj u hu
      have hlt : j < (coinbase::pre).length := by
        simp
        omega
      have hu' : ((coinbase::pre)++tx::post)[j]? = some u := hu
      rw [List.getElem?_append_left hlt] at hu'
      exact hpre u (mem_of_getElem? hu')

omit [Hashing] in
theorem coinbaseOut_block {rest : List MsgTx}
    (hc : isCoinbase coinbase=true) (hrest : ∀ tx∈rest, isCoinbase tx = false) :
    coinbaseOut (coinbase::rest) = valueOut coinbase := by
  have hnone : rest.filter isCoinbase = [] := by
    rw [filter_eq_nil_iff]
    intro tx htx
    simp [hrest tx htx]
  rw [coinbaseOut_cons,if_pos hc,coinbaseOut,hnone]
  simp

theorem TemplateOk.connects (h : TemplateOk rules p cps now c block blockHeight)
    (hbip : ¬ nextHeight c.nodes<p.bip0034Height) :
    ∃ coinbase rest s', block.transactions = coinbase::rest ∧ isCoinbase coinbase = true ∧
      (∀ tx∈rest, isCoinbase tx = false) ∧ Sane coinbase ∧
      Connects (nextHeight c.nodes) c.utxos block.transactions s' ∧
      exact (feesOf (nextHeight c.nodes) c.utxos block.transactions) < 2^63 ∧
      checkCoinbase p (nextHeight c.nodes) coinbase
        (total (feesOf (nextHeight c.nodes) c.utxos block.transactions)) = .ok () ∧
      FeeLoop p c block blockHeight := by
  obtain ⟨⟨coinbase,rest,htxs,hc,hrest⟩,hsane⟩ := checkBlockSanity_ok h.sanity
  obtain ⟨view,hview⟩ := h.connect
  obtain ⟨r,hr,hcoinbase⟩ := checkConnectBlock_ok hview hbip
  rw [htxs] at hr hcoinbase hsane
  obtain ⟨⟨s',hs'⟩,hfold,hexact⟩ := connectFees_run hsane (agree_fetchInputUtxos hc) (by simp) hr
  rw [Int64.toInt_zero,zero_add] at hexact
  refine ⟨coinbase,rest,s',htxs,hc,hrest,hsane coinbase (by simp),htxs ▸ hs',?_,?_,?_⟩
  · rw [htxs]
    exact hexact ▸ r.2.toInt_lt
  · rw [htxs]
    change checkCoinbase p (nextHeight c.nodes) coinbase r.2 = .ok () at hcoinbase
    rw [hfold] at hcoinbase
    exact hcoinbase
  · rw [FeeLoop,htxs]
    exact ⟨r.1,hr.trans (congrArg Except.ok (Prod.ext rfl hfold))⟩

omit [Hashing] in
/-- The coinbase checks pass only on sums that have not wrapped: a wrapped expected
value is negative and below any coinbase's outputs. -/
theorem checkCoinbase_ok {r : PegReserve} (hr : p.pegReserve=some r) (hsub : p.noBlockSubsidy=true) {fees : Int64}
    (hsane : Sane coinbase) (hfees : 0≤fees.toInt) (h : checkCoinbase p height coinbase fees = .ok ()) :
    (calcBlockSubsidy height p+fees+p.pegReserveAt height).toInt =
        (calcBlockSubsidy height p).toInt+fees.toInt+(p.pegReserveAt height).toInt ∧
      valueOut coinbase ≤ fees.toInt+(p.pegReserveAt height).toInt ∧
      (0 < (p.pegReserveAt height).toInt → ∃ o∈coinbase.txOut, o.value = r.amount ∧ o.pkScript = r.pkScript) := by
  simp only [checkCoinbase,checks_ok,require_eq_ok,decide_eq_true_eq,hr] at h
  obtain ⟨hle,hreserve⟩ := h
  have hamount : 0 ≤ (p.pegReserveAt height).toInt := by
    have hpos := pos_iff.mp r.amount_pos
    rw [pegReserveAt_eq hr]
    split
    · exact Int.le_of_lt hpos
    · simp
  have hzero : calcBlockSubsidy height p = 0 := calcBlockSubsidy_off hsub height
  have hout : 0 ≤ valueOut coinbase := exact_nonneg hsane.values_nonneg
  rw [Int64.le_iff_toInt_le,hsane.toInt_total,hzero,Int64.zero_add] at hle
  have hadd := toInt_add_of_nonneg hfees hamount (by omega)
  rw [hzero,Int64.zero_add,hadd,Int64.toInt_zero]
  refine ⟨by omega, by omega, ?_⟩
  intro hpos
  rw [if_pos (pos_iff.mpr hpos),checkPegReserveOutput,require_eq_ok,any_eq_true] at hreserve
  obtain ⟨o,ho,heq⟩ := hreserve
  exact ⟨o,ho,by simpa using heq⟩

theorem Connects.spends {txs : List MsgTx}
    (h : Connects height s txs s') {pre : List MsgTx} {tx : MsgTx} {post : List MsgTx}
    (hsplit : txs=pre++tx::post) : Spends (s.applyAll height pre) tx := by
  induction h generalizing pre with
  | nil s => simp at hsplit
  | cons hspends _ ih =>
    cases pre with
    | nil =>
      cases hsplit
      exact hspends
    | cons first pre =>
      cases hsplit
      exact ih rfl

/-- No accumulator wraps in a block that connects with fees that fit and passes the
coinbase checks. -/
theorem exactSums_of_connects {r : PegReserve} (hr : p.pegReserve=some r) (hsub : p.noBlockSubsidy=true)
    {txs : List MsgTx} (hsane : Sane coinbase) (hconn : Connects height s txs s')
    (hlt : exact (feesOf height s txs)<2^63)
    (h : checkCoinbase p height coinbase (total (feesOf height s txs)) = .ok ()) : ExactSums p height s txs where
  outputs := by
    intro tx htx k
    obtain ⟨pre,post,hsplit⟩ := append_of_mem htx
    have htx := (hconn.spends hsplit).sane
    apply toInt_total_take htx.values_nonneg
    have := htx.le_max
    unfold valueOut at this
    omega
  inputs := by
    intro pre tx post hsplit k
    have htx := hconn.spends hsplit
    exact toInt_total_take htx.amounts_nonneg htx.fits k
  fee := by
    intro pre tx post hsplit hc
    rw [(hconn.spends hsplit).toInt_feeOf,hc]
    rfl
  fees := toInt_total_take hconn.fees_nonneg hlt
  expected := by
    have htotal := toInt_total hconn.fees_nonneg hlt
    have hfees : 0 ≤ (total (feesOf height s txs)).toInt := by
      rw [htotal]
      exact exact_nonneg hconn.fees_nonneg
    rw [(checkCoinbase_ok hr hsub hsane hfees h).1,htotal]

end

/-! ## Whole chains -/

section

variable {rules : Rules} {cps : Checkpoints} {g : Hash} {r : PegReserve}

def pegParams (g : Hash) (r : PegReserve) : Params :=
  { dogecoinVMParams g with pegReserve := some r }

/-- What every accepted chain of `n` blocks keeps: the height of its tip is `n`, with room
for another block below `2 ^ 31`, and the supply is bounded by the reserve. -/
structure ChainBound (r : PegReserve) (c : BestChain) (n : ℕ) : Prop where
  height : (c.nodes.head?.map (·.height.toInt)) = some (n : ℤ)
  room : (n : ℤ)+1 < 2^31
  nonneg : Nonneg worth c.utxos
  supply_le : c.utxos.supply ≤ r.amount.toInt*min (n : ℤ) r.blocks.toInt

omit [Hashing] in
theorem toInt_add_one {a : Int32} (hlo : 0≤a.toInt) (hhi : a.toInt+1<2^31) : (a+1).toInt = a.toInt+1 := by
  have h1 : (1 : Int32).toInt = 1 := rfl
  rw [Int32.toInt_add,h1]
  apply Int.bmod_eq_of_le <;> norm_num <;> omega

omit [Hashing] in
theorem toInt_add_one_of_slice {a : Int32} (hlo : 0≤a.toInt) (h : ¬ a+1<0) : (a+1).toInt = a.toInt+1 := by
  have h1 : (1 : Int32).toInt = 1 := rfl
  have hlt := a.toInt_lt
  rw [Int32.lt_iff_toInt_lt,Int32.toInt_add,h1,Int32.toInt_zero,Int.bmod_def] at h
  refine toInt_add_one hlo ?_
  split at h <;> omega

omit [Hashing] in
theorem ChainBound.toInt_nextHeight (h : ChainBound r c n) : (nextHeight c.nodes).toInt = n+1 := by
  obtain ⟨tip,htip,hheight⟩ := Option.map_eq_some_iff.mp h.height
  have hroom := h.room
  simp only [nextHeight,htip,Option.map_some,Option.getD_some]
  rw [toInt_add_one (by omega) (by omega)]
  omega

omit [Hashing] in
theorem ChainBound.toInt_pegReserveAt (h : ChainBound r c n) :
    ((pegParams g r).pegReserveAt (nextHeight c.nodes)).toInt =
      if (n : ℤ)+1 ≤ r.blocks.toInt then r.amount.toInt else 0 := by
  rw [pegReserveAt_eq (r := r) rfl,h.toInt_nextHeight]
  split <;> split <;> first | rfl | omega

omit [Hashing] in
theorem ChainBound.not_lt_bip0034 (h : ChainBound r c n) :
    ¬ nextHeight c.nodes < (pegParams g r).bip0034Height := by
  have hheight := h.toInt_nextHeight
  have h0 : (pegParams g r).bip0034Height.toInt = 0 := rfl
  rw [Int32.lt_iff_toInt_lt,hheight,h0]
  omega

omit [Hashing] in
private theorem bound_step {a n b x y f out : ℤ} (hx : x≤a*min n b)
    (hy : y≤x+out-f) (hout : out ≤ f+if n+1 ≤ b then a else 0) : y ≤ a*min (n+1) b := by
  split at hout
  · rw [min_eq_left (by omega)] at hx ⊢
    rw [mul_add]
    omega
  · rw [min_eq_right (by omega)] at hx ⊢
    omega

theorem connectTip_ok {c' : BestChain} {hash : Hash}
    (hc : c.connectTip (newBlockNode hash block.header c.nodes) block = .ok c')
    (hconn : Connects (nextHeight c.nodes) c.utxos block.transactions s') :
    ¬ nextHeight c.nodes+1 < 0 ∧ c'.nodes = newBlockNode hash block.header c.nodes::c.nodes ∧ c'.utxos = s' := by
  simp only [BestChain.connectTip,bind_eq_ok] at hc
  obtain ⟨utxos,hutxos,hnodes⟩ := hc
  have hsame : utxos = s' := by
    have := hconn.connectTransactions
    change UtxoSet.connectTransactions (nextHeight c.nodes) _ _ = _ at hutxos
    rw [hutxos] at this
    exact Except.ok.inj this
  split at hnodes
  case isTrue => cases hnodes
  case isFalse hslice =>
    cases hnodes
    exact ⟨hslice,rfl,hsame⟩

theorem ChainBound.connect {c' : BestChain} (h : ChainBound r c n)
    (hok : TemplateOk rules (pegParams g r) cps now c block blockHeight)
    (hc : c.connectTip (newBlockNode (rules.blockHash block.header) block.header c.nodes) block =
      .ok c') : ChainBound r c' (n+1) := by
  obtain ⟨coinbase,rest,s',htxs,hcb,hrest,hsane,hconn,hlt,hcheck,hloop⟩ := hok.connects h.not_lt_bip0034
  have hheight := h.toInt_nextHeight
  obtain ⟨hslice,hnodes,hsame⟩ := connectTip_ok hc hconn
  have hfees := toInt_total hconn.fees_nonneg hlt
  have hpos : 0 ≤ exact (feesOf (nextHeight c.nodes) c.utxos block.transactions) := exact_nonneg hconn.fees_nonneg
  have hvalue := (checkCoinbase_ok (p := pegParams g r) rfl rfl hsane (by omega) hcheck).2.1
  have hsupply := hconn.supply_le h.nonneg
  rw [h.toInt_pegReserveAt,hfees] at hvalue
  refine ⟨?_,?_,?_,?_⟩
  · simp [hnodes,newBlockNode,← nextHeight.eq_1,hheight]
  · have hroom := (nextHeight c.nodes+1).toInt_lt
    rw [toInt_add_one_of_slice (by omega) hslice,hheight] at hroom
    push_cast
    exact hroom
  · rw [hsame]
    exact hconn.nonneg h.nonneg
  · rw [hsame]
    push_cast
    refine bound_step h.supply_le hsupply ?_
    rw [htxs,coinbaseOut_block hcb hrest,← htxs]
    exact hvalue

variable {blocks : List MsgBlock}

theorem Accepted.chainBound (h : Accepted rules (pegParams g r) cps c blocks) : ChainBound r c blocks.length := by
  induction h with
  | genesis header _ =>
    have hb := Int32.lt_iff_toInt_lt.mp r.blocks_pos
    refine ⟨rfl,by simp, Nonneg.empty, ?_⟩
    have h0 : min ((0 : ℕ) : ℤ) r.blocks.toInt = 0 := by
      apply min_eq_left
      exact_mod_cast Int.le_of_lt hb
    simp only [length_nil,h0,mul_zero]
    exact le_of_eq rfl
  | connect _ now lookupNode cache block blockHeight accepts connects ih =>
    exact ih.connect (checkConnectBlockTemplate_ok accepts) connects

theorem ChainBound.accept (h : ChainBound r c n)
    (hok : TemplateOk rules (pegParams g r) cps now c block blockHeight) :
    ((n : ℤ)+1 ≤ r.blocks.toInt → PaysReserve r block) ∧
      ExactSums (pegParams g r) (nextHeight c.nodes) c.utxos block.transactions ∧
      FeeLoop (pegParams g r) c block blockHeight := by
  obtain ⟨coinbase,rest,s',htxs,hcb,hrest,hsane,hconn,hlt,hcheck,hloop⟩ := hok.connects h.not_lt_bip0034
  refine ⟨?_,exactSums_of_connects (r := r) rfl rfl hsane hconn hlt hcheck,hloop⟩
  intro hn
  have hfees : 0 ≤ (total (feesOf (nextHeight c.nodes) c.utxos block.transactions)).toInt := by
    rw [toInt_total hconn.fees_nonneg hlt]
    exact exact_nonneg hconn.fees_nonneg
  have hpay := (checkCoinbase_ok (p := pegParams g r) rfl rfl hsane hfees hcheck).2.2
  rw [h.toInt_pegReserveAt,if_pos hn] at hpay
  exact ⟨coinbase,by rw [htxs]; rfl, hpay (pos_iff.mp r.amount_pos)⟩

theorem Accepted.paysReserve (h : Accepted rules (pegParams g r) cps c blocks) {i : ℕ}
    (hblock : blocks.reverse[i]? = some block) (hi : (i : ℤ)+1 ≤ r.blocks.toInt) : PaysReserve r block := by
  induction h with
  | genesis => simp at hblock
  | @connect c c' blocks chain now lookupNode cache b blockHeight accepts connects ih =>
    rw [reverse_cons] at hblock
    by_cases hlt : i < blocks.reverse.length
    · rw [List.getElem?_append_left hlt] at hblock
      exact ih hblock
    · rw [List.getElem?_append_right (by omega),List.getElem?_singleton] at hblock
      split at hblock
      · cases hblock
        refine (chain.chainBound.accept (checkConnectBlockTemplate_ok accepts)).1 ?_
        rw [length_reverse] at hlt
        omega
      · cases hblock

/-- For every chain of blocks that the template check accepts one after the other, the
supply at height `h` is at most the reserve amount times `min h blocks`, every block at
a reserve height pays the reserve, and no accumulator of the next accepted block
wraps. -/
theorem supply_invariant {c : BestChain} {blocks : List MsgBlock} (h : Accepted rules (pegParams g r) cps c blocks) :
    c.nodes.head?.map (·.height.toInt) = some (blocks.length : ℤ) ∧
    c.utxos.supply ≤ r.amount.toInt*min (blocks.length : ℤ) r.blocks.toInt ∧
    (∀ (i : ℕ) (block : MsgBlock), blocks.reverse[i]? = some block →
      (i : ℤ)+1 ≤ r.blocks.toInt → PaysReserve r block) ∧
    ∀ (now : ℤ) (lookupNode : Hash → Option BlockNode) (cache : CheckpointCache)
      (block : MsgBlock) (blockHeight : Int32),
      (checkConnectBlockTemplate rules (pegParams g r) cps now c lookupNode cache block blockHeight).1 = .ok () →
      ExactSums (pegParams g r) (nextHeight c.nodes) c.utxos block.transactions ∧
        FeeLoop (pegParams g r) c block blockHeight := by
  have hbound := h.chainBound
  refine ⟨hbound.height,hbound.supply_le,fun i block => h.paysReserve, ?_⟩
  intro now lookupNode cache block blockHeight haccepts
  exact (hbound.accept (checkConnectBlockTemplate_ok haccepts)).2

end

end

/-! ## A chain with in-block spends -/

section Sample

attribute [local instance] sampleHashing

def sampleReserve : PegReserve := ⟨[0x51],900000000000000000,1,by decide, by decide⟩

def sampleCoinbase (height : UInt8) (value : Int64) (pkScript : Script) : MsgTx where
  version := 1
  txIn := [⟨⟨0,maxPrevOutIndex⟩,[0x50+height,0],[],maxTxInSequenceNum⟩]
  txOut := [⟨value,pkScript⟩]
  lockTime := 0
  outputs_le := by simp [maxTxOutPerMessage]

def sampleSpend (op : OutPoint) (value : Int64) (pkScript : Script) : MsgTx where
  version := 1
  txIn := [⟨op,[],[],maxTxInSequenceNum⟩]
  txOut := [⟨value,pkScript⟩]
  lockTime := 0
  outputs_le := by simp [maxTxOutPerMessage]

def sampleStart : BestChain :=
  ⟨[newBlockNode (sampleRules.blockHash sampleGenesis) sampleGenesis []],∅⟩

def sampleBlock1 : MsgBlock :=
  sampleBlock (sampleRules.blockHash sampleGenesis) 1790121700 [sampleCoinbase 1 900000000000000000 [0x51]]

/-- A block whose second transaction spends the reserve, paying a fee the coinbase
claims, and whose third spends the second. -/
def sampleBlock2 : MsgBlock :=
  let spend := sampleSpend ((sampleCoinbase 1 900000000000000000 [0x51]).outPoint 0)
    899999999999999990 [0x52]
  sampleBlock (sampleRules.blockHash sampleBlock1.header) 1790121800
    [sampleCoinbase 2 10 [0x53],spend,sampleSpend (spend.outPoint 0) 899999999999999990 [0x54]]

def noCheckpoints : Checkpoints := ⟨[],.nil,by simp⟩

def sampleChain1 : BestChain := sampleStart.connected sampleRules sampleBlock1

def sampleChain2 : BestChain := sampleChain1.connected sampleRules sampleBlock2

theorem sampleChain2_accepted : Accepted sampleRules (pegParams (sampleRules.blockHash sampleGenesis) sampleReserve)
      noCheckpoints sampleChain2 [sampleBlock2,sampleBlock1] := by
  have h1 : Accepted sampleRules (pegParams (sampleRules.blockHash sampleGenesis) sampleReserve)
      noCheckpoints sampleChain1 [sampleBlock1] :=
    Accepted.connected (.genesis sampleGenesis rfl) 1790121700 sampleBlock1 (by decide +kernel) (by decide +kernel)
  exact h1.connected 1790121800 sampleBlock2 (by decide +kernel) (by decide +kernel)

theorem sampleChain2_supply :
    sampleChain2.utxos.supply ≤ 900000000000000000 ∧ PaysReserve sampleReserve sampleBlock1 := by
  have h := supply_invariant sampleChain2_accepted
  exact ⟨h.2.1,h.2.2.1 0 sampleBlock1 rfl (by decide)⟩

end Sample

end DogePeg.Node
