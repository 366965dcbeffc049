import DogePeg.Bridge.Payouts
import DogePeg.Node.Params
import DogePeg.Signer.Approval

/-!
# What the signers' transactions do to the surplus

A signer checks a proposal against a view with mempools; what counts for the surplus is
what is mined. Each transaction `check` approves has one effect on the surplus of the
blocks once it is in one, and over a run of such steps the effects add up.
-/

namespace DogePeg

open Amounts Checks List Bridge SignerView

variable {t : ChainTx} {u : Utxo} {d : Deposit} {p : Payment} {fee : Int64}

section

variable [Hashing]

/-! ## The blocks of a view -/

def History.blocks (h : History) : History := ⟨h.vm.confirmed,h.doge.confirmed,h.dogeConflicted⟩

def History.listing (h : History) : ChainName → Listing
  | .dogecoin => h.doge
  | .dogecoinVM => h.vm

theorem mined_blocks (h : History) : Mined h.blocks where
  vm _ ht := (mem_inBlocks.mp ht).2
  doge _ ht := (mem_inBlocks.mp ht).2

namespace Bridge

variable {b : Bridge} {h : History} {op : OutPoint}

theorem released_eq_none {txs : List ChainTx} :
    b.released txs op = none ↔ ∀ t∈txs, b.vmSigned txs t → parseRelease t.tx ≠ some op := by
  simp [released]

theorem mem_blocks_vm : t∈h.blocks.vm.txs ↔ t∈h.vm.txs ∧ 0 < t.confirmations := mem_inBlocks

theorem spendsAny_of_blocks (hs : spendsAny t.tx (b.reserveOuts h.blocks.vm.txs)) :
    spendsAny t.tx (b.reserveOuts h.vm.txs) := by
  rw [spendsAny,any_eq_true] at hs ⊢
  obtain ⟨op,hop,hmem⟩ := hs
  obtain ⟨u,hu,hc⟩ := mem_flatMap.mp (of_decide_eq_true hmem)
  exact ⟨op,hop,decide_eq_true (mem_flatMap.mpr ⟨u,(mem_blocks_vm.mp hu).1,hc⟩)⟩

theorem vmSigned_of_blocks (hs : b.vmSigned h.blocks.vm.txs t) : b.vmSigned h.vm.txs t := by
  rw [vmSigned,Bool.and_eq_true] at hs ⊢
  exact ⟨hs.1,spendsAny_of_blocks hs.2⟩

theorem released_blocks (hnone : (b.state h).released op=none) : (b.state h.blocks).released op = none := by
  refine released_eq_none.mpr fun t ht hs => ?_
  exact released_eq_none.mp hnone t (mem_blocks_vm.mp ht).1 (vmSigned_of_blocks hs)

theorem cancelled_eq_none {txs : List ChainTx} :
    b.cancelled txs op = none ↔ ∀ t∈txs, b.vmSigned txs t → parseCancel t.tx ≠ some op := by
  unfold cancelled
  split
  · next hnil => simpa using hnil
  · next found hne =>
    refine ⟨fun h => (by cases h), fun hall => absurd ?_ hne⟩
    simpa using hall

theorem cancelled_blocks (hnone : (b.state h).cancelled op=none) : (b.state h.blocks).cancelled op = none := by
  refine cancelled_eq_none.mpr fun t ht hs => ?_
  exact cancelled_eq_none.mp hnone t (mem_blocks_vm.mp ht).1 (vmSigned_of_blocks hs)

theorem reserveUTXOs_blocks (hu : u∈(b.state h).reserveUTXOs) : u∈(b.state h.blocks).reserveUTXOs := by
  obtain ⟨⟨t,ht,hcoin⟩,hun,hpos⟩ := b.mem_reserveUTXOs.mp hu
  refine b.mem_reserveUTXOs.mpr ⟨⟨t,mem_blocks_vm.mpr ⟨ht,?_⟩,hcoin⟩,hun.inBlocks,hpos⟩
  exact (mem_coinsTo.mp hcoin).2.2 ▸ hpos

theorem pegOuts_blocks {p : PegOut} (hp : p∈(b.state h).pegOuts) : p∈(b.state h.blocks).pegOuts := by
  have hdef (h : History) : (b.state h).pegOuts = (h.vm.txs.filter (b.vmOutside h.vm.txs)).filterMap b.pegOutOf := rfl
  rw [hdef,mem_filterMap] at hp ⊢
  obtain ⟨t,ht,hpt⟩ := hp
  obtain ⟨ht,hout⟩ := mem_filter.mp ht
  simp only [vmOutside,Bool.and_eq_true,decide_eq_true_eq] at hout
  have hpos : 0 < t.confirmations := by
    have := h.vm.nonneg t ht
    omega
  refine ⟨t,mem_filter.mpr ⟨mem_blocks_vm.mpr ⟨ht,hpos⟩,?_⟩,hpt⟩
  simp only [vmOutside,Bool.and_eq_true,decide_eq_true_eq]
  refine ⟨⟨hout.1.1,?_⟩,hout.2⟩
  rw [Bool.not_eq_true']
  refine Bool.eq_false_iff.mpr fun hs => ?_
  rw [spendsAny_of_blocks hs] at hout
  exact absurd hout.1.2 (by simp)

theorem allDeposits_blocks (hfits : MempoolFits h) (hd : d∈b.allDeposits h.doge.txs)
    (hpos : 0<d.confirmations) : d∈b.allDeposits h.blocks.doge.txs := by
  obtain ⟨t,ht,hd⟩ := mem_flatMap.mp hd
  obtain ⟨p,hp,hd⟩ := mem_filterMap.mp hd
  have hblock : t∈inBlocks h.doge.txs := mem_inBlocks.mpr ⟨ht,(b.depositOf_eq hd).2.2 ▸ hpos⟩
  refine mem_flatMap.mpr ⟨t,hblock,mem_filterMap.mpr ⟨p,hp,?_⟩⟩
  rw [← hd]
  exact congrArg (b.depositOf · t p) (hfits.dogeSigned_eq hblock)

theorem not_settled_blocks (hfits : MempoolFits h) {κ : Type} {parse : MsgTx → Option κ}
    {m : κ → Option Hash} (hm : Settles parse (h.doge.txs.filter (b.dogeSigned h.doge.txs)) m) {k : κ}
    (hall : (m k).all (b.state h).isUnconfirmed) :
    ∀ t∈h.blocks.doge.txs.filter (b.dogeSigned h.blocks.doge.txs), parse t.tx ≠ some k := by
  intro t ht hp
  have hsigned : h.blocks.doge.txs.filter (b.dogeSigned h.blocks.doge.txs) =
    inBlocks (h.doge.txs.filter (b.dogeSigned h.doge.txs)) := hfits.signed_inBlocks
  rw [hsigned] at ht
  obtain ⟨ht,hpos⟩ := mem_inBlocks.mp ht
  have hnodup : ((h.doge.txs.filter (b.dogeSigned h.doge.txs)).map fun t => t.tx.txHash).Nodup :=
    (filter_sublist.map _).nodup h.doge.nodup
  have hun : (b.state h).unconfirmed = _ := (b.payments_spec h.doge).1
  have hzero := (hm.all_unconfirmed hnodup k).mp (by rw [← hun]; exact hall) t ht hp
  omega

theorem refunded_blocks (hfits : MempoolFits h) (hall : ((b.state h).refunded op).all (b.state h).isUnconfirmed) :
    (b.state h.blocks).refunded op = none := by
  rw [(mined_blocks h).refunded_eq,Option.map_eq_none_iff,List.find?_eq_none]
  intro t ht hp
  exact not_settled_blocks hfits (b.payments_spec h.doge).2.2 hall t ht (of_decide_eq_true hp)

theorem unpaid_blocks (hfits : MempoolFits h) {p : PegOut}
    (hall : ((b.state h).paid p.txid).all (b.state h).isUnconfirmed) : (b.state h.blocks).unpaid (some p) :=
  ((mined_blocks h).unpaid_iff p).mpr (not_settled_blocks hfits (b.payments_spec h.doge).2.1 hall)

theorem pegCoin_blocks {tx : MsgTx} (hfits : MempoolFits h) (hread : b.ReadsSpent h.blocks tx)
    (hop : u.outPoint∈tx.spends) (hu : u∈(b.state h).freeOn .dogecoin ∨ u∈(b.state h).pendingCoins) :
    (∃ t∈h.blocks.doge.txs, u∈coinsWhere b.watches t) ∧ Unspent h.blocks.doge.txs u.outPoint := by
  have hcoin {u : Utxo} (hu : u∈b.confirmedCoins h.doge.txs) :
    ∃ t∈h.blocks.doge.txs, u∈coinsWhere b.watches t := mem_flatMap.mp hu
  rcases hu with hu | hu
  · have hfree : (b.state h).freeOn .dogecoin = (b.nodes h).dogeUnspent.filter fun u => 0 < u.confirmations := rfl
    rw [hfree,b.filter_dogeUnspent,mem_map] at hu
    obtain ⟨c,hc,rfl⟩ := hu
    rw [mem_filter,decide_eq_true_eq] at hc
    obtain ⟨t,ht,hmem⟩ := hcoin hc.1
    have hself : c.read = c := by rw [Utxo.read,hread t ht c hmem hop]
    rw [hself]
    exact ⟨⟨t,ht,hmem⟩,hc.2.inBlocks⟩
  · have hpend := (b.pendingCoins_perm h.doge).mem_iff.mp hu
    rw [mem_filter,decide_eq_true_eq] at hpend
    obtain ⟨hconf,t,ht,hzero,hop⟩ := hpend
    exact ⟨hcoin hconf,fun s hs hop' =>
      hfits.unspent s hs t (mem_unconfirmedIn.mpr ⟨ht,hzero⟩) _ hop' hop⟩

theorem anchor_free {chain : ChainName} (hanchor : (b.state h).anchorOn chain=some u)
    (hin : containsOutPoint ((b.state h).freeOn chain) u.outPoint=true) : u∈(b.state h).freeOn chain := by
  obtain ⟨c,hc,heq⟩ := any_eq_true.mp hin
  rw [decide_eq_true_eq] at heq
  cases chain with
  | dogecoin =>
    -- no two coins of the pool have one outpoint
    have hpool : (((b.nodes h).dogeUnspent.filter fun u => 0 < u.confirmations) ++
        b.pendingCoins h.doge.txs (b.payments h.doge.txs).unconfirmed).map (·.outPoint) |>.Nodup := by
      refine (((b.lockedCoins_perm h).map _).nodup_iff).mpr ?_
      rw [map_map]
      exact (filter_sublist.map _).nodup (h.doge.nodup_confirmedCoins b)
    exact inj_on_of_nodup_map hpool (mem_append_left _ hc) (Lineage.anchorIn_mem hanchor) heq ▸ hc
  | dogecoinVM =>
    have hu := mem_of_mem_filter (mem_of_mem_filter (Lineage.anchorIn_mem hanchor))
    have hc' : c∈h.vm.txs.flatMap (coinsTo b.script) := mem_of_mem_filter (mem_of_mem_filter hc)
    exact inj_on_of_nodup_map (h.vm.nodup_coins (· = b.script)) hc' hu heq ▸ hc

end Bridge

/-! ## Steps -/

/-- Dogecoin's bounds on the value of an output. -/
def MoneyRange (h : History) : Prop :=
  ∀ t∈h.doge.txs, ∀ out∈t.tx.txOut, 0 ≤ out.value ∧ out.value ≤ Node.maxSatoshi

instance instDecidableMoneyRange (h : History) : Decidable (MoneyRange h) :=
  inferInstanceAs (Decidable (∀ t∈h.doge.txs, ∀ out∈t.tx.txOut, _))

structure Confirms (h grown : History) (chain : ChainName) (T : ChainTx) : Prop where
  mined : 0 < T.confirmations
  inserts : Inserts T (h.listing chain).txs (grown.listing chain).txs
  other : ∀ c, c ≠ chain → grown.listing c = h.listing c
  fresh : ∀ t∈(h.listing chain).txs, ∀ op∈t.tx.spends, op.hash ≠ T.tx.txHash

/-- Nothing has settled an output with this hash. -/
def Unnamed (s : PegState) (hash : Hash) : Prop :=
  ∀ op : OutPoint, op.hash = hash → s.released op = none ∧ s.refunded op = none

namespace Bridge

variable (b : Bridge)

def isCoinOn : ChainName → Script → Bool
  | .dogecoin => b.watches
  | .dogecoinVM => fun script => script = b.script

def spentValue (h : History) (chain : ChainName) (tx : MsgTx) : Int64 :=
  total ((((h.listing chain).txs.flatMap (coinsWhere (b.isCoinOn chain))).filter
    fun u => u.outPoint ∈ tx.spends).map (·.value))

def feeOf (h : History) (chain : ChainName) (tx : MsgTx) : Int64 :=
  b.spentValue h chain tx-total (tx.txOut.map (·.value))

/-- What mining an approved transaction adds to the surplus: a release nothing, a payout and a
refund what their change was topped up with; a cancellation and a fence cost their fee. -/
def effect (h : History) (action : Action) (draft : Draft) : Int64 :=
  match action with
  | .release _ => 0
  | .payout _ | .refund _ _ =>
    (payoutChange (b.spentValue h draft.chain draft.want-draft.value)).2
  | .cancel _ => -b.vmFee
  | .fence _ => -b.feeOf h draft.chain draft.want

theorem spentValue_eq {h : History} {chain : ChainName} {tx : MsgTx} {inputs : List Utxo}
    (hspends : tx.spends=inputs.map (·.outPoint)) (hnodup : (inputs.map (·.outPoint)).Nodup)
    (hcoin : ∀ u∈inputs, ∃ t∈(h.listing chain).txs, u∈coinsWhere (b.isCoinOn chain) t) :
    b.spentValue h chain tx = inputsTotal inputs := by
  have hsel := sum_selected (f := fun u : Utxo => u.value) ((h.listing chain).nodup_coins (b.isCoinOn chain)) hnodup
    fun u hu => mem_flatMap.mpr (hcoin u hu)
  rw [spentValue,inputsTotal,total_eq_sum,total_eq_sum,← hsel,sum_filter,hspends]
  simp only [decide_eq_true_eq]

end Bridge

/-- One step of the chains, with what it adds to the surplus. The wallet reads what it spends
and what it pays to the peg for what it is worth. -/
inductive Step (b : Bridge) : History → History → Int64 → Prop
  /-- A transaction `check` approved in some view of these blocks is mined. -/
  | approved {shown grown} {v : SignerView} {req st st' draft T} (bridge : v.bridge=b) (nodes : v.nodes=b.nodes shown)
      (fits : MempoolFits shown) (money : MoneyRange shown)
      (check : v.check req st=(.ok draft,st')) (signed : T.tx.unsigned=req.tx)
      (confirms : Confirms shown.blocks grown draft.chain T) (hash : T.tx.txHash≠0)
      (reads : draft.chain = .dogecoin → b.ReadsSpent shown.blocks T.tx ∧ b.ReadsExactly T)
      (unnamed : draft.chain = .dogecoin → Unnamed (b.state shown.blocks) T.tx.txHash) :
      Step b shown.blocks grown (b.effect shown.blocks req.action draft)
  /-- Others pay the peg or the reserve: new deposits, peg-outs and contributions. -/
  | outside {h grown newVM newDoge} (mined : Mined grown)
      (adds : AddsOutsiders b newVM newDoge h grown)
      (reads : ∀ t∈grown.doge.txs, newDoge t → b.ReadsExactly t)
      (unnamed : ∀ t∈grown.doge.txs, newDoge t → Unnamed (b.state h) t.tx.txHash)
      (unpaid : ∀ t∈grown.vm.txs, newVM t → (b.state h).paid t.tx.txHash = none) :
      Step b h grown (total ((grown.doge.txs.filter newDoge).flatMap b.capitalIn))
  /-- The blocks grow deeper. -/
  | deeper {h grown : History} (mined : Mined h) (mined' : Mined grown)
      (vm : grown.vm.txs.map (·.tx)=h.vm.txs.map (·.tx))
      (doge : grown.doge.txs.map (·.tx)=h.doge.txs.map (·.tx)) : Step b h grown 0

section Approved

variable {b : Bridge} {shown grown : History} {T : ChainTx} {chain : ChainName} {inputs : List Utxo}

theorem Confirms.spendsReserve (h : Confirms shown.blocks grown .dogecoinVM T)
    (hspends : T.tx.spends=inputs.map (·.outPoint)) (hne : inputs≠[]) (hnodup : (inputs.map (·.outPoint)).Nodup)
    (hheld : ∀ u∈inputs, u∈(b.state shown).reserveUTXOs) : SpendsReserve b shown.blocks grown T inputs where
  doge := h.other .dogecoin (by decide)
  inserts := h.inserts
  spends := hspends
  nonempty := hne
  nodup := hnodup
  held u hu := reserveUTXOs_blocks (hheld u hu)
  fresh t ht op hop hcoin := h.fresh t ht op hop (hash_of_mem_coinPoints hcoin)

theorem Confirms.spendsPeg (h : Confirms shown.blocks grown .dogecoin T)
    (hfits : MempoolFits shown) (hspends : T.tx.spends=inputs.map (·.outPoint)) (hne : inputs≠[])
    (hnodup : (inputs.map (·.outPoint)).Nodup)
    (hheld : ∀ u∈inputs, u∈(b.state shown).freeOn .dogecoin ∨ u∈(b.state shown).pendingCoins)
    (hreads : b.ReadsSpent shown.blocks T.tx ∧ b.ReadsExactly T)
    (hunnamed : Unnamed (b.state shown.blocks) T.tx.txHash) : SpendsPeg b shown.blocks grown T inputs := by
  have hvm : grown.vm = shown.blocks.vm := h.other .dogecoinVM (by decide)
  refine {
    vm := hvm
    inserts := h.inserts
    mined := ⟨hvm ▸ (mined_blocks shown).vm,fun t ht => ?_⟩
    spends := hspends
    nonempty := hne
    nodup := hnodup
    held := fun u hu => pegCoin_blocks hfits hreads.1 (hspends ▸ mem_map_of_mem hu) (hheld u hu)
    fresh := h.fresh
    reads_spent := hreads.1
    reads := hreads.2
    unnamed := hunnamed }
  rcases h.inserts.mem.mp ht with rfl | ht
  · exact h.mined
  · exact (mined_blocks shown).doge t ht

/-- The value of a deposit covers what a release pays out of the reserve, without wrapping. -/
theorem covers_of_money (hmoney : MoneyRange shown)
    (hd : d∈b.allDeposits shown.doge.txs) {sum : Int64} (hcov : d.value+pegDust ≤ sum) : 0 ≤ sum-d.value := by
  obtain ⟨t,ht,hd⟩ := mem_flatMap.mp hd
  obtain ⟨p,hp,hd⟩ := mem_filterMap.mp hd
  have hout : p.2∈t.tx.txOut := map_snd_outputs t.tx ▸ mem_map_of_mem hp
  obtain ⟨hlo,hhi⟩ := hmoney t ht p.2 hout
  rw [← (b.depositOf_eq hd).2.1] at hlo hhi
  rw [nonneg_iff] at hlo ⊢
  rw [Int64.le_iff_toInt_le,Node.toInt_maxSatoshi] at hhi
  have hdust : pegDust.toInt = 1000000 := by decide
  rw [Int64.le_iff_toInt_le,toInt_add_of_bounds (by omega) (by omega)] at hcov
  rw [toInt_sub_of_le hlo (by omega)]
  omega

omit [Hashing] in
theorem ne_nil_of_head? {op : OutPoint} (hspends : T.tx.spends=inputs.map (·.outPoint))
    (hhead : T.tx.spends.head? = some op) : inputs ≠ [] := by
  rintro rfl
  rw [hspends] at hhead
  cases hhead

end Approved

namespace SignerView

open PegState

variable {v : SignerView} {req : SignRequest} {log : SigningLog} {key : ActionKey} {draft : Draft}
  {shown grown : History} {T : ChainTx} {op : OutPoint} {inputs : List Utxo}

theorem state_eq (hnodes : v.nodes=v.bridge.nodes shown) : v.state = v.bridge.state shown := by
  rw [state,hnodes]
  rfl

/-- `T`, which a signer that is shown `shown` drafted as `draft`, is mined. -/
structure Mines (v : SignerView) (req : SignRequest) (draft : Draft) (shown grown : History) (T : ChainTx) :
    Prop where
  nodes : v.nodes = v.bridge.nodes shown
  fits : MempoolFits shown
  nodup : req.tx.spends.Nodup
  signed : T.tx.unsigned = req.tx
  want : draft.want = req.tx
  confirms : Confirms shown.blocks grown draft.chain T

section Mines

variable (m : v.Mines req draft shown grown T)

include m

theorem Mines.spends : T.tx.spends = req.tx.spends := by rw [← m.signed,MsgTx.unsigned_spends]

theorem Mines.reads_request (hread : v.bridge.ReadsSpent shown.blocks T.tx) :
    v.bridge.ReadsSpent shown.blocks req.tx := fun t ht u hu hop => hread t ht u hu (m.spends ▸ hop)

theorem Mines.spendsReserve (hpicks : Picks req.tx v.state.reserveUTXOs inputs)
    (hhead : req.tx.spends.head? = some op) (hchain : draft.chain = .dogecoinVM) :
    SpendsReserve v.bridge shown.blocks grown T inputs := by
  refine (hchain ▸ m.confirms).spendsReserve (m.spends.trans hpicks.spends)
    (ne_nil_of_head? (m.spends.trans hpicks.spends) (m.spends ▸ hhead)) (hpicks.spends ▸ m.nodup) ?_
  exact fun u hu => state_eq m.nodes ▸ hpicks.mem u hu

theorem DraftsRelease.surplus_eq {anchor : Utxo}
    (h : v.DraftsRelease req log (v.stateFor log key) op draft d anchor inputs) (hmoney : MoneyRange shown)
    (hconf : ∀ value, 0 < v.bridge.confirmationsFor value) :
    v.bridge.surplus grown = v.bridge.surplus shown.blocks := by
  have hstate := state_eq m.nodes
  have hreserve := m.spendsReserve h.picks h.anchored.2 h.chain
  have hpos : 0 < d.confirmations := lt_of_lt_of_le (hconf d.value) h.deep
  have hdep : d∈(v.bridge.state shown).deposits := by rw [← hstate]; exact h.deposit
  obtain ⟨hmem,hcredit⟩ := mem_filter.mp hdep
  have hall := mem_of_mem_filter hmem
  have hrel : (v.bridge.state shown.blocks).released d.outPoint = none := by
    refine released_blocks ?_
    rw [← hstate,h.outPoint]
    exact h.released
  have href : (v.bridge.state shown.blocks).refunded d.outPoint = none := by
    refine refunded_blocks m.fits ?_
    have hnone : v.state.refunded op = none := h.refunded
    rw [← hstate,h.outPoint,hnone]
    rfl
  have hcan : (v.bridge.state shown.blocks).cancelled d.outPoint = none := by
    refine cancelled_blocks ?_
    rw [← hstate,h.outPoint]
    exact h.cancelled
  refine hreserve.surplus_release (d := d) (m.signed.trans (m.want.symm.trans h.want)) ?_ hrel hpos
    (covers_of_money hmoney hall h.covered)
  have hvalid : d.valid = true := (Bool.and_eq_true_iff.mp hcredit).1
  refine mem_filter.mpr ⟨mem_filter.mpr ⟨allDeposits_blocks m.fits hall hpos,?_⟩,?_⟩
  · change (!isRefunded (v.bridge.state shown.blocks).refunded d) = true
    simp [isRefunded,href]
  · change isCredit (v.bridge.state shown.blocks).cancelled d = true
    simp [isCredit,hvalid,hcan]

theorem DraftsCancel.surplus_eq {anchor : Utxo}
    (h : v.DraftsCancel req log (v.stateFor log key) op draft anchor inputs) :
    v.bridge.surplus grown = v.bridge.surplus shown.blocks-v.bridge.vmFee := by
  have hreserve := m.spendsReserve h.picks h.anchored.2 h.chain
  have hrel : (v.bridge.state shown.blocks).released op = none := by
    refine released_blocks ?_
    rw [← state_eq m.nodes]
    exact h.released
  have hbuilt : v.bridge.buildCancel inputs op = .ok T.tx.unsigned := by
    rw [m.signed,← m.want]
    exact h.built
  exact hreserve.surplus_cancel hbuilt (by simp [hrel])

end Mines

theorem DraftsPayment.inputs_held (h : v.DraftsPayment req (v.stateFor log key) p draft inputs fee)
    (hnodes : v.nodes=v.bridge.nodes shown) :
    req.tx.spends = inputs.map (·.outPoint) ∧ inputs ≠ [] ∧ ∀ u∈inputs, u∈(v.bridge.state shown).freeOn .dogecoin ∨
        u ∈ (v.bridge.state shown).pendingCoins := by
  have hstate := state_eq hnodes
  by_cases hfee : 0 < req.fee
  · obtain ⟨r,oldFee,hr,hsame,hpicks⟩ := h.replaces hfee
    refine ⟨hpicks.spends,?_,fun u hu => .inr ?_⟩
    · -- what is replaced spends a coin of the peg
      rintro rfl
      have hmem : r∈(v.bridge.state shown).unconfirmed := hstate ▸ unconfirmedFor_mem hr
      have hun : (v.bridge.state shown).unconfirmed = _ := (v.bridge.payments_spec shown.doge).1
      rw [hun,mem_unconfirmedIn,mem_filter,dogeSigned,spendsAny,← hsame,hpicks.spends] at hmem
      simp at hmem
    · exact hstate ▸ mem_pendingCoins_of_coinsOf (hpicks.mem u hu)
  · obtain ⟨⟨a,-,hhead⟩,hpicks⟩ := h.fresh hfee
    refine ⟨hpicks.spends,?_,fun u hu => .inl (hstate ▸ hpicks.mem u hu)⟩
    exact ne_nil_of_head? (T := ⟨req.tx,0,0⟩) hpicks.spends hhead

theorem DraftsPayment.spentValue_eq (h : v.DraftsPayment req (v.stateFor log key) p draft inputs fee)
    (hnodes : v.nodes=v.bridge.nodes shown) (hfits : MempoolFits shown)
    (hread : v.bridge.ReadsSpent shown.blocks req.tx) (hnodup : req.tx.spends.Nodup) :
    v.bridge.spentValue shown.blocks draft.chain req.tx = inputsTotal inputs := by
  obtain ⟨hspends,-,hheld⟩ := h.inputs_held hnodes
  rw [h.chain]
  exact v.bridge.spentValue_eq hspends (hspends ▸ hnodup) fun u hu =>
    (pegCoin_blocks hfits hread (hspends ▸ mem_map_of_mem hu) (hheld u hu)).1

theorem DraftsFence.inputs_held {coins : List OutPoint} {fence : Bridge.BuiltFence}
    (h : v.DraftsFence req log (v.stateFor log key) op draft coins fence) (hnodes : v.nodes=v.bridge.nodes shown) :
    (∀ u∈fence.inputs, u∈(v.bridge.state shown).freeOn draft.chain) ∨
      draft.chain = .dogecoin ∧ ∀ u∈fence.inputs, u∈(v.bridge.state shown).pendingCoins := by
  have hstate := state_eq hnodes
  rcases (nextFence_ok h.built).2 with hfree | ⟨hchain,hpend⟩
  · refine .inl fun u hu => ?_
    rcases hfree u hu with hu | ⟨hanchor,hin⟩
    · exact hstate ▸ hu
    · exact anchor_free (hstate ▸ hanchor) (hstate ▸ hin)
  · exact .inr ⟨hchain,fun u hu => hstate ▸ hpend u hu⟩

section Mines

variable (m : v.Mines req draft shown grown T)

include m

theorem DraftsPayment.spendsPeg (h : v.DraftsPayment req (v.stateFor log key) p draft inputs fee)
    (hreads : v.bridge.ReadsSpent shown.blocks T.tx ∧ v.bridge.ReadsExactly T)
    (hunnamed : Unnamed (v.bridge.state shown.blocks) T.tx.txHash) :
    SpendsPeg v.bridge shown.blocks grown T inputs := by
  obtain ⟨hpicks,hne,hheld⟩ := h.inputs_held m.nodes
  exact (h.chain ▸ m.confirms).spendsPeg m.fits (m.spends.trans hpicks) hne (hpicks ▸ m.nodup) hheld hreads hunnamed

variable (hscript : v.bridge.depositDest v.bridge.script=none)

include hscript

theorem DraftsFence.surplus_eq {coins : List OutPoint} {fence : Bridge.BuiltFence}
    (h : v.DraftsFence req log (v.stateFor log key) op draft coins fence)
    (hreads : draft.chain = .dogecoin → v.bridge.ReadsSpent shown.blocks T.tx ∧ v.bridge.ReadsExactly T)
    (hunnamed : draft.chain = .dogecoin → Unnamed (v.bridge.state shown.blocks) T.tx.txHash) :
    v.bridge.surplus grown = v.bridge.surplus shown.blocks-v.bridge.feeOf shown.blocks draft.chain T.tx := by
  have htx : T.tx.unsigned = fence.tx := m.signed.trans (m.want.symm.trans h.want)
  have hfence : IsFence v.bridge fence.inputs fence.fee T.tx := buildFence_ok (htx ▸ (nextFence_ok h.built).1)
  have hnodup' : (fence.inputs.map (·.outPoint)).Nodup := by
    rw [← hfence.spends,m.spends]
    exact m.nodup
  have hfee (hcoin : ∀ u∈fence.inputs, ∃ t∈(shown.blocks.listing draft.chain).txs,
      u ∈ coinsWhere (v.bridge.isCoinOn draft.chain) t) :
      v.bridge.feeOf shown.blocks draft.chain T.tx = fence.fee := by
    rw [Bridge.feeOf,v.bridge.spentValue_eq hfence.spends hnodup' hcoin,hfence.outputs]
    abel
  obtain ⟨first,hcarries⟩ := hfence.carries
  have hparse (tag : Tag) (hne : Tag.fence≠tag) : parseOutPointTag T.tx tag = none := by
    rw [hcarries.parseOutPointTag,if_neg hne]
  have hheld := h.inputs_held m.nodes
  have hT := m.confirms
  cases hchain : draft.chain with
  | dogecoin =>
    rw [hchain] at hT hheld hreads hunnamed hfee
    have hpeg := hT.spendsPeg (b := v.bridge) m.fits hfence.spends hfence.nonempty hnodup'
      (fun u hu => hheld.imp (· u hu) (·.2 u hu)) (hreads rfl) (hunnamed rfl)
    rw [hfee fun u hu => (hpeg.held u hu).1]
    exact hpeg.surplus_fence hscript hcarries.parsePayment_outPointTag (hparse .refund (by decide)) hfence.back
  | dogecoinVM =>
    rw [hchain] at hT hheld hfee
    have hreserve := hT.spendsReserve (b := v.bridge) hfence.spends hfence.nonempty hnodup'
      (hheld.resolve_right fun h => by cases h.1)
    rw [hfee fun u hu => ((v.bridge.mem_reserveUTXOs).mp (hreserve.held u hu)).1, hreserve.surplus_eq,
      hreserve.owedDeposits_eq (hparse .release (by decide)) (hparse .cancel (by decide)), hfence.back]
    abel

variable (h : v.DraftsPayment req (v.stateFor log key) p draft inputs fee)
  (hreads : v.bridge.ReadsSpent shown.blocks T.tx ∧ v.bridge.ReadsExactly T)
  (hunnamed : Unnamed (v.bridge.state shown.blocks) T.tx.txHash)

include h hreads hunnamed

theorem DraftsPayment.surplus_payout {txid : Hash} (hp : payoutOf req (v.stateFor log key) txid = .ok p) :
    v.bridge.surplus grown = v.bridge.surplus shown.blocks +
      (payoutChange (v.bridge.spentValue shown.blocks draft.chain req.tx-draft.value)).2 := by
  have hstate := state_eq m.nodes
  obtain ⟨hpaid,peg,hmem,rfl,rfl⟩ := payoutOf_ok hp
  have hpeg := h.spendsPeg m hreads hunnamed
  rw [h.spentValue_eq m.nodes m.fits (m.reads_request hreads.1) m.nodup,h.value]
  refine hpeg.surplus_payout (p := peg) hscript (pegOuts_blocks (hstate ▸ hmem))
    (unpaid_blocks m.fits ?_) (by rw [m.signed,← m.want]; exact h.built)
  rw [← hstate]
  exact all_of_all_and hpaid

theorem DraftsPayment.surplus_refund (hp : v.DraftsRefund req log (v.stateFor log key) op p d)
    (hconf : ∀ value, 0 < v.bridge.confirmationsFor value) (hhash : T.tx.txHash≠0) :
    v.bridge.surplus grown = v.bridge.surplus shown.blocks +
      (payoutChange (v.bridge.spentValue shown.blocks draft.chain req.tx-draft.value)).2 := by
  have hstate := state_eq m.nodes
  have hpeg := h.spendsPeg m hreads hunnamed
  have hpos : 0 < d.confirmations := lt_of_lt_of_le (hconf d.value) hp.deep
  have hall : d∈v.bridge.allDeposits shown.doge.txs := by
    have hmem := hp.deposit
    split at hmem
    · have hd : d∈(v.bridge.state shown).settled := hstate ▸ hmem
      exact mem_of_mem_filter hd
    · have hd : d∈(v.bridge.state shown).held := hstate ▸ hmem
      exact mem_of_mem_filter (mem_of_mem_filter hd)
  rw [h.spentValue_eq m.nodes m.fits (m.reads_request hreads.1) m.nodup,h.value,hp.value]
  have hbuilt : v.bridge.buildPayout inputs d.value p.dest (encodeRefund d.outPoint) fee = .ok T.tx.unsigned := by
    rw [m.signed,← m.want,hp.outPoint,← hp.value,← hp.data]
    exact h.built
  refine hpeg.surplus_refund hscript (allDeposits_blocks m.fits hall hpos) ?_ ?_ hhash hbuilt
  · rw [hp.outPoint]
    refine released_blocks ?_
    rw [← hstate]
    exact hp.released
  · rw [hp.outPoint]
    refine refunded_blocks m.fits ?_
    rw [← hstate]
    exact all_of_all_and hp.refunded

end Mines

theorem surplus_approved {st st' : Signer} (hcheck : v.check req st=(.ok draft,st'))
    (hnodes : v.nodes=v.bridge.nodes shown) (hfits : MempoolFits shown) (hmoney : MoneyRange shown)
    (hconf : ∀ value, 0 < v.bridge.confirmationsFor value)
    (hscript : v.bridge.depositDest v.bridge.script=none) (hsigned : T.tx.unsigned=req.tx)
    (hT : Confirms shown.blocks grown draft.chain T) (hhash : T.tx.txHash≠0)
    (hreads : draft.chain = .dogecoin → v.bridge.ReadsSpent shown.blocks T.tx ∧ v.bridge.ReadsExactly T)
    (hunnamed : draft.chain = .dogecoin → Unnamed (v.bridge.state shown.blocks) T.tx.txHash) :
    v.bridge.surplus grown = v.bridge.surplus shown.blocks+v.bridge.effect shown.blocks req.action draft := by
  obtain ⟨gated,learnt,ha⟩ := check_ok hcheck
  have m : v.Mines req draft shown grown T := ⟨hnodes,hfits,ha.nodup,hsigned,ha.want,hT⟩
  have hfee : v.bridge.feeOf shown.blocks draft.chain draft.want = v.bridge.feeOf shown.blocks draft.chain T.tx := by
    have hspends : draft.want.spends = T.tx.spends := by rw [ha.want,m.spends]
    have hout : draft.want.txOut = T.tx.txOut := by rw [ha.want,← hsigned,MsgTx.unsigned_txOut]
    simp only [Bridge.feeOf,spentValue,hspends,hout]
  obtain ⟨-,hdraft⟩ := draft_ok ha.drafted
  generalize req.action = action at hdraft ⊢
  cases hdraft with
  | release h =>
    rw [h.surplus_eq m hmoney hconf]
    exact (add_zero _).symm
  | cancel h =>
    rw [h.surplus_eq m]
    exact sub_eq_add_neg _ _
  | fence h =>
    rw [h.surplus_eq m hscript hreads hunnamed,effect,hfee]
    exact sub_eq_add_neg _ _
  | payout hp h =>
    rw [h.surplus_payout m hscript (hreads h.chain) (hunnamed h.chain) hp,effect,ha.want]
  | refund hd h =>
    rw [h.surplus_refund m hscript (hreads h.chain) (hunnamed h.chain) hd hconf hhash,effect,ha.want]

end SignerView

/-- What new deposits, peg-outs and contributions add: the contributions. -/
theorem AddsOutsiders.surplus_unnamed {b : Bridge} {newVM newDoge : ChainTx → Bool} {h grown : History}
    (hadds : AddsOutsiders b newVM newDoge h grown) (hmined : Mined grown)
    (hreads : ∀ t∈grown.doge.txs, newDoge t → b.ReadsExactly t)
    (hunnamed : ∀ t∈grown.doge.txs, newDoge t → Unnamed (b.state h) t.tx.txHash)
    (hunpaid : ∀ t∈grown.vm.txs, newVM t → (b.state h).paid t.tx.txHash = none) :
    b.surplus grown = b.surplus h+total ((grown.doge.txs.filter newDoge).flatMap b.capitalIn) := by
  have hblocks : inBlocks (grown.doge.txs.filter newDoge) = grown.doge.txs.filter newDoge :=
    filter_eq_self.mpr fun t ht => decide_eq_true (hmined.doge t (mem_of_mem_filter ht))
  have hsettled : (inBlocks (grown.doge.txs.filter newDoge)).flatMap (b.settledIn (b.state h)) = [] := by
    rw [flatMap_eq_nil_iff]
    intro t ht
    obtain ⟨ht,hnew⟩ := mem_filter.mp (mem_inBlocks.mp ht).1
    rw [settledIn,map_eq_nil_iff,filter_eq_nil_iff]
    intro d hd
    obtain ⟨p,hp,hd⟩ := mem_filterMap.mp hd
    obtain ⟨hrel,href⟩ := hunnamed t ht hnew d.outPoint ((b.depositOf_eq hd).1 ▸ t.tx.hash_of_mem_outputs hp)
    simp [PegState.unsettled,isRefunded,hrel,href]
  have hpaid : (inBlocks (grown.vm.txs.filter newVM)).flatMap (b.paidIn (b.state h)) = [] := by
    rw [flatMap_eq_nil_iff]
    intro t ht
    obtain ⟨ht,hnew⟩ := mem_filter.mp (mem_inBlocks.mp ht).1
    rw [paidIn,map_eq_nil_iff,filter_eq_nil_iff]
    intro p hp
    have htxid := b.pegOutOf_txid (Option.mem_toList.mp hp)
    simp [PegState.unpaid,htxid,hunpaid t ht hnew]
  rw [hadds.surplus_eq hreads,AddsOutsiders.gains,hsettled,hpaid,hblocks,append_nil,append_nil]

theorem Step.surplus_eq {b : Bridge} (hconf : ∀ value, 0 < b.confirmationsFor value)
    (hscript : b.depositDest b.script=none) {h grown : History} {e : Int64} (hstep : Step b h grown e) :
    b.surplus grown = b.surplus h+e := by
  cases hstep with
  | approved hbridge hnodes hfits hmoney hcheck hsigned hT hhash hreads hunnamed =>
    subst hbridge
    exact surplus_approved hcheck hnodes hfits hmoney hconf hscript hsigned hT hhash hreads hunnamed
  | outside hmined hadds hreads hunnamed hunpaid => exact hadds.surplus_unnamed hmined hreads hunnamed hunpaid
  | deeper hm hm' hvm hdoge => rw [hm.surplus_congr hm' hvm hdoge,add_zero]

end

section Sample

attribute [local instance] sampleHashing

def sampleAnchors : ChainName → Option OutPoint
  | .dogecoin => none
  | .dogecoinVM => some sampleCoin.outPoint

def releaseRequest (d : Deposit) : SignRequest :=
  ⟨some .dogecoinVM,.release d.outPoint,sampleBridge.buildRelease [sampleCoin] d,0⟩

def releaseDraft (d : Deposit) : Draft where
  chain := .dogecoinVM
  want := sampleBridge.buildRelease [sampleCoin] d
  redeems := [sampleBridge.redeemScript]
  value := d.value
  unspent := [sampleCoin.outPoint]
  surplusFee := none

def minedRelease (d : Deposit) : ChainTx := ⟨sampleBridge.buildRelease [sampleCoin] d,1,0⟩

end Sample

end DogePeg
