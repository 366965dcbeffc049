import DogePeg.Lib.Best
import DogePeg.Lib.Reorgs
import DogePeg.Signer.Log
import Mathlib.Data.List.Dedup

/-!
# Fees that can still confirm

`unseenFees` is what a signer reserves of the surplus for the transactions it signed: for
each action the costliest alternative that can still get into a block, or that can replace
the one in a shallow block (`cmd/dogevm/cosign.go`).
-/

namespace DogePeg

open Amounts Reorgs List Int64 ChainEvidence

variable {lt : ChainTx}

/-! ## What an action reserves -/

theorem LoggedAction.fee_le_worst {a : LoggedAction} {t : LoggedTx} (ht : t∈a.txs) : t.fee.toInt ≤ a.worst.toInt := by
  rw [worst]
  exact toInt_le_foldl_max (mem_map_of_mem ht)

section Most

variable (live : LoggedTx → Bool)

/-- The loop over an action's alternatives none of which is in a block. -/
def mostFee (most : Int64) (t : LoggedTx) : Int64 :=
  if t.fee ≤ 0 || t.fee ≤ most then most else if live t then t.fee else most

theorem le_mostFee (most : Int64) (t : LoggedTx) : most.toInt ≤ (mostFee live most t).toInt := by
  rw [mostFee]
  split
  · exact le_rfl
  · next h =>
    split
    · simp only [Bool.or_eq_true,decide_eq_true_eq,not_or,le_iff_toInt_le] at h
      omega
    · exact le_rfl

theorem fee_le_mostFee {t : LoggedTx} (most : Int64) (hlive : live t=true) (hmost : 0 ≤ most.toInt) :
    t.fee.toInt ≤ (mostFee live most t).toInt := by
  rw [mostFee,hlive]
  split
  · next h =>
    simp only [Bool.or_eq_true,decide_eq_true_eq,le_iff_toInt_le,toInt_zero] at h
    omega
  · exact le_rfl

theorem le_foldl_mostFee (txs : List LoggedTx) (most : Int64) : most.toInt ≤ (txs.foldl (mostFee live) most).toInt := by
  induction txs generalizing most with
  | nil => exact le_rfl
  | cons u txs ih => exact (le_mostFee live most u).trans (ih _)

theorem fee_le_foldl_mostFee {t : LoggedTx} {txs : List LoggedTx} {most : Int64} (hmost : 0 ≤ most.toInt)
    (ht : t∈txs) (hlive : live t=true) : t.fee.toInt ≤ (txs.foldl (mostFee live) most).toInt := by
  induction txs generalizing most with
  | nil => cases ht
  | cons u txs ih =>
    rw [foldl_cons]
    rcases mem_cons.mp ht with rfl | hmem
    · exact (fee_le_mostFee live most hlive hmost).trans (le_foldl_mostFee live txs _)
    · exact ih (hmost.trans (le_mostFee live most u)) hmem

end Most

/-! ## Chains that go on -/

/-- Both chains, block by block. A coin is of one chain, and spent once. -/
structure Ledgers where
  blocks : ChainName → List (List MsgTx)
  once : ∀ c c' tx tx' (op : OutPoint), tx∈(blocks c).flatten → tx'∈(blocks c').flatten →
    op.index ≠ maxPrevOutIndex → op∈tx.spends → op∈tx'.spends → c = c' ∧ tx = tx'

/-- The depth a reorganisation stays above: DogecoinVM's blocks are final. -/
def ChainEvidence.undoes (e : ChainEvidence) : ChainName → ℤ
  | .dogecoin => e.deep
  | .dogecoinVM => 0

/-- Ledgers later on, whatever blocks came and whichever shallow ones were undone. -/
def Ledgers.Becomes (e : ChainEvidence) (H H' : Ledgers) : Prop :=
  ∀ c, Reorgs.Reaches (e.undoes c) (H.blocks c) (H'.blocks c)

open Ledgers

section

variable [Hashing]

/-- What the evidence shows in blocks is there, at the depth it shows. -/
structure ChainEvidence.Reads (e : ChainEvidence) (H : Ledgers) : Prop where
  listed : ∀ c, ∀ lt∈e.listed c, 0 < lt.confirmations →
    ∃ block, Under (H.blocks c) block lt.confirmations ∧ lt.tx∈block
  confirmedOn : ∀ c hash, e.confirmedOn c hash = true → ∃ tx∈(H.blocks c).flatten, tx.txHash = hash

/-- An entry names one transaction, by its identifiers and its inputs. -/
structure LoggedTx.Names (t : LoggedTx) (H : Ledgers) : Prop where
  coins : ∀ op∈t.inputs, op.index ≠ maxPrevOutIndex
  spends : ∀ c, ∀ tx∈(H.blocks c).flatten, unsignedHash tx = t.txid → tx.spends = t.inputs
  signed : ∀ c, ∀ tx∈(H.blocks c).flatten, tx.txHash∈t.txid::t.signed → unsignedHash tx = t.txid

/-- The alternatives of an action: two of them spend a coin in common, or are one transaction,
with one fee. -/
def LoggedAction.Conflicting (a : LoggedAction) : Prop :=
  ∀ t∈a.txs, ∀ u∈a.txs, (t.txid = u.txid → t.fee = u.fee) ∧ (t.txid ≠ u.txid → ∃ op∈t.inputs, op∈u.inputs)

namespace Ledgers

def has (H : Ledgers) (t : LoggedTx) : Bool :=
  [ChainName.dogecoin,.dogecoinVM].any fun c =>
    t.chain.all (· = c) && (H.blocks c).flatten.any fun tx => unsignedHash tx = t.txid

/-- The fees of an action's transactions in blocks, each transaction counted once. -/
def feesOf (H : Ledgers) (a : LoggedAction) : ℤ :=
  exact ((((a.txs.filter H.has).map fun t => (t.txid,t.fee)).dedup).map (·.2))

def fees (H : Ledgers) (log : SigningLog) : ℤ := (log.actions.entries.map fun e => H.feesOf e.2).sum

end Ledgers

variable {H H' : Ledgers} {e : ChainEvidence} {a : LoggedAction} {t u : LoggedTx}

theorem Ledgers.has_iff : H.has t = true ↔
    ∃ c, (∀ d∈t.chain, d = c) ∧ ∃ tx∈(H.blocks c).flatten, unsignedHash tx = t.txid := by
  simp only [has,any_eq_true,Bool.and_eq_true,Option.all_eq_true,decide_eq_true_eq]
  constructor
  · rintro ⟨c,-,hchain,hin⟩
    exact ⟨c,hchain,hin⟩
  · rintro ⟨c,hchain,hin⟩
    exact ⟨c,by cases c <;> simp, hchain, hin⟩

/-! ## One alternative at a time -/

theorem LoggedAction.Conflicting.txid_eq (h : a.Conflicting) (hnames : ∀ t∈a.txs, t.Names H)
    (ht : t∈a.txs) (hu : u∈a.txs) (hhas : H.has t=true) (hhas' : H.has u=true) : t.txid = u.txid := by
  obtain ⟨c,-,x,hx,hxid⟩ := has_iff.mp hhas
  obtain ⟨c',-,y,hy,hyid⟩ := has_iff.mp hhas'
  by_contra hne
  obtain ⟨op,hop,hop'⟩ := (h t ht u hu).2 hne
  obtain ⟨-,hxy⟩ := H.once c c' x y op hx hy ((hnames t ht).coins op hop)
    ((hnames t ht).spends c x hx hxid ▸ hop) ((hnames u hu).spends c' y hy hyid ▸ hop')
  exact hne (by rw [← hxid,hxy,hyid])

/-- So an action's fees in blocks are those of one alternative, or none. -/
theorem LoggedAction.Conflicting.feesOf_cases (h : a.Conflicting) (hnames : ∀ t∈a.txs, t.Names H) :
    (H.feesOf a = 0 ∧ ∀ t∈a.txs, H.has t = false) ∨ ∃ t∈a.txs, H.has t = true ∧ H.feesOf a = t.fee.toInt := by
  cases hfound : a.txs.filter H.has with
  | nil =>
    left
    refine ⟨by rw [feesOf,hfound]; rfl, ?_⟩
    intro t ht
    simpa using filter_eq_nil_iff.mp hfound t ht
  | cons t rest =>
    right
    have hmem : ∀ u∈t::rest, u∈a.txs ∧ H.has u = true := by
      intro u hu
      rwa [← hfound,mem_filter] at hu
    have ht := hmem t (mem_cons_self ..)
    have hall : ∀ p∈((t::rest).map fun t => (t.txid,t.fee)), p = (t.txid,t.fee) := by
      intro p hp
      obtain ⟨u,hu,rfl⟩ := mem_map.mp hp
      have hid := h.txid_eq hnames (hmem u hu).1 ht.1 (hmem u hu).2 ht.2
      rw [hid,(h u (hmem u hu).1 t ht.1).1 hid]
    refine ⟨t,ht.1,ht.2,?_⟩
    have hone : ((t::rest).map fun t => (t.txid,t.fee)).dedup = [(t.txid,t.fee)] := by
      rw [eq_replicate_iff.mpr ⟨rfl,hall⟩]
      exact replicate_dedup (by simp)
    rw [feesOf,hfound,hone]
    simp

/-! ## What the evidence settles -/

omit [Hashing] in
theorem ChainEvidence.mem_listing {chain : Option ChainName} :
    lt ∈ e.listing chain ↔ ∃ c, chain = some c ∧ lt∈e.listed c := by
  cases chain with
  | none => simp [listing]
  | some c => simp [listing]

theorem ChainEvidence.listedAs_some {chain : Option ChainName} {id : Hash} (h : e.listedAs chain id=some lt) :
    unsignedHash lt.tx = id ∧ ∃ c, chain = some c ∧ lt∈e.listed c := by
  have hmem := (Best.mem_of_foldl ?_ h).resolve_left nofun
  · rw [mem_filter,decide_eq_true_eq,mem_listing] at hmem
    exact ⟨hmem.2,hmem.1⟩
  · rintro (_ | prev) t
    · exact .inr rfl
    · dsimp only
      split
      · exact .inr rfl
      · exact .inl rfl

theorem ChainEvidence.Reads.located (hreads : e.Reads H) (hnames : t.Names H) (h : e.confirmed t.chain t=true) :
    ∃ tx∈(H.blocks (node t.chain)).flatten, unsignedHash tx = t.txid := by
  have hnode : ∀ hash∈t.txid::t.signed, e.confirmedOn (node t.chain) hash = true →
      ∃ tx∈(H.blocks (node t.chain)).flatten, unsignedHash tx = t.txid := by
    intro hash hmem hon
    obtain ⟨tx,htx,rfl⟩ := hreads.confirmedOn _ _ hon
    exact ⟨tx,htx,hnames.signed _ tx htx hmem⟩
  simp only [confirmed,Bool.or_eq_true,any_eq_true,Option.any_eq_true,decide_eq_true_eq] at h
  rcases h with (⟨lt,hlisted,hconf⟩ | ⟨hash,hmem,hon⟩) | hon
  · obtain ⟨hid,c,hchain,hlt⟩ := listedAs_some hlisted
    obtain ⟨block,hunder,htx⟩ := hreads.listed c lt hlt hconf
    rw [hchain]
    exact ⟨lt.tx,mem_flatten_of_mem hunder.mem htx,hid⟩
  · exact hnode hash (mem_cons_of_mem _ hmem) hon
  · exact hnode t.txid (mem_cons_self ..) hon

theorem Ledgers.has_of_node {tx : MsgTx} (htx : tx∈(H.blocks (node t.chain)).flatten)
    (hid : unsignedHash tx=t.txid) : H.has t = true := by
  refine has_iff.mpr ⟨_,?_,tx,htx,hid⟩
  intro d hd
  rw [Option.mem_def.mp hd]
  rfl

theorem ChainEvidence.Reads.final (hreads : e.Reads H) (hlater : H.Becomes e H') {c : ChainName}
    (hlt : lt∈e.listed c) (hpos : 0<lt.confirmations)
    (hdeep : e.undoes c≤lt.confirmations) : lt.tx∈(H'.blocks c).flatten := by
  obtain ⟨block,hunder,htx⟩ := hreads.listed c lt hlt hpos
  obtain ⟨m,-,hunder'⟩ := hunder.reaches hdeep (hlater c)
  exact mem_flatten_of_mem hunder'.mem htx

omit [Hashing] in
theorem Ledgers.Becomes.mem (hlater : H.Becomes e H') {c : ChainName} (hundoes : e.undoes c≤1) {tx : MsgTx}
    (htx : tx∈(H.blocks c).flatten) : tx∈(H'.blocks c).flatten := by
  obtain ⟨block,hblock,hmem⟩ := mem_flatten.mp htx
  exact mem_flatten_of_mem (mem_of_reaches hundoes (hlater c) hblock) hmem

theorem ChainEvidence.Reads.stays (hreads : e.Reads H) (hlater : H.Becomes e H') (hnames : t.Names H)
    (hconfirmed : e.confirmed t.chain t=true) (hshallow : e.shallow t.chain t=false) : H'.has t = true := by
  obtain ⟨tx,htx,hid⟩ := hreads.located hnames hconfirmed
  by_cases hundoes : e.undoes (node t.chain) ≤ 1
  · exact has_of_node (hlater.mem hundoes htx) hid
  -- only Dogecoin's blocks are undone, and there the listing shows a depth they are not undone at
  have hchain : t.chain = some .dogecoin := by
    cases hc : t.chain with
    | none => simp [hc,node,undoes] at hundoes
    | some c => cases c <;> simp [hc,node,undoes] at hundoes ⊢
  have hdeep : 1 < e.deep := by simpa [hchain,node,undoes] using hundoes
  simp only [shallow,hchain,hdeep,decide_true,Bool.true_and,Option.all_eq_false,
    decide_eq_false_iff_not,not_lt] at hshallow
  obtain ⟨lt,hlisted,hconf⟩ := hshallow
  obtain ⟨hid',c,hc,hlt⟩ := listedAs_some hlisted
  cases hc
  refine has_of_node ?_ hid'
  rw [hchain]
  exact hreads.final hlater hlt (by omega) hconf

/-- A transaction one of whose inputs another one spent deep enough never gets into a block. -/
theorem ChainEvidence.Reads.dead (hreads : e.Reads H) (hlater : H.Becomes e H') (hnames : t.Names H')
    {op : OutPoint} (hop : op∈t.inputs) (hspent : e.spentDeep t.chain t op=true) : H'.has t = false := by
  simp only [spentDeep,any_eq_true,Bool.and_eq_true,decide_eq_true_eq,byID,mem_filter,mem_listing] at hspent
  obtain ⟨lt,⟨⟨c,hchain,hlt⟩,-⟩,⟨hne,hneed⟩,hspends⟩ := hspent
  have hdepth : 0 < lt.confirmations ∧ e.undoes c ≤ lt.confirmations := by
    split at hneed
    · next h =>
      cases hchain.symm.trans h.1
      exact ⟨by omega, hneed⟩
    · next h =>
      refine ⟨by omega, ?_⟩
      cases c with
      | dogecoin =>
        have hdeep : e.deep ≤ 1 := by simpa [hchain] using h
        exact hdeep.trans hneed
      | dogecoinVM => exact zero_le_one.trans hneed
  have hfinal := hreads.final hlater hlt hdepth.1 hdepth.2
  by_contra hhas
  obtain ⟨c',-,tx,htx,hid⟩ := has_iff.mp (Bool.eq_true_of_not_eq_false hhas)
  obtain ⟨-,heq⟩ := H'.once c c' lt.tx tx op hfinal htx (hnames.coins op hop) hspends
    (hnames.spends c' tx htx hid ▸ hop)
  exact hne (heq ▸ hid)

/-! ## However the chains go on -/

section

variable (known : OutPoint → Bool) (inChain : ChainName → OutPoint → Bool)

theorem LoggedAction.unseen_nonneg (a : LoggedAction) : 0 ≤ (a.unseen e known inChain).toInt := by
  rw [unseen]
  split
  · split
    · rw [toInt_max,toInt_zero]
      exact le_max_right _ _
    · exact le_rfl
  · exact le_foldl_mostFee _ a.txs 0

/-- However the chains go on, an action brings no more fees into blocks than it reserves. -/
theorem LoggedAction.feesOf_sub_le (hreads : e.Reads H) (hlater : H.Becomes e H')
    (hnames : ∀ t∈a.txs, t.Names H) (hnames' : ∀ t∈a.txs, t.Names H') (hconf : a.Conflicting)
    (hfees : ∀ t∈a.txs, H.has t = true → 0 ≤ t.fee.toInt) :
    H'.feesOf a-H.feesOf a ≤ (a.unseen e known inChain).toInt := by
  have hunseen : 0 ≤ (a.unseen e known inChain).toInt := unseen_nonneg known inChain a
  have hnow : 0 ≤ H.feesOf a := by
    rcases hconf.feesOf_cases hnames with ⟨h,-⟩ | ⟨t,ht,hhas,h⟩
    · exact h.ge
    · exact h ▸ hfees t ht hhas
  obtain ⟨hzero,-⟩ | ⟨u,hu,hhas,hfee⟩ := hconf.feesOf_cases hnames'
  · omega
  rw [hfee]
  rw [unseen]
  split
  · next t ht =>
    -- one alternative is in a block now
    have hmem := mem_of_find?_eq_some ht
    have hfound := List.find?_some ht
    simp only [Bool.and_eq_true,decide_eq_true_eq] at hfound
    have hhasNow : H.has t = true := by
      obtain ⟨tx,htx,hid⟩ := hreads.located (hnames t hmem) hfound.2
      exact has_of_node htx hid
    have hfeeNow : H.feesOf a = t.fee.toInt := by
      rcases hconf.feesOf_cases hnames with ⟨-,hnone⟩ | ⟨w,hw,hhasW,h⟩
      · rw [hnone t hmem] at hhasNow
        cases hhasNow
      · rw [h,(hconf w hw t hmem).1 (hconf.txid_eq hnames hw hmem hhasW hhasNow)]
    split
    · have hle := fee_le_worst hmem
      have hle' := fee_le_worst hu
      rw [toInt_max,toInt_sub_of_le (hfees t hmem hhasNow) hle,toInt_zero,hfeeNow]
      omega
    · next hshallow =>
      have hstays := hreads.stays hlater (hnames t hmem) hfound.2 (Bool.eq_false_of_not_eq_true hshallow)
      rw [hfeeNow,(hconf u hu t hmem).1 (hconf.txid_eq hnames' hu hmem hhas hstays)]
      simp
  · -- none is: the one that gets there is live now
    have hlive : liveFee e known inChain u = true := by
      rw [liveFee,all_eq_true]
      intro op hop
      by_contra hgone
      simp only [Bool.or_eq_true,not_or,Bool.not_eq_true',Bool.not_eq_false] at hgone
      rw [hreads.dead hlater (hnames' u hu) hop hgone.2] at hhas
      cases hhas
    calc u.fee.toInt-H.feesOf a ≤ u.fee.toInt := by omega
      _ ≤ _ := fee_le_foldl_mostFee (liveFee e known inChain) le_rfl hu hlive

/-- What the actions of a log reserve, added up exactly. -/
def SigningLog.reserves (log : SigningLog) (e : ChainEvidence) (known : OutPoint → Bool)
    (inChain : ChainName → OutPoint → Bool) : ℤ :=
  exact (log.actions.entries.map fun entry => entry.2.unseen e known inChain)

theorem unseenFees_all {log : SigningLog} {except : ActionKey} (hexcept : log.has except=false) :
    log.unseenFees e known inChain except =
      total (log.actions.entries.map fun entry => entry.2.unseen e known inChain) := by
  have hall : (log.actions.entries.filter fun entry => entry.1 ≠ except) = log.actions.entries := by
    rw [filter_eq_self]
    intro entry hentry
    rw [decide_eq_true_eq]
    rintro rfl
    have hmem : entry.1∈log.actions := mem_map_of_mem hentry
    rw [SigningLog.has,AList.lookup_isSome.mpr hmem] at hexcept
    cases hexcept
  rw [SigningLog.unseenFees,hall]

/-- However the chains go on, the log's transactions bring no more fees into blocks than
`unseenFees` reserves, if and only if the reserves of its actions add up in an `int64`. -/
theorem fees_sub_le_unseenFees_iff (log : SigningLog) (except : ActionKey) (hexcept : log.has except=false)
    (hreads : e.Reads H) (hnames : ∀ t∈log.txs, t.Names H)
    (hconf : ∀ entry∈log.actions.entries, entry.2.Conflicting) (hpaid : ∀ t∈log.txs, H.has t = true → 0 ≤ t.fee)
    (hreserves : log.reserves e known inChain<2^64) : (∀ H', H.Becomes e H' → (∀ t∈log.txs, t.Names H') →
      H'.fees log-H.fees log ≤ (log.unseenFees e known inChain except).toInt) ↔
        log.reserves e known inChain < 2^63 := by
  have htotal : (log.unseenFees e known inChain except).toInt = (log.reserves e known inChain).bmod (2^64) := by
    rw [unseenFees_all known inChain hexcept,total_eq_sum,← zero_add (List.sum _),toInt_add_sum,toInt_zero,zero_add]
    rfl
  constructor
  · -- where the sum wraps it is negative, and the chains need not go on at all
    intro h
    by_contra hwraps
    have hnow := h H (fun c => .refl) hnames
    rw [htotal,sub_self,Int.bmod_def] at hnow
    split at hnow <;> omega
  · intro hfits H' hlater hnames'
    have hnonneg : 0 ≤ log.reserves e known inChain := by
      refine exact_nonneg fun v hv => ?_
      obtain ⟨entry,-,rfl⟩ := mem_map.mp hv
      exact LoggedAction.unseen_nonneg known inChain entry.2
    rw [htotal,Int.bmod_eq_of_le (by omega) (by omega),fees,fees,← sum_map_sub,SigningLog.reserves,exact,map_map]
    refine sum_le_sum fun entry hentry => ?_
    have htxs : ∀ t∈entry.2.txs, t∈log.txs := fun t ht => mem_flatMap.mpr ⟨entry,hentry,ht⟩
    exact LoggedAction.feesOf_sub_le known inChain hreads hlater (fun t ht => hnames t (htxs t ht))
      (fun t ht => hnames' t (htxs t ht)) (hconf entry hentry)
      (fun t ht hhas => nonneg_iff.mp (hpaid t (htxs t ht) hhas))

end

end

section Sample

attribute [local instance] sampleHashing

/-- A block's coin of the reserve. -/
def reserveCoin (n : UInt32) : MsgTx :=
  ⟨1,[⟨⟨0,maxPrevOutIndex⟩,[],[],0⟩],[⟨900000000000000000,[0x51]⟩],n,one_le_maxTxOut⟩

/-- A cancellation that spends it, for a fee of nearly all of it. -/
def cancelOf (n : UInt32) : MsgTx :=
  ⟨1,[⟨(reserveCoin n).outPoint 0,[],[],0⟩],[⟨10000000000000000,[0x51]⟩],0,one_le_maxTxOut⟩

def cancelEntry (n : UInt32) : LoggedTx :=
  ⟨unsignedHash (cancelOf n),[],(cancelOf n).spends,some .dogecoinVM,890000000000000000⟩

def unsentActions (ns : List UInt32) : List ((_ : ActionKey) × LoggedAction) :=
  ns.map fun n => ⟨.cancel ⟨1,n⟩,⟨0,0,[cancelEntry n]⟩⟩

theorem unsentActions_nodupKeys {ns : List UInt32} (h : ns.Nodup) : (unsentActions ns).NodupKeys := by
  rw [unsentActions,NodupKeys,keys,map_map]
  exact h.map fun _ _ heq => by simpa using heq

/-- Cancellations of deposits, none of them sent. -/
def unsentLog (ns : List UInt32) (h : ns.Nodup) : SigningLog where
  actions := ⟨unsentActions ns,unsentActions_nodupKeys h⟩
  anchors _ := none
  history := .new
  cutover _ := none
  cutoverEpoch := 0
  cutoverStarted := 0
  fenceBudget := 0
  fenceCapital := []

def noEvidence : ChainEvidence := ⟨fun _ => [], fun _ _ => false, 6⟩

def elevenCoins : List UInt32 := [0,1,2,3,4,5,6,7,8,9,10]

theorem nodup_elevenCoins : elevenCoins.Nodup := by decide

/-- Eleven blocks of the reserve, and what is mined after them. -/
def cancelBlocks (mined : List UInt32) : ChainName → List (List MsgTx)
  | .dogecoin => []
  | .dogecoinVM => (elevenCoins.map fun n => [reserveCoin n])++mined.map fun n => [cancelOf n]

theorem mem_cancelBlocks {c : ChainName} {mined : List UInt32} {tx : MsgTx} (h : tx∈(cancelBlocks mined c).flatten) :
    c = .dogecoinVM ∧ ((∃ n∈elevenCoins, tx = reserveCoin n) ∨ ∃ n∈mined, tx = cancelOf n) := by
  cases c with
  | dogecoin => cases h
  | dogecoinVM =>
    refine ⟨rfl,?_⟩
    rw [cancelBlocks,flatten_append,mem_append] at h
    simpa [eq_comm] using h

theorem nodup_ids : (elevenCoins.map (fun n => unsignedHash (reserveCoin n))++
    elevenCoins.map fun n => unsignedHash (cancelOf n)).Nodup := by
  decide +kernel

theorem eq_cancelOf {mined : List UInt32} (h : mined ⊆ elevenCoins) {c : ChainName} {tx : MsgTx} {op : OutPoint}
    (hindex : op.index≠maxPrevOutIndex) (hop : op∈tx.spends) (htx : tx∈(cancelBlocks mined c).flatten) :
    c = .dogecoinVM ∧ ∃ n∈elevenCoins, tx = cancelOf n ∧ op = (reserveCoin n).outPoint 0 := by
  obtain ⟨hc,⟨n,-,rfl⟩ | ⟨n,hn,rfl⟩⟩ := mem_cancelBlocks htx
  · exact absurd (congrArg OutPoint.index (mem_singleton.mp hop)) hindex
  · exact ⟨hc,n,h hn,rfl,mem_singleton.mp hop⟩

theorem cancelBlocks_once {mined : List UInt32} (h : mined ⊆ elevenCoins) (c c' : ChainName) (tx tx' : MsgTx)
    (op : OutPoint) (htx : tx∈(cancelBlocks mined c).flatten) (htx' : tx'∈(cancelBlocks mined c').flatten)
    (hindex : op.index≠maxPrevOutIndex) (hop : op∈tx.spends) (hop' : op∈tx'.spends) : c = c' ∧ tx = tx' := by
  obtain ⟨hc,n,hn,rfl,hpoint⟩ := eq_cancelOf h hindex hop htx
  obtain ⟨hc',m,hm,rfl,hpoint'⟩ := eq_cancelOf h hindex hop' htx'
  have hids := congrArg OutPoint.hash (hpoint.symm.trans hpoint')
  rw [inj_on_of_nodup_map (nodup_append.mp nodup_ids).1 hn hm hids]
  exact ⟨hc.trans hc'.symm,rfl⟩

def cancelLedgers (mined : List UInt32) (h : mined ⊆ elevenCoins) : Ledgers := ⟨cancelBlocks mined,cancelBlocks_once h⟩

theorem noEvidence_reads (mined : List UInt32) (h : mined ⊆ elevenCoins) : noEvidence.Reads (cancelLedgers mined h) :=
  ⟨by simp [noEvidence], by simp [noEvidence]⟩

abbrev noneMined : Ledgers := cancelLedgers [] (nil_subset _)

abbrev allMined : Ledgers := cancelLedgers elevenCoins (.refl _)

abbrev oneUnsent : SigningLog := unsentLog [0] (nodup_singleton 0)

abbrev allUnsent : SigningLog := unsentLog elevenCoins nodup_elevenCoins

theorem becomes_mined : noneMined.Becomes noEvidence allMined := by
  intro c
  cases c with
  | dogecoin => exact .refl
  | dogecoinVM =>
    exact .single ⟨0,elevenCoins.map fun n => [cancelOf n], .inl rfl, Nat.zero_le _, Nat.zero_le _, rfl⟩

theorem cancelEntry_names (mined : List UInt32) (h : mined ⊆ elevenCoins) {n : UInt32} (hn : n∈elevenCoins) :
    (cancelEntry n).Names (cancelLedgers mined h) := by
  obtain ⟨-,hinj,hne⟩ := nodup_append.mp nodup_ids
  have hsigned : ∀ m, (reserveCoin m).txHash = unsignedHash (reserveCoin m) ∧
      (cancelOf m).txHash = unsignedHash (cancelOf m) := fun m => ⟨rfl,rfl⟩
  refine ⟨fun op hop => ?_, fun c tx htx hid => ?_, fun c tx htx hid => ?_⟩
  · rw [mem_singleton.mp hop]
    exact (by decide : (0 : UInt32)≠maxPrevOutIndex)
  · rcases (mem_cancelBlocks htx).2 with ⟨m,hm,rfl⟩ | ⟨m,hm,rfl⟩
    · exact absurd hid (hne _ (mem_map_of_mem hm) _ (mem_map_of_mem hn))
    · rw [inj_on_of_nodup_map hinj (h hm) hn hid]
      rfl
  · rcases (mem_cancelBlocks htx).2 with ⟨m,hm,rfl⟩ | ⟨m,hm,rfl⟩
    · exact (hsigned m).1 ▸ mem_singleton.mp hid
    · exact (hsigned m).2 ▸ mem_singleton.mp hid

theorem unsentLog_names (mined : List UInt32) (h : mined ⊆ elevenCoins) {ns : List UInt32} (hns : ns.Nodup)
    (hsub : ns ⊆ elevenCoins) : ∀ t∈(unsentLog ns hns).txs, t.Names (cancelLedgers mined h) := by
  intro t ht
  obtain ⟨n,hn,rfl⟩ : ∃ n∈ns, cancelEntry n = t := by
    simpa [SigningLog.txs,unsentLog,unsentActions,eq_comm] using ht
  exact cancelEntry_names mined h (hsub hn)

theorem unsentLog_conflicting {ns : List UInt32} (hns : ns.Nodup) :
    ∀ entry∈(unsentLog ns hns).actions.entries, entry.2.Conflicting := by
  intro entry hentry t ht u hu
  obtain ⟨n,-,rfl⟩ := mem_map.mp hentry
  rw [mem_singleton.mp ht,mem_singleton.mp hu]
  exact ⟨fun _ => rfl, fun h => absurd rfl h⟩

/-- What one cancellation takes is reserved. -/
theorem unsentLog_fees_reserved : allMined.fees oneUnsent = 890000000000000000 ∧
    allMined.fees oneUnsent-noneMined.fees oneUnsent ≤
      (oneUnsent.unseenFees noEvidence (fun _ => false) (fun _ _ => false) (.fence ⟨0,0⟩)).toInt :=
  ⟨by decide +kernel, (fees_sub_le_unseenFees_iff _ _ _ (.fence ⟨0,0⟩) rfl (noEvidence_reads [] _)
    (unsentLog_names [] _ _ (by decide)) (unsentLog_conflicting _) (by decide +kernel) (by decide +kernel)).mpr
      (by decide +kernel) _ becomes_mined (unsentLog_names _ _ _ (by decide))⟩

/-- Eleven cancellations, each for less than a block of the reserve: their reserves add up to no `int64`,
and cover nothing. -/
theorem wrapping_reserves_fall_short :
    (∀ t∈allUnsent.txs, 0 ≤ t.fee ∧ t.Names noneMined ∧ t.Names allMined) ∧
    (∀ entry∈allUnsent.actions.entries, entry.2.Conflicting) ∧ noEvidence.Reads noneMined ∧
    noneMined.Becomes noEvidence allMined ∧
    ¬ allMined.fees allUnsent-noneMined.fees allUnsent ≤
      (allUnsent.unseenFees noEvidence (fun _ => false) (fun _ _ => false) (.fence ⟨0,0⟩)).toInt := by
  have hfees : ∀ t∈allUnsent.txs, 0 ≤ t.fee := by decide +kernel
  refine ⟨fun t ht => ⟨hfees t ht,unsentLog_names [] _ _ (.refl _) t ht,unsentLog_names _ _ _ (.refl _) t ht⟩,
    unsentLog_conflicting _, noEvidence_reads [] _, becomes_mined, ?_⟩
  decide +kernel

end Sample

end DogePeg
