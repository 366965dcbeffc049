import DogePeg.Bridge.Load
import DogePeg.Lib.Checks

/-!
# Conflicted transactions of the Dogecoin wallet

`dogeChain.history` adds back as conflicted each transaction the wallet listed once and lists no more, at
the depth of the best evidence that it cannot be mined: a transaction in a block that spends one of its
inputs (`cmd/dogevm/chains.go`, `cmd/dogevm/deadproof.go`).
-/

namespace DogePeg

open Checks List Option

/-- `historyEntry`, with the transaction it is of. The height is zero outside blocks. -/
structure HistoryEntry where
  tx : MsgTx
  height : ℤ
  conflicted : Bool
  conflictDepth : ℤ
  time : ℤ

structure BlockAnswer where
  confirmations : ℤ
  txids : List Hash

/-- `conflictProof`: the spender, if it decodes, and what the node answers about the block. -/
structure ConflictProof where
  spender : Option MsgTx
  block : Option BlockAnswer

/-- A `deadRecord` of a transaction the wallet no longer lists. -/
structure DeadRecord where
  tx : MsgTx
  time : ℤ
  proofs : List ConflictProof
  mined : Bool

def isNullOutPoint (op : OutPoint) : Bool := op.index = maxPrevOutIndex && op.hash = 0

section

variable [Hashing]

def spendsInputOf (spender dropped : MsgTx) : Bool :=
  spender.txHash ≠ dropped.txHash && spender.spends.any fun op => op ∈ dropped.spends && !isNullOutPoint op

def proofDepth (dropped : MsgTx) (p : ConflictProof) : Option ℤ := do
  let spender ← p.spender
  guard (spendsInputOf spender dropped)
  let block ← p.block
  if block.confirmations < 1 then return 0
  guard (spender.txHash∈block.txids)
  return block.confirmations

/-- The wallet as one read of it finds it. -/
structure Wallet where
  tip : ℤ
  entries : List HistoryEntry
  gone : List DeadRecord

namespace Wallet

variable (w : Wallet)

def depthOf (e : HistoryEntry) : ℤ := w.tip-e.height+1

def inBlock (e : HistoryEntry) : Bool := 0 < e.height && !e.conflicted

def walletConflictDepth (dropped : MsgTx) : ℤ :=
  ((w.entries.filter fun e => inBlock e && spendsInputOf e.tx dropped).map w.depthOf).foldl max 0

/-- The depth `droppedDepth` finds, where every transaction it reads can be read. -/
def deadDepth (r : DeadRecord) : ℤ :=
  (r.proofs.filterMap (proofDepth r.tx)).foldl max (w.walletConflictDepth r.tx)

def listedSpender (tx : MsgTx) : Option Hash :=
  (w.entries.find? fun e => e.height ≠ 0 && !e.conflicted &&
    e.tx.spends.any fun op => op.hash = tx.txHash).map (·.tx.txHash)

/-- A transaction that was mined, and that nothing shows conflicted, the wallet lost. -/
def addBack (r : DeadRecord) : Except Hash HistoryEntry := do
  let depth := w.deadDepth r
  ensure (!(depth = 0 && (r.mined || (w.listedSpender r.tx).isSome))) r.tx.txHash
  return ⟨r.tx,0,true,depth,r.time⟩

def history : Except Hash (List HistoryEntry) := do
  let back ← w.gone.mapM w.addBack
  return w.entries++back

end Wallet

/-- `conflictedFor`, of the transactions that touch the watched addresses. A depth of zero, no
evidence at all, is listed as one. -/
def conflictedFor (touches : MsgTx → Bool) (entries : List HistoryEntry) : List ChainTx :=
  (entries.filter fun e => e.conflicted && touches e.tx).map fun e =>
    ⟨e.tx,-max e.conflictDepth 1,e.time⟩

/-! ## What a listed depth rests on -/

omit [Hashing] in
theorem exists_of_le_foldl_max {l : List ℤ} {d m : ℤ} (h : d≤l.foldl max m) : d ≤ m ∨ ∃ x∈l, d ≤ x := by
  induction l generalizing m with
  | nil => exact .inl h
  | cons x l ih =>
    rcases ih h with hm | ⟨y,hy,hle⟩
    · rcases le_max_iff.mp hm with hm | hx
      · exact .inl hm
      · exact .inr ⟨x,mem_cons_self ..,hx⟩
    · exact .inr ⟨y,mem_cons_of_mem _ hy,hle⟩

omit [Hashing] in
theorem le_foldl_max (l : List ℤ) (m : ℤ) : m ≤ l.foldl max m := by
  induction l generalizing m with
  | nil => exact le_rfl
  | cons x l ih => exact (le_max_left m x).trans (ih _)

omit [Hashing] in
theorem foldl_max_le_iff {l : List ℤ} {m b : ℤ} : l.foldl max m ≤ b ↔ m ≤ b ∧ ∀ x∈l, x ≤ b := by
  induction l generalizing m with
  | nil => simp
  | cons x l ih =>
    rw [foldl_cons,ih,max_le_iff,forall_mem_cons,and_assoc]

omit [Hashing] in
theorem foldl_max_mem (l : List ℤ) (m : ℤ) : l.foldl max m = m ∨ l.foldl max m ∈ l := by
  rcases exists_of_le_foldl_max (le_refl (l.foldl max m)) with hm | ⟨x,hx,hle⟩
  · exact .inl (hm.antisymm (le_foldl_max l m))
  · have hle' := (foldl_max_le_iff.mp (le_refl (l.foldl max m))).2 x hx
    exact .inr (hle.antisymm hle' ▸ hx)

/-- A proof counts for nothing, or for a block the node knows on the main chain. -/
theorem of_proofDepth {dropped : MsgTx} {p : ConflictProof} {d : ℤ} (h : proofDepth dropped p=some d) :
    d = 0 ∨ ∃ spender block, p.spender = some spender ∧ p.block = some block ∧ 1 ≤ block.confirmations ∧
      d = block.confirmations ∧ spender.txHash∈block.txids ∧ spendsInputOf spender dropped = true := by
  simp only [proofDepth,bind_eq_bind,bind_eq_some_iff,guard_eq_some'] at h
  obtain ⟨spender,hspender,-,hspends,block,hblock,h⟩ := h
  split at h
  · cases h
    exact .inl rfl
  · next hmain =>
    simp only [bind_eq_some_iff,guard_eq_some'] at h
    obtain ⟨-,hholds,h⟩ := h
    cases h
    exact .inr ⟨spender,block,hspender,hblock,by omega, rfl, hholds, hspends⟩

namespace Wallet

variable {w : Wallet} {r : DeadRecord} {d : ℤ}

theorem deadDepth_nonneg (w : Wallet) (r : DeadRecord) : 0 ≤ w.deadDepth r :=
  (le_foldl_max _ _).trans (le_foldl_max _ _)

/-- What the wallet lost comes back as conflicted, and with a depth if it was mined. -/
theorem exists_of_gone {entries : List HistoryEntry} (h : w.history = .ok entries) (hr : r∈w.gone) :
    ∃ e∈entries, e.tx = r.tx ∧ e.conflicted = true ∧ e.conflictDepth = w.deadDepth r ∧
      (r.mined = true ∨ (w.listedSpender r.tx).isSome = true → 1 ≤ w.deadDepth r) := by
  simp only [history,checks_ok] at h
  obtain ⟨back,hback,rfl⟩ := h
  obtain ⟨e,he,hadd⟩ := mem_of_mapM_ok hback r hr
  simp only [addBack,checks_ok] at hadd
  obtain ⟨hensure,rfl⟩ := hadd
  refine ⟨_,mem_append_right _ he,rfl,rfl,rfl,fun hmined => ?_⟩
  have hne : w.deadDepth r ≠ 0 := by
    intro hzero
    rcases hmined with hmined | hspender
    · simp [hzero,hmined] at hensure
    · simp [hzero,hspender] at hensure
  have := w.deadDepth_nonneg r
  omega

/-- The evidence against a dropped transaction: a transaction in a block that deep. -/
inductive Evidence (w : Wallet) (r : DeadRecord) (d : ℤ) : Prop where
  | listed {e : HistoryEntry} (mem : e∈w.entries) (height : 0<e.height)
      (conflicted : e.conflicted=false) (deep : d≤w.depthOf e)
      (spends : spendsInputOf e.tx r.tx=true)
  | proven {p spender block} (mem : p∈r.proofs)
      (spender_eq : p.spender=some spender) (block_eq : p.block=some block)
      (deep : d≤block.confirmations) (holds : spender.txHash∈block.txids)
      (spends : spendsInputOf spender r.tx=true)

theorem evidence_of_deadDepth (hd : 0<d) (h : d≤w.deadDepth r) : w.Evidence r d := by
  rcases exists_of_le_foldl_max h with hwallet | ⟨x,hx,hle⟩
  · rcases exists_of_le_foldl_max hwallet with hzero | ⟨x,hx,hle⟩
    · omega
    · obtain ⟨e,he,rfl⟩ := mem_map.mp hx
      obtain ⟨hmem,he⟩ := mem_filter.mp he
      simp only [inBlock,Bool.and_eq_true,decide_eq_true_eq,Bool.not_eq_true'] at he
      exact .listed hmem he.1.1 he.1.2 hle he.2
  · obtain ⟨p,hp,hdepth⟩ := mem_filterMap.mp hx
    rcases of_proofDepth hdepth with rfl | ⟨spender,block,hspender,hblock,-,rfl,hholds,hspends⟩
    · omega
    · exact .proven hp hspender hblock hle hholds hspends

/-- What is listed as conflicted two blocks deep or more, the wallet lists so, or there is
evidence that deep. -/
theorem of_conflictedFor {touches : MsgTx → Bool} {entries : List HistoryEntry} {t : ChainTx}
    (hhistory : w.history = .ok entries) (ht : t∈conflictedFor touches entries) (hd : 2≤d)
    (hle : d ≤ -t.confirmations) : (∃ e∈w.entries, e.tx = t.tx ∧ e.conflicted = true ∧ d ≤ e.conflictDepth) ∨
      ∃ r∈w.gone, r.tx = t.tx ∧ w.Evidence r d := by
  simp only [history,checks_ok] at hhistory
  obtain ⟨back,hback,rfl⟩ := hhistory
  obtain ⟨e,he,rfl⟩ := mem_map.mp ht
  obtain ⟨hmem,he⟩ := mem_filter.mp he
  simp only [Bool.and_eq_true] at he
  have hdeep : d ≤ e.conflictDepth := by
    simp only [neg_neg] at hle
    omega
  rcases mem_append.mp hmem with hlisted | hadded
  · exact .inl ⟨e,hlisted,rfl,he.1,hdeep⟩
  · obtain ⟨r,hr,hres⟩ := exists_of_mem_mapM hback e hadded
    simp only [addBack,checks_ok] at hres
    obtain ⟨-,rfl⟩ := hres
    exact .inr ⟨r,hr,rfl,evidence_of_deadDepth (by omega) hdeep⟩

end Wallet

end

end DogePeg
