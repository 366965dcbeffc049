import DogePeg.Bridge.Unsettled
import DogePeg.Signer.Fencing

/-!
# What clears a coin

A cutover counts a coin as cleared once a transaction deep enough spends it, or conflicts with the
transaction that makes it. No evidence at all is shown as a depth of one, so at any depth from two up a
coin is cleared by evidence only.
-/

namespace DogePeg

open Checks List

section

variable [Hashing]

/-- `txsFor`, before it is sorted. -/
def txsFor (touches : MsgTx → Bool) (tip : ℤ) (entries : List HistoryEntry) : List ChainTx :=
  (entries.filter fun e => !e.conflicted && touches e.tx).map fun e =>
    ⟨e.tx,if 0 < e.height then tip-e.height+1 else 0, e.time⟩

variable {op : OutPoint}

theorem Wallet.mem_entries_of_history {w : Wallet} {entries : List HistoryEntry} {e : HistoryEntry}
    (h : w.history = .ok entries) (he : e∈entries) (hconf : e.conflicted=false) : e∈w.entries := by
  simp only [history,checks_ok] at h
  obtain ⟨back,hback,rfl⟩ := h
  rcases mem_append.mp he with he | he
  · exact he
  · obtain ⟨r,-,hadd⟩ := exists_of_mem_mapM hback e he
    simp only [addBack,checks_ok] at hadd
    obtain ⟨-,rfl⟩ := hadd
    cases hconf

/-- From a depth of two up, what a cutover counts as cleared is spent that deep by a transaction
the wallet lists, or its funding transaction has a conflict that deep which the wallet lists, or
which the read itself found. -/
theorem cleared_by_evidence {rootDepth : ℤ} (hroot : 2 ≤ rootDepth) (s : PegState) (b : Bridge)
    (hline : s.pegLine.rootDepth=rootDepth) (touches : MsgTx → Bool) (depth : ℤ)
    (v v' : WalletView) (readOnly readOnly' : Bool) (fault fault' : FileFault) (file file' : UnsettledFile)
    (entries entries' : List HistoryEntry) (hread : (v.history depth readOnly fault file).1 = .ok entries)
    (htxs : ∀ t∈s.dogeTxs, t∈txsFor touches v.tip entries)
    (hread' : (v'.history depth readOnly' fault' file').1 = .ok entries')
    (hconflicted : ∀ t∈s.dogeConflicted, t∈conflictedFor touches entries')
    (op : OutPoint) (h : (s.view b .dogecoin).cleared op=true) :
    (∃ e∈v.entries, e.conflicted = false ∧ 0 < e.height ∧ rootDepth ≤ v.tip-e.height+1 ∧ op∈e.tx.spends) ∨
      (∃ e∈v'.entries, e.txid = op.hash ∧ e.conflicted = true ∧ rootDepth ≤ e.conflictDepth) ∨
      ∃ gone r, (v'.sync depth readOnly' fault' file').1 = .ok gone ∧ r∈gone ∧
        r.tx.txHash = op.hash ∧ (v'.wallet gone).Evidence r rootDepth := by
  have hdepth : (s.view b .dogecoin).depth = rootDepth := by
    change max s.pegLine.rootDepth 1 = rootDepth
    omega
  rcases ChainView.of_cleared (by omega) h with ⟨t,ht,hle,hop⟩ | ⟨t,ht,hhash,hle⟩
  · obtain ⟨e,he,rfl⟩ := mem_map.mp (htxs t (mem_inBlocks.mp ht).1)
    obtain ⟨he,hshown⟩ := mem_filter.mp he
    have hconf : e.conflicted = false := by
      simpa using (Bool.and_eq_true_iff.mp hshown).1
    obtain ⟨gone,-,hwallet⟩ := WalletView.history_ok hread
    rw [hdepth] at hle
    dsimp only at hle
    split at hle
    · next hheight =>
      exact .inl ⟨e,Wallet.mem_entries_of_history hwallet he hconf,hconf,hheight,hle,hop⟩
    · omega
  · obtain ⟨gone,hsync,hwallet⟩ := WalletView.history_ok hread'
    rw [hdepth] at hle
    rcases Wallet.of_conflictedFor hwallet (hconflicted t ht) hroot hle with
      ⟨e,he,htx,hconf,hdeep⟩ | ⟨r,hr,htx,hev⟩
    · exact .inr (.inl ⟨e,he,(congrArg MsgTx.txHash htx).trans hhash,hconf,hdeep⟩)
    · exact .inr (.inr ⟨gone,r,hsync,hr,(congrArg MsgTx.txHash htx).trans hhash,hev⟩)

end

section Sample

attribute [local instance] sampleHashing

/-- A wallet that gives every transaction's bytes, and an operator without proofs. -/
def openWallet (tip : ℤ) (entries : List HistoryEntry)
    (h : (entries.map HistoryEntry.txid).Nodup := by decide +kernel) : WalletView :=
  { sampleWalletView tip entries h with readable := fun _ => true }

/-- The file after a read that lists the deposit in the mempool. -/
def pendingFile : UnsettledFile :=
  FileCall.run 1 ∅ [.history (openWallet 10 [⟨lostDeposit,0,false,0,0⟩]) false .none]

/-- The deposit is dropped, nothing conflicts with it, and at a depth of one its coin is cleared. -/
theorem dropped_deposit_cleared :
    (∃ entries, ((openWallet 11 [] no_entries_nodup).history 1 false .none pendingFile).1 = .ok entries ∧
      droppedView.state.dogeConflicted = conflictedFor (fun _ => true) entries) ∧
      droppedView.state.dogeTxs = [] ∧ droppedView.state.pegLine.rootDepth = 1 ∧
      (droppedView.state.view droppedView.bridge .dogecoin).cleared (lostDeposit.outPoint 0) = true ∧
      ∀ gone, ((openWallet 11 [] no_entries_nodup).sync 1 false .none pendingFile).1 = .ok gone →
        ∀ r∈gone, ¬ ((openWallet 11 [] no_entries_nodup).wallet gone).Evidence r 1 := by
  refine ⟨⟨[⟨lostDeposit,0,true,0,0⟩],rfl,rfl⟩,rfl,by decide +kernel, by decide +kernel, ?_⟩
  intro gone hgone r hr hev
  obtain rfl : [⟨lostDeposit,0,[],false⟩] = gone := Except.ok.inj hgone
  obtain rfl := mem_singleton.mp hr
  cases hev with
  | listed mem => cases mem
  | proven mem => cases mem

/-- The wallet once the deposit is spent seven blocks deep. -/
def spentWallet : WalletView :=
  openWallet 100 [⟨lostDeposit,93,false,0,0⟩,⟨spentBack,94,false,0,0⟩]

/-- The deposit's coin is cleared by the transaction that spends it. -/
theorem spent_deposit_cleared :
    (spentView.state.view spentView.bridge .dogecoin).cleared (lostDeposit.outPoint 0) = true ∧
      ∃ e∈spentWallet.entries, e.conflicted = false ∧ 0 < e.height ∧ 6 ≤ spentWallet.tip-e.height+1 ∧
        lostDeposit.outPoint 0 ∈ e.tx.spends := by
  have hcleared : (spentView.state.view spentView.bridge .dogecoin).cleared (lostDeposit.outPoint 0) = true := by
    decide +kernel
  have hread : (spentWallet.history 6 false .none ∅).1 = .ok spentWallet.entries := rfl
  have hnone : ∀ t, t ∉ spentView.state.dogeConflicted := fun _ ht => by cases ht
  have hroot : (2 : ℤ) ≤ 6 := by decide
  have hline : spentView.state.pegLine.rootDepth = 6 := by decide +kernel
  refine ⟨hcleared,?_⟩
  rcases cleared_by_evidence hroot spentView.state spentView.bridge hline (fun _ => true) 6 spentWallet
    spentWallet false false .none .none ∅ ∅ spentWallet.entries spentWallet.entries hread
    (fun _ ht => ht) hread (fun t ht => absurd ht (hnone t)) (lostDeposit.outPoint 0) hcleared with
    hspent | ⟨e,he,-,hconf,-⟩ | ⟨gone,r,hsync,hr,-⟩
  · exact hspent
  · have hlisted : ∀ e∈spentWallet.entries, e.conflicted = false := by decide
    rw [hlisted e he] at hconf
    cases hconf
  · obtain rfl : [] = gone := Except.ok.inj hsync
    cases hr

end Sample

end DogePeg
