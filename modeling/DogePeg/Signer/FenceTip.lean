import DogePeg.Lib.Best
import DogePeg.Signer.FenceSize

/-!
# Fences spend the tip

A fence spends the tip of its chain's line first, or the inputs of the fence it replaces, so that two
fences signed for one history conflict (`nextFence` in `cmd/dogevm/cutover.go`). It does so exactly if
the tip is free or a fence of the signer's own record waits.
-/

namespace DogePeg

open Checks List

section

variable [Hashing] {b : Bridge} {n : Nodes} {s : PegState} {chain : ChainName} {recorded : List OutPoint}
  {tip : OutPoint} {now : ℤ} {fence : Bridge.BuiltFence}

namespace PegState

def TipIs (s : PegState) (chain : ChainName) (tip : OutPoint) : Prop :=
  ∃ t, (s.lineOn chain).tip = .ok (some t) ∧ t.tip = tip

def pendingFences (s : PegState) (b : Bridge) (chain : ChainName) (recorded : List OutPoint) : List ChainTx :=
  ((s.view b chain).txs.filter fun t => isFenceOf t recorded).filter fun t => t.confirmations = 0

theorem mem_pendingFences {f : ChainTx} : f∈s.pendingFences b chain recorded ↔
    f ∈ (s.view b chain).txs ∧ isFenceOf f recorded = true ∧ f.confirmations = 0 := by
  rw [pendingFences,mem_filter,mem_filter,decide_eq_true_eq,and_assoc]

/-- A round of `fenceState`'s loop: the fence that pays more. -/
def latestFence (s : PegState) (b : Bridge) (chain : ChainName) (best : Option ChainTx) (t : ChainTx) :
    Option ChainTx :=
  match best with
  | none => some t
  | some p => if s.fenceFeeOf b chain p.tx < s.fenceFeeOf b chain t.tx then some t else some p

theorem latestFence_cases (best : Option ChainTx) (t : ChainTx) :
    s.latestFence b chain best t = best ∨ s.latestFence b chain best t = some t := by
  cases best with
  | none => exact .inr rfl
  | some p =>
    rw [latestFence]
    split
    · exact .inr rfl
    · exact .inl rfl

theorem fenceState_fst :
    (s.fenceState b chain recorded).1 = (s.pendingFences b chain recorded).foldl (s.latestFence b chain) none := rfl

theorem mem_of_fenceState {f : ChainTx} (h : (s.fenceState b chain recorded).1=some f) :
    f ∈ s.pendingFences b chain recorded := (Best.mem_of_foldl latestFence_cases h).resolve_left nofun

theorem pendingFences_eq_nil (h : (s.fenceState b chain recorded).1=none) :
    s.pendingFences b chain recorded = [] := by
  rw [fenceState_fst] at h
  cases hfences : s.pendingFences b chain recorded with
  | nil => rfl
  | cons f rest =>
    rw [hfences,foldl_cons] at h
    have hsome : (rest.foldl (s.latestFence b chain) (s.latestFence b chain none f)).isSome = true :=
      Best.isSome_foldl latestFence_cases rfl
    rw [h] at hsome
    cases hsome

end PegState

theorem replaceFence_spends {pending : ChainTx} (h : b.replaceFence s chain pending now = .ok fence) :
    fence.tx.spends = pending.tx.spends := by
  simp only [Bridge.replaceFence,Bridge.fenceOf,checks_ok] at h
  obtain ⟨-,-,-,inputs,hinputs,size,-,tx,htx,rfl⟩ := h
  obtain ⟨first,sequence,-,rfl⟩ := exists_newTx_of_buildFence htx
  rw [newTx_spends]
  exact (picks_of_mapM (fun _ _ hu => find?_outPoint hu) hinputs).spends.symm

theorem freeAnchor_of_tip (htip : (b.load n).TipIs chain tip)
    (hfree : containsOutPoint ((b.load n).freeOn chain) tip=true) :
    ∃ a, (b.load n).freeAnchor chain = some a ∧ a.outPoint = tip := by
  obtain ⟨t,ht,rfl⟩ := htip
  have hanchor : ∃ a, (b.load n).anchorOn chain = some a ∧ a.outPoint = t.tip := by
    simp only [containsOutPoint,any_eq_true,decide_eq_true_eq] at hfree
    obtain ⟨u,hu,hpoint⟩ := hfree
    have hsome : ∀ coins : List Utxo, u∈coins →
        ∃ a, (((b.load n).lineOn chain).anchorIn coins) = some a ∧ a.outPoint = t.tip := by
      intro coins hmem
      rw [Lineage.anchorIn,ht]
      have hfound : (coins.find? fun u => u.outPoint = t.tip).isSome = true :=
        List.find?_isSome.mpr ⟨u,hmem,decide_eq_true hpoint⟩
      obtain ⟨a,ha⟩ := Option.isSome_iff_exists.mp hfound
      exact ⟨a,ha,(find?_outPoint ha).1⟩
    cases chain with
    | dogecoin => exact hsome _ (mem_append_left _ hu)
    | dogecoinVM =>
      have hmem : u∈b.reserveUTXOs n.vm.txs n.gettxout := hu
      rw [Bridge.reserveUTXOs,mem_filter,Bool.and_eq_true] at hmem
      exact hsome _ (mem_filter.mpr ⟨hmem.1,hmem.2.2⟩)
  obtain ⟨a,ha,hpoint⟩ := hanchor
  refine ⟨a,?_,hpoint⟩
  rw [PegState.freeAnchor,ha,Option.filter_some,if_pos (by rwa [hpoint])]

theorem head_of_nextFence_new {a : Utxo} (hnone : (s.fenceState b chain recorded).1=none)
    (ha : s.freeAnchor chain=some a) (h : b.nextFence s chain recorded now = .ok fence) :
    fence.tx.spends.head? = some a.outPoint := by
  obtain ⟨all,hall,htrim,-,hbuilt⟩ := nextFence_new hnone h
  simp only [PegState.fenceInputs,PegState.fenceOrder,checks_ok,ha] at hall
  obtain ⟨order,⟨-,rfl⟩,-,rfl⟩ := hall
  obtain ⟨first,sequence,hfirst,htx⟩ := exists_newTx_of_buildFence hbuilt
  obtain ⟨more,happend⟩ := prefix_of_trimToSize htrim
  have hhead := congrArg List.head? happend
  rw [List.head?_append,hfirst,List.head?_take,if_neg (by cases chain <;> decide)] at hhead
  obtain rfl : first = a := Option.some.inj hhead
  rw [htx,newTx_spends,List.head?_map,hfirst]
  rfl

/-- A new fence spends free coins, one of them recorded. -/
theorem spends_of_nextFence_new (hnone : (s.fenceState b chain recorded).1=none)
    (h : b.nextFence s chain recorded now = .ok fence) :
    (∀ op∈fence.tx.spends, containsOutPoint (s.freeOn chain) op = true) ∧ ∃ op∈fence.tx.spends, op∈recorded := by
  obtain ⟨all,hall,htrim,hrecorded,hbuilt⟩ := nextFence_new hnone h
  obtain ⟨first,sequence,-,htx⟩ := exists_newTx_of_buildFence hbuilt
  rw [htx,newTx_spends]
  refine ⟨fun op hop => ?_, ?_⟩
  · simp only [PegState.fenceInputs,PegState.fenceOrder,checks_ok] at hall
    obtain ⟨order,⟨-,rfl⟩,-,rfl⟩ := hall
    obtain ⟨u,hu,rfl⟩ := mem_map.mp hop
    rcases mem_append.mp (mem_of_mem_take ((prefix_of_trimToSize htrim).subset hu)) with hu | hu
    · exact (Option.filter_eq_some_iff.mp (Option.mem_toList.mp hu)).2
    · rw [mem_insertionSort] at hu
      exact any_eq_true.mpr ⟨u,(mem_filter.mp hu).1,decide_eq_true rfl⟩
  · obtain ⟨u,hu,hmem⟩ := any_eq_true.mp hrecorded
    exact ⟨u.outPoint,mem_map_of_mem hu,of_decide_eq_true hmem⟩

/-- Where a signer finds the tip: free, or with a fence of its record that waits. -/
def PegState.TipWithin (s : PegState) (b : Bridge) (chain : ChainName) (recorded : List OutPoint)
    (tip : OutPoint) : Prop :=
  containsOutPoint (s.freeOn chain) tip = true ∨ s.pendingFences b chain recorded ≠ []

theorem nextFence_cases (htip : (b.load n).TipIs chain tip) (hwithin : (b.load n).TipWithin b chain recorded tip)
    (h : b.nextFence (b.load n) chain recorded now = .ok fence) : fence.tx.spends.head? = some tip ∨
      ∃ f∈(b.load n).pendingFences b chain recorded, fence.tx.spends = f.tx.spends := by
  cases hstate : ((b.load n).fenceState b chain recorded).1 with
  | some pending =>
    right
    refine ⟨pending,PegState.mem_of_fenceState hstate,?_⟩
    unfold Bridge.nextFence at h
    split at h
    · next p _ hp =>
      rw [hp] at hstate
      cases hstate
      exact replaceFence_spends h
    · next hp =>
      rw [hp] at hstate
      cases hstate
  | none =>
    left
    have hfree := hwithin.resolve_right (not_not.mpr (PegState.pendingFences_eq_nil hstate))
    obtain ⟨a,ha,rfl⟩ := freeAnchor_of_tip htip hfree
    exact head_of_nextFence_new hstate ha h

/-- The fence spends the tip first, or what a fence in the mempool spends. -/
def SpendsTip (s : PegState) (b : Bridge) (chain : ChainName) (tip : OutPoint) (tx : MsgTx) : Prop :=
  tx.spends.head? = some tip ∨ ∃ f∈(s.view b chain).txs,
    f.confirmations = 0 ∧ (parseFence f.tx).isSome = true ∧ tx.spends = f.tx.spends

theorem tipWithin_of_spendsTip (h : b.nextFence s chain recorded now = .ok fence)
    (hspends : SpendsTip s b chain tip fence.tx) : s.TipWithin b chain recorded tip := by
  refine or_iff_not_imp_right.mpr fun hnil => ?_
  rw [not_not] at hnil
  have hnone : (s.fenceState b chain recorded).1 = none := Option.eq_none_iff_forall_not_mem.mpr fun f hf => by
    have hmem := PegState.mem_of_fenceState hf
    rw [hnil] at hmem
    cases hmem
  obtain ⟨hfree,op,hop,hrecorded⟩ := spends_of_nextFence_new hnone h
  rcases hspends with hhead | ⟨f,hf,hzero,htag,hsame⟩
  · exact hfree tip (mem_of_head? hhead)
  · -- a fence that spends the same coins spends the recorded one, so the signer takes it for its own
    rw [hsame] at hop
    have hown : f∈s.pendingFences b chain recorded := PegState.mem_pendingFences.mpr
      ⟨hf,by rw [isFenceOf,htag]; exact any_eq_true.mpr ⟨op,hop,decide_eq_true hrecorded⟩, hzero⟩
    rw [hnil] at hown
    cases hown

/-- The fences signed for a line with one tip, the latest first: of those a signer sees, the ones
that wait were signed before. -/
inductive FenceRun (b : Bridge) (chain : ChainName) (tip : OutPoint) : List Bridge.BuiltFence → Prop
  | nil : FenceRun b chain tip []
  | sign {signed n recorded now fence} (run : FenceRun b chain tip signed) (line : (b.load n).TipIs chain tip)
      (within : (b.load n).TipWithin b chain recorded tip)
      (seen : ∀ f∈(b.load n).pendingFences b chain recorded, ∃ g∈signed, f.tx.spends = g.tx.spends)
      (next : b.nextFence (b.load n) chain recorded now = .ok fence) : FenceRun b chain tip (fence::signed)

theorem FenceRun.head {signed : List Bridge.BuiltFence} (h : FenceRun b chain tip signed) :
    ∀ f∈signed, f.tx.spends.head? = some tip := by
  induction h with
  | nil => exact nofun
  | sign run line within seen next ih =>
    refine forall_mem_cons.mpr ⟨?_,ih⟩
    rcases nextFence_cases line within next with hhead | ⟨f,hf,hspends⟩
    · exact hhead
    · obtain ⟨g,hg,hsame⟩ := seen f hf
      rw [hspends,hsame]
      exact ih g hg

/-- A fence spends the tip first, or exactly what a fence in the mempool spends, if and only if the tip
is free or a fence of the record waits. So any two fences signed like that for one tip conflict. -/
theorem fences_spend_tip_iff (b : Bridge) (chain : ChainName) (tip : OutPoint) :
    (∀ n recorded now fence, (b.load n).TipIs chain tip → b.nextFence (b.load n) chain recorded now = .ok fence →
      (SpendsTip (b.load n) b chain tip fence.tx ↔ (b.load n).TipWithin b chain recorded tip)) ∧
    (∀ signed, FenceRun b chain tip signed → ∀ f∈signed, ∀ g∈signed, ∃ op∈f.tx.spends, op∈g.tx.spends) := by
  refine ⟨fun n recorded now fence htip h => ⟨tipWithin_of_spendsTip h,fun hwithin => ?_⟩,
    fun signed hrun f hf g hg => ?_⟩
  · refine (nextFence_cases htip hwithin h).imp_right ?_
    rintro ⟨f,hf,hspends⟩
    obtain ⟨hmem,hfence,hzero⟩ := PegState.mem_pendingFences.mp hf
    rw [isFenceOf,Bool.and_eq_true] at hfence
    exact ⟨f,hmem,hzero,hfence.1,hspends⟩
  · exact ⟨tip,mem_of_head? (hrun.head f hf),mem_of_head? (hrun.head g hg)⟩

end

section Sample

attribute [local instance] sampleHashing

/-- Two deposits to the peg: the older one is the tip of the line. -/
def tipDeposit : MsgTx := ⟨1,[⟨⟨5,0⟩,[],[],0⟩],[⟨3000000,sampleBridge.script⟩],0,by decide⟩

def nextDeposit : MsgTx := ⟨1,[⟨⟨6,0⟩,[],[],0⟩],[⟨2000000,sampleBridge.script⟩],0,one_le_maxTxOut⟩

def tipCoin : Utxo := ⟨tipDeposit.outPoint 0,3000000,sampleBridge.script,9⟩

def nextCoin : Utxo := ⟨nextDeposit.outPoint 0,2000000,sampleBridge.script,8⟩

def bumpingBridge : Bridge := { sampleBridge with fenceBumpAfter := 1 }

/-- The fence of the older coin, before the other one was there. -/
def tipFence : MsgTx :=
  newTx txVersion replaceable [tipCoin] ⟨2999999,sampleBridge.script⟩ none (encodeFence tipCoin.outPoint)

def tipNodes : Nodes where
  vm := .empty
  gettxout _ := false
  doge := .of [⟨tipDeposit,9,0⟩]
  dogeConflicted := []
  dogeUnspent := [tipCoin]

/-- It waits in the mempool, and the second deposit is in a block. -/
def waitingNodes : Nodes :=
  { tipNodes with
    doge := .of [⟨tipDeposit,9,0⟩,⟨nextDeposit,8,0⟩,⟨tipFence,0,0⟩]
    dogeUnspent := [nextCoin] }

theorem tipIs_of_any {s : PegState} {tip : OutPoint}
    (h : s.pegLine.tip.toOption.any (fun t => t.any fun t => t.tip = tip) = true) : s.TipIs .dogecoin tip := by
  obtain ⟨t,ht,htip⟩ := exists_ok_of_any h
  obtain ⟨t,rfl,htip⟩ := (Option.any_eq_true _ _).mp htip
  exact ⟨t,ht,of_decide_eq_true htip⟩

/-- A signer that recorded only the second deposit does not take the waiting fence for its own. It
signs a fence that does not spend the tip, and conflicts with nothing. -/
theorem second_fence_leaves_tip : (bumpingBridge.load waitingNodes).TipIs .dogecoin tipCoin.outPoint ∧
    ∃ fence, bumpingBridge.nextFence (bumpingBridge.load waitingNodes) .dogecoin [nextCoin.outPoint] 0 = .ok fence ∧
      fence.tx.spends = [nextCoin.outPoint] ∧ nextCoin.outPoint ≠ tipCoin.outPoint ∧
      ∀ f∈waitingNodes.doge.txs, f.confirmations = 0 → f.tx.spends = [tipCoin.outPoint] := by
  refine ⟨tipIs_of_any (by decide +kernel),?_⟩
  obtain ⟨fence,hfence,hspends⟩ := exists_ok_of_any
    (x := bumpingBridge.nextFence (bumpingBridge.load waitingNodes) .dogecoin [nextCoin.outPoint] 0)
    (p := fun fence => fence.tx.spends = [nextCoin.outPoint]) (by decide +kernel)
  exact ⟨fence,hfence,of_decide_eq_true hspends,by decide +kernel, by decide +kernel⟩

/-- A signer that recorded the tip replaces the waiting fence, and the two conflict. -/
theorem replacement_spends_tip : ∃ fence replacement : Bridge.BuiltFence, fence.tx = tipFence ∧ replacement.fee = 2 ∧
      ∃ op∈replacement.tx.spends, op∈fence.tx.spends := by
  obtain ⟨fence,hfence,htx⟩ := exists_ok_of_any
    (x := bumpingBridge.nextFence (bumpingBridge.load tipNodes) .dogecoin [tipCoin.outPoint] 0)
    (p := fun fence => fence.tx = tipFence) (by decide +kernel)
  obtain ⟨replacement,hreplacement,hfee⟩ := exists_ok_of_any
    (x := bumpingBridge.nextFence (bumpingBridge.load waitingNodes) .dogecoin [tipCoin.outPoint] 1)
    (p := fun fence => fence.fee = 2) (by decide +kernel)
  rw [decide_eq_true_eq] at htx hfee
  have hfirst : FenceRun bumpingBridge .dogecoin tipCoin.outPoint [fence] := by
    refine .sign .nil (tipIs_of_any (by decide +kernel)) (.inl (by decide +kernel)) ?_ hfence
    have hnone : (bumpingBridge.load tipNodes).pendingFences bumpingBridge .dogecoin [tipCoin.outPoint] = [] := by
      decide +kernel
    rw [hnone]
    exact nofun
  have hwaiting : (bumpingBridge.load waitingNodes).pendingFences bumpingBridge .dogecoin [tipCoin.outPoint] =
      [⟨tipFence,0,0⟩] := by decide +kernel
  have hrun : FenceRun bumpingBridge .dogecoin tipCoin.outPoint [replacement,fence] := by
    refine .sign hfirst (tipIs_of_any (by decide +kernel)) (.inr ?_) ?_ hreplacement
    · rw [hwaiting]
      exact cons_ne_nil _ _
    · intro f hf
      rw [hwaiting,mem_singleton] at hf
      exact ⟨fence,mem_singleton_self _,by rw [hf,htx]⟩
  exact ⟨fence,replacement,htx,hfee,(fences_spend_tip_iff bumpingBridge .dogecoin tipCoin.outPoint).2 _ hrun
    replacement (by simp) fence (by simp)⟩

end Sample

end DogePeg
