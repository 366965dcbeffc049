import DogePeg.Node.Supply
import DogePeg.Vm.Lifecycle
import Mathlib.Data.Set.Defs

/-!
# What the block index records

While no database write fails, every entry of btcd's block index is a block of the main
chain, or a block on one that could not be connected when it was tried. This is what
separates a block that may still be accepted from one btcd already knows.
-/

/-! ## Checkpoints on the main chain -/

namespace DogePeg.Node

open List Option

variable {hash : Hash} {cache : CheckpointCache} {e : IndexEntry}

namespace Checkpoints

variable {cps : Checkpoints}

theorem hash_eq_of_verify {c : Checkpoint}
    (hc : c∈cps.list) (h : cps.verify c.height hash=true) : c.hash = hash := by
  unfold verify at h
  cases hfind : cps.list.find? (·.height = c.height) with
  | none => simpa using List.find?_eq_none.mp hfind c hc
  | some c' =>
    rw [hfind] at h
    have hheight : c'.height = c.height := by simpa using List.find?_some hfind
    have hnodup : (cps.list.map (·.height)).Nodup := by
      rw [List.Nodup,pairwise_map]
      exact cps.sorted.imp fun hlt => Int32.ne_of_lt hlt
    have heq := inj_on_of_nodup_map hnodup (mem_of_find?_eq_some hfind) hc hheight
    simpa [heq] using h

theorem mem_of_after {c : Checkpoint} (h : cps.after hash=some c) : c∈cps.list :=
  mem_reverse.mp ((takeWhile_sublist _).subset (mem_of_getLast? h))

/-- What `findPreviousCheckpoint` has cached: a node of the main chain, and a checkpoint
still to come. -/
structure CacheOk (cps : Checkpoints) (nodes : List BlockNode) (cache : CheckpointCache) : Prop where
  node : ∀ n, cache.checkpointNode = some n → n∈nodes
  next : ∀ c, cache.nextCheckpoint = some c → c∈cps.list

theorem CacheOk.mono {nodes nodes' : List BlockNode}
    (h : cps.CacheOk nodes cache) (hsub : nodes ⊆ nodes') : cps.CacheOk nodes' cache :=
  ⟨fun n hn => hsub (h.node n hn), h.next⟩

/-- The search succeeds, with a node of the main chain, wherever the index finds on it each
checkpoint the chain is past. -/
theorem findPrevious_ok {nodes : List BlockNode}
    (lookupNode : Hash → Option BlockNode) (hcache : cps.CacheOk nodes cache)
    (hlookup : ∀ c∈cps.list, ¬ (nodes.head?.map (·.height)).getD 0 < c.height →
      ∃ n∈nodes, lookupNode c.hash = some n) :
    (∃ found, (cps.findPrevious nodes lookupNode cache).1 = .ok found ∧ ∀ n, found = some n → n∈nodes) ∧
      cps.CacheOk nodes (cps.findPrevious nodes lookupNode cache).2 := by
  obtain ⟨checkpointNode,nextCheckpoint⟩ := cache
  unfold findPrevious
  split
  case h_1 => exact ⟨⟨none,rfl,by simp⟩,hcache⟩
  case h_2 first rest hlist =>
    split
    case h_1 =>
      split
      case h_1 node hfound =>
        obtain ⟨c,-,hc⟩ := exists_of_findSome?_eq_some hfound
        have hmem := mem_of_find?_eq_some hc
        refine ⟨⟨some node,rfl,?_⟩,⟨?_,fun c h => mem_of_after h⟩⟩ <;>
        · intro n hn
          cases hn
          exact hmem
      case h_2 =>
        refine ⟨⟨none,rfl,by simp⟩,⟨by simp, ?_⟩⟩
        intro c hc
        cases hc
        simp [hlist]
    case h_2 => exact ⟨⟨checkpointNode,rfl,hcache.node⟩,hcache⟩
    case h_3 next hnext =>
      split
      · exact ⟨⟨checkpointNode,rfl,hcache.node⟩,hcache⟩
      · rename_i hpast
        obtain ⟨n,hn,hl⟩ := hlookup next (hcache.next next hnext) hpast
        rw [hl]
        refine ⟨⟨some n,rfl,?_⟩,⟨?_,fun c h => mem_of_after h⟩⟩ <;>
        · intro m hm
          cases hm
          exact hn

end Checkpoints

end DogePeg.Node

namespace DogePeg.Vm

open Node Holdings

section

variable (rules : Rules) (p : Params) (cps : Checkpoints) (reorganize : Reorganize) [Hashing]

/-! ## The entries of the index -/

/-- A block that has passed its own checks and those in the context of a chain. -/
def WellFormed (block : MsgBlock) : Prop :=
  (∃ now, checkBlockSanity rules now block = .ok ()) ∧ ∃ prev, checkBlockContents rules p block prev = .ok ()

def nodeOn (best : BestChain) (block : MsgBlock) : BlockNode :=
  newBlockNode (rules.blockHash block.header) block.header best.nodes

def ConnectsOn (best : BestChain) (block : MsgBlock) : Prop :=
  (∃ view, checkConnectBlock rules p cps best.utxos (nodeOn rules best block) best.nodes block
      (UtxoView.new block.header.prevBlock) (nextHeight best.nodes) = .ok view) ∧
    ∃ utxos, UtxoSet.connectTransactions (nextHeight best.nodes) best.utxos block.transactions = .ok utxos

/-- A node of the main chain with the nodes behind it, as the index has it. -/
structure MainNode (seen : Set MsgBlock) (index : BlockIndex) (n : BlockNode)
    (behind : List BlockNode) : Prop where
  height : n.height = Int32.ofNat behind.length
  entry : ∃ e, index n.hash = some e ∧ e.nodes = n::behind ∧ e.knownInvalid = false
  genesis : behind = [] → n.hash = p.genesisHash
  block : ∀ prev, behind.head? = some prev → cps.verify n.height n.hash = true ∧
    ∃ block∈seen, WellFormed rules p block ∧ rules.blockHash block.header = n.hash ∧
      block.header.prevBlock = prev.hash

/-- A block on the main chain that could not be connected when its parent was the tip. -/
def Refused (seen : Set MsgBlock) (best : BestChain) (hash : Hash) : Prop :=
  ∃ block∈seen, rules.blockHash block.header = hash ∧ WellFormed rules p block ∧
    block.header.prevBlock ∈ best.nodes.map (·.hash) ∧
    (best.nodes.head?.map (·.hash) = some block.header.prevBlock → ¬ ConnectsOn rules p cps best block)

/-- The main chain and the index, when only blocks of `seen` have been processed. -/
structure Tracked (seen : Set MsgBlock) (best : BestChain) (index : BlockIndex) : Prop where
  nodup : (best.nodes.map (·.hash)).Nodup
  main : ∀ n behind, n::behind <:+ best.nodes → MainNode rules p cps seen index n behind
  others : ∀ hash, index hash ≠ none → hash∈best.nodes.map (·.hash) ∨
    Refused rules p cps seen best hash

variable {rules p cps} {seen : Set MsgBlock} {best : BestChain} {index : BlockIndex}

theorem Tracked.lookup (h : Tracked rules p cps seen best index)
    (hlen : best.nodes.length<2^31) (c : Checkpoint) (hc : c∈cps.list)
    (hpast : ¬ (best.nodes.head?.map (·.height)).getD 0<c.height) :
    ∃ n∈best.nodes, (index c.hash).bind (·.nodes.head?) = some n := by
  have hpos := Int32.lt_iff_toInt_lt.mp (cps.pos c hc)
  rw [Int32.toInt_zero] at hpos
  obtain ⟨k,hk⟩ := Int.eq_ofNat_of_zero_le hpos.le
  cases hnodes : best.nodes with
  | nil => simp [hnodes,cps.pos c hc] at hpast
  | cons tip rest =>
    have htip := (h.main tip rest (hnodes ▸ List.suffix_rfl)).height
    rw [hnodes] at hlen hpast
    simp only [List.length_cons] at hlen
    simp only [List.head?_cons,Option.map_some,Option.getD_some,htip,Int32.lt_iff_toInt_lt,not_lt] at hpast
    rw [Int32.toInt_ofNat_of_lt (by omega),hk] at hpast
    -- the node as many blocks above the genesis block as the checkpoint is high
    obtain ⟨n,behind,hdrop,hlen'⟩ : ∃ n behind, best.nodes.drop (rest.length-k) = n::behind ∧
          behind.length = k := by
      cases hd : best.nodes.drop (rest.length-k) with
      | nil =>
        have := congrArg List.length hd
        simp [hnodes] at this
        omega
      | cons n behind =>
        have := congrArg List.length hd
        simp [hnodes] at this
        exact ⟨n,behind,rfl,by omega⟩
    have hsuffix : n::behind <:+ best.nodes := hdrop ▸ List.drop_suffix _ _
    have hmain := h.main n behind hsuffix
    have hheight : n.height = c.height := by
      rw [hmain.height,hlen',← Int32.toInt_inj,Int32.toInt_ofNat_of_lt (by omega),hk]
    obtain ⟨prev,hprev⟩ : ∃ prev, behind.head? = some prev := by
      cases behind with
      | nil =>
        rw [List.length_nil] at hlen'
        omega
      | cons prev _ => exact ⟨prev,rfl⟩
    have hverify := (hmain.block prev hprev).1
    rw [hheight] at hverify
    obtain ⟨e,he,hnodes',-⟩ := hmain.entry
    refine ⟨n,hnodes ▸ hsuffix.subset (by simp),?_⟩
    rw [Checkpoints.hash_eq_of_verify hc hverify,he]
    simp [hnodes']

theorem Tracked.mono_index {hash : Hash} {e : IndexEntry} (h : Tracked rules p cps seen best index)
    (hnew : index hash=none) {n : BlockNode} {behind : List BlockNode} (hn : n::behind <:+ best.nodes) :
    MainNode rules p cps seen (Function.update index hash (some e)) n behind := by
  obtain ⟨hheight,⟨e',he',hrest⟩,hgenesis,hblock⟩ := h.main n behind hn
  refine ⟨hheight,⟨e',?_,hrest⟩,hgenesis,hblock⟩
  rw [Function.update_of_ne,he']
  rintro rfl
  simp [hnew] at he'

theorem Tracked.stored {block : MsgBlock} (h : Tracked rules p cps seen best index)
    (hseen : block∈seen) (hwf : WellFormed rules p block)
    (htip : best.nodes.head?.map (·.hash)=some block.header.prevBlock)
    (hnew : index (rules.blockHash block.header)=none) (hfails : ¬ ConnectsOn rules p cps best block) :
    Tracked rules p cps seen best (Function.update index (rules.blockHash block.header) (some e)) := by
  refine ⟨h.nodup,fun n behind hn => h.mono_index hnew hn, ?_⟩
  intro hash hhash
  by_cases heq : hash = rules.blockHash block.header
  · refine .inr ⟨block,hseen,heq.symm,hwf,?_,fun _ => hfails⟩
    obtain ⟨n,hn,heq'⟩ := Option.map_eq_some_iff.mp htip
    exact List.mem_map.mpr ⟨n,List.mem_of_head? hn,heq'⟩
  · rw [Function.update_of_ne heq] at hhash
    exact h.others hash hhash

omit [Hashing] in
theorem nextHeight_ofNat {tip : BlockNode} {rest : List BlockNode} (h : tip.height=Int32.ofNat rest.length) :
    nextHeight (tip::rest) = Int32.ofNat (tip::rest).length := by
  simp [nextHeight,h,Int32.ofNat_add]

theorem Tracked.connected {block : MsgBlock} {best' : BestChain}
    (h : Tracked rules p cps seen best index) (hseen : block∈seen) (hwf : WellFormed rules p block)
    (hverify : cps.verify (nextHeight best.nodes) (rules.blockHash block.header)=true)
    (htip : best.nodes.head?.map (·.hash)=some block.header.prevBlock)
    (hnew : index (rules.blockHash block.header)=none) (hbest : best'.nodes=nodeOn rules best block::best.nodes)
    (he : e.nodes=nodeOn rules best block::best.nodes) (hvalid : e.knownInvalid=false) :
    Tracked rules p cps seen best' (Function.update index (rules.blockHash block.header) (some e)) := by
  obtain ⟨tip,htip',htiphash⟩ := Option.map_eq_some_iff.mp htip
  obtain ⟨rest,hnodes⟩ := List.head?_eq_some_iff.mp htip'
  -- the index has every node of the main chain, so the block is new there
  have hnotMem : rules.blockHash block.header ∉ best.nodes.map (·.hash) := by
    intro hmem
    obtain ⟨n,hn,hhash⟩ := List.mem_map.mp hmem
    obtain ⟨pre,behind,hsplit⟩ := List.append_of_mem hn
    obtain ⟨e',he',-⟩ := (h.main n behind ⟨pre,hsplit.symm⟩).entry
    rw [hhash,hnew] at he'
    cases he'
  refine ⟨?_,?_,?_⟩
  · rw [hbest,List.map_cons,List.nodup_cons]
    exact ⟨hnotMem,h.nodup⟩
  · intro n behind hn
    rw [hbest] at hn
    rcases List.suffix_cons_iff.mp hn with heq | hn
    · cases heq
      refine ⟨?_,⟨e,by simp [nodeOn,newBlockNode], he, hvalid⟩,?_,?_⟩
      · have := (h.main tip rest (hnodes ▸ List.suffix_rfl)).height
        change nextHeight best.nodes = Int32.ofNat best.nodes.length
        rw [hnodes]
        exact nextHeight_ofNat this
      · intro hnil
        simp [hnil] at hnodes
      · intro prev hprev
        rw [htip',Option.some.injEq] at hprev
        exact ⟨hverify,block,hseen,hwf,rfl,by rw [← hprev,htiphash]⟩
    · exact h.mono_index hnew hn
  · intro hash hhash
    rw [hbest,List.map_cons]
    by_cases heq : hash = rules.blockHash block.header
    · exact .inl (heq ▸ List.mem_cons_self)
    · rw [Function.update_of_ne heq] at hhash
      rcases h.others hash hhash with hmem | ⟨b₀,hb₀,hh,hw,hmem,-⟩
      · exact .inl (List.mem_cons_of_mem _ hmem)
      · -- the parent is behind the new tip
        refine .inr ⟨b₀,hb₀,hh,hw,?_,?_⟩
        · rw [hbest,List.map_cons]
          exact List.mem_cons_of_mem _ hmem
        · intro htip₀
          rw [hbest,List.head?_cons,Option.map_some,Option.some.injEq] at htip₀
          rw [← htip₀] at hmem
          exact absurd hmem hnotMem

/-- However often the checkpoint is searched for, the cache stays on the main chain. -/
theorem Tracked.searched {b : Btcd} {cache' : CheckpointCache}
    (h : Tracked rules p cps seen b.best b.index) (hlen : b.best.nodes.length<2^31)
    (hcache : cps.CacheOk b.best.nodes cache) (hs : Searched cps b cache cache') :
    cps.CacheOk b.best.nodes cache' := by
  induction hs with
  | refl => exact hcache
  | tail _ hstep ih =>
    subst hstep
    exact (Checkpoints.findPrevious_ok b.lookupNode ih (h.lookup hlen)).2

end

end DogePeg.Vm
