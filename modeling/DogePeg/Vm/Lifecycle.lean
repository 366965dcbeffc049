import DogePeg.Vm.Blocks
import Mathlib.Logic.Relation

/-!
# The accepted blocks form one growing chain

`Synced` is what holds of btcd while the VM is not broken: its tip is the last accepted block, on disk
too, and nothing waits in the orphan pool. A block processed on a synced tip is refused by a rule, which
leaves the chain alone, or becomes the tip, or fails in a way that marks the VM broken.
-/

namespace DogePeg.Vm

open Node Holdings List

variable {e : IndexEntry} {b : Btcd} {tip : Hash} {node : BlockNode} {block : MsgBlock} {vm : VM}

def nodesAt (index : BlockIndex) (hash : Hash) : Option (List BlockNode) :=
  (index hash).map (·.nodes)

/-- What the disk always has: the best chain is the one the index gives for its tip. -/
def DiskOk (d : Disk) : Prop :=
  ∃ tip, d.best.nodes.head?.map (·.hash) = some tip ∧ nodesAt d.index tip = some d.best.nodes

structure Synced (b : Btcd) (tip : Hash) : Prop where
  tip_eq : b.tipHash = some tip
  best : b.disk.best = b.best
  orphans : b.orphans = []
  index : nodesAt b.index tip = some b.best.nodes
  flushed : ∀ h, nodesAt b.disk.index h = nodesAt b.index h

theorem Synced.diskOk (h : Synced b tip) : DiskOk b.disk :=
  ⟨tip,by rw [h.best]; exact h.tip_eq, by rw [h.flushed,h.index,h.best]⟩

theorem Synced.of_cache (h : Synced b tip) (cache : CheckpointCache) :
    Synced { b with cache := cache } tip :=
  ⟨h.tip_eq,h.best,h.orphans,h.index,h.flushed⟩

theorem nodesAt_update (index : BlockIndex) (hash : Hash) (e : IndexEntry) (h : Hash) :
    nodesAt (Function.update index hash (some e)) h =
      if h = hash then some e.nodes else nodesAt index h := by
  unfold nodesAt
  by_cases hh : h = hash
  · subst hh
    simp
  · simp [hh]

/-! ## Processing a block on the tip -/

/-- What processing a block on the tip may come to. -/
inductive Outcome (b : Btcd) (tip : Hash) (node : BlockNode) : Except ChainError Bool × Btcd → Prop
  | refused {code : ErrorCode} {b' : Btcd} (synced : Synced b' tip) (same : b'.best=b.best) :
      Outcome b tip node (.error (.rule code),b')
  | failed {e : ChainError} {b' : Btcd} (notRule : isRuleError e=false) (disk : DiskOk b'.disk) :
      Outcome b tip node (.error e,b')
  | connected {b' : Btcd} (synced : Synced b' node.hash)
      (nodes : b'.best.nodes=node::b.best.nodes) : Outcome b tip node (.ok true,b')

theorem Outcome.of_error {b' : Btcd} {e : ChainError}
    (synced : Synced b' tip) (same : b'.best=b.best) : Outcome b tip node (.error e,b') := by
  cases e with
  | rule code => exact .refused synced same
  | assertion => exact .failed rfl synced.diskOk
  | database => exact .failed rfl synced.diskOk
  | sliceBounds => exact .failed rfl synced.diskOk

/-- The node of a block is in the index, in memory and on disk, ahead of the tip. -/
structure Ahead (b : Btcd) (node : BlockNode) : Prop where
  best : b.disk.best = b.best
  orphans : b.orphans = []
  index : nodesAt b.index node.hash = some (node::b.best.nodes)
  flushed : ∀ h, nodesAt b.disk.index h = nodesAt b.index h

theorem nodesAt_update_same {index : BlockIndex} {hash : Hash} (h : nodesAt index hash=some e.nodes) (h' : Hash) :
    nodesAt (Function.update index hash (some e)) h' = nodesAt index h' := by
  rw [nodesAt_update]
  split
  · rename_i heq
    rw [heq,h]
  · rfl

theorem nodesAt_setStatus (b : Btcd) (hash : Hash) (e : IndexEntry) (fault : Fault)
    (h : nodesAt b.index hash=some e.nodes) (hf : ∀ h, nodesAt b.disk.index h = nodesAt b.index h) (h' : Hash) :
    nodesAt ((b.setEntry hash e).flushStatus fault).index h' = nodesAt b.index h' ∧
      nodesAt ((b.setEntry hash e).flushStatus fault).disk.index h' = nodesAt b.index h' := by
  have hsame := nodesAt_update_same h h'
  unfold Btcd.flushStatus
  split
  · exact ⟨hsame,hf h'⟩
  · exact ⟨hsame,hsame⟩

@[simp] theorem flushStatus_best (b : Btcd) (fault : Fault) : (b.flushStatus fault).best = b.best := by
  unfold Btcd.flushStatus
  split <;> rfl

@[simp] theorem flushStatus_orphans (b : Btcd) (fault : Fault) : (b.flushStatus fault).orphans = b.orphans := by
  unfold Btcd.flushStatus
  split <;> rfl

@[simp] theorem flushStatus_disk_best (b : Btcd) (fault : Fault) : (b.flushStatus fault).disk.best = b.disk.best := by
  unfold Btcd.flushStatus
  split <;> rfl

theorem Ahead.setStatus (fault : Fault) (h : Ahead b node) (he : e.nodes=node::b.best.nodes) :
    Ahead ((b.setEntry node.hash e).flushStatus fault) node := by
  have hn := nodesAt_setStatus b node.hash e fault (by rw [h.index,he]) h.flushed
  refine ⟨?_,?_,?_,?_⟩
  · rw [flushStatus_disk_best,flushStatus_best]
    exact h.best
  · rw [flushStatus_orphans]
    exact h.orphans
  · rw [flushStatus_best,(hn node.hash).1]
    exact h.index
  · intro h'
    rw [(hn h').1,(hn h').2]

theorem Ahead.diskOk (h : Ahead b node) (tip : Hash)
    (htip : b.tipHash=some tip) (hindex : nodesAt b.index tip=some b.best.nodes) : DiskOk b.disk :=
  ⟨tip,by rw [h.best]; exact htip, by rw [h.flushed,hindex,h.best]⟩

section

variable [Hashing]

theorem connectTransactions_error {height : Int32} {s : UtxoSet} {txs : List MsgTx} {e : ChainError}
    (h : UtxoSet.connectTransactions height s txs = .error e) : isRuleError e = false := by
  induction txs generalizing s with
  | nil => cases h
  | cons tx txs ih =>
    simp only [UtxoSet.connectTransactions,UtxoSet.connectTransaction] at h
    split at h
    · exact ih h
    · cases h
      rfl

theorem connectBlock_outcome {b₀ : Btcd} {fault : Fault} (h : Ahead b node) (hdisk : DiskOk b.disk)
    (hbest : b.best.nodes=b₀.best.nodes) : Outcome b₀ tip node (connectBlock fault b node block) := by
  have hindex : nodesAt b.disk.index node.hash = some (node::b.best.nodes) := by
    rw [h.flushed,h.index]
  unfold connectBlock
  cases hconn : UtxoSet.connectTransactions node.height b.best.utxos block.transactions with
  | error e => exact .failed (connectTransactions_error hconn) hdisk
  | ok utxos =>
    have hwritten : DiskOk { b.disk with best := ⟨node::b.best.nodes,utxos⟩ } :=
      ⟨node.hash,rfl,hindex⟩
    dsimp only
    split
    case h_1 applied =>
      cases applied
      · exact .failed rfl hdisk
      · exact .failed rfl hwritten
    case h_2 =>
      split
      · exact .failed rfl hwritten
      · split
        · exact .failed rfl hwritten
        · exact .connected ⟨rfl,rfl,h.orphans,h.index,h.flushed⟩ (by rw [hbest])

variable (rules : Rules) (p : Params) (cps : Checkpoints) (reorganize : Reorganize) (fault : Fault)

theorem connectBestChain_outcome {b₀ : Btcd} {prev : List BlockNode} (h : Ahead b node) (htip : b.tipHash=some tip)
    (hindex : nodesAt b.index tip=some b.best.nodes) (hprev : prev=b.best.nodes)
    (hblock : block.header.prevBlock=tip) (hbest : b.best=b₀.best) :
    Outcome b₀ tip node (connectBestChain rules p cps reorganize fault b node prev block) := by
  subst hprev
  have hentry (e : IndexEntry) (he : e.nodes=node::b.best.nodes) :=
    nodesAt_setStatus b node.hash e fault (by rw [h.index,he]) h.flushed
  unfold connectBestChain
  rw [if_pos (by rw [htip,hblock])]
  split
  case h_1 code hcheck =>
    have hn := hentry ⟨node::b.best.nodes,false,true⟩ rfl
    refine .refused ⟨?_,?_,?_,?_,?_⟩ ?_
    · rw [Btcd.tipHash,flushStatus_best]
      exact htip
    · rw [flushStatus_disk_best,flushStatus_best]
      exact h.best
    · rw [flushStatus_orphans]
      exact h.orphans
    · rw [(hn tip).1,hindex,flushStatus_best]
      rfl
    · intro h'
      rw [(hn h').1,(hn h').2]
    · rw [flushStatus_best]
      exact hbest
  case h_2 e hrule hcheck =>
    refine .failed ?_ (h.diskOk tip htip hindex)
    cases e with
    | rule code => exact absurd rfl (hrule code)
    | assertion => rfl
    | database => rfl
    | sliceBounds => rfl
  case h_3 view hcheck =>
    have hahead := h.setStatus (e := ⟨node::b.best.nodes,true,false⟩) fault rfl
    apply connectBlock_outcome hahead
    · have hn := hentry ⟨node::b.best.nodes,true,false⟩ rfl
      refine hahead.diskOk tip ?_ ?_
      · rw [Btcd.tipHash,flushStatus_best]
        exact htip
      · rw [(hn tip).1,hindex,flushStatus_best]
        rfl
    · rw [flushStatus_best]
      exact congrArg BestChain.nodes hbest

omit [Hashing] in
theorem Synced.ahead (h : Synced b tip) (block : MsgBlock) (he : e.nodes=node::b.best.nodes) (hne : tip≠node.hash) :
    Ahead ((b.storeBlock node.hash block).setEntry node.hash e).flushToDB node ∧
      nodesAt ((b.storeBlock node.hash block).setEntry node.hash e).flushToDB.index tip = some b.best.nodes := by
  refine ⟨⟨h.best,h.orphans,?_,fun _ => rfl⟩,?_⟩
  · exact (nodesAt_update b.index node.hash e node.hash).trans (by rw [if_pos rfl,he]; rfl)
  · exact (nodesAt_update b.index node.hash e tip).trans (by rw [if_neg hne,h.index])

theorem maybeAcceptBlock_outcome (h : Synced b tip)
    (hblock : block.header.prevBlock=tip) (hne : tip≠rules.blockHash block.header) :
    Outcome b tip (newBlockNode (rules.blockHash block.header) block.header b.best.nodes)
      (maybeAcceptBlock rules p cps reorganize fault b block) := by
  have hindex := h.index
  unfold maybeAcceptBlock
  cases hprev : b.index block.header.prevBlock with
  | none => simp [nodesAt,← hblock,hprev] at hindex
  | some prev =>
    have hnodes : prev.nodes = b.best.nodes := by simpa [nodesAt,← hblock,hprev] using hindex
    dsimp only
    split
    · exact .refused h rfl
    · split
      case h_1 e cache hctx => exact .of_error (h.of_cache cache) rfl
      case h_2 cache hctx =>
        have hc := h.of_cache cache
        rw [hnodes]
        split
        · exact .failed rfl hc.diskOk
        · have hahead := hc.ahead (e := ⟨newBlockNode (rules.blockHash block.header)
            block.header b.best.nodes::b.best.nodes,false,false⟩) block rfl hne
          split
          · exact .failed rfl hc.diskOk
          · exact connectBestChain_outcome rules p cps reorganize fault hahead.1 hc.tip_eq hahead.2 rfl hblock rfl

theorem processOrphans_nil {fuel : ℕ} {hash : Hash} (h : b.orphans=[]) :
    processOrphans rules p cps reorganize fault (fuel+1) [hash] b = (.ok (),b) := by
  cases fuel <;> simp [processOrphans,h]

theorem processBlock_outcome (now : ℤ) (h : Synced b tip) (hblock : block.header.prevBlock=tip) :
    ∃ r b', processBlock rules p cps reorganize fault now b block =
        (r.map fun isMainChain => (isMainChain,false), b') ∧
      Outcome b tip (newBlockNode (rules.blockHash block.header) block.header b.best.nodes) (r,b') := by
  have hindexed : (b.index tip).isSome = true := by
    have := h.index
    unfold nodesAt at this
    cases hi : b.index tip with
    | none => simp [hi] at this
    | some e => rfl
  unfold processBlock
  dsimp only
  by_cases hexists : b.blockExists (rules.blockHash block.header) = true
  · rw [if_pos hexists]
    exact ⟨.error _,b,rfl,.refused h rfl⟩
  · have hne : tip ≠ rules.blockHash block.header := by
      intro heq
      apply hexists
      simp [Btcd.blockExists,← heq,hindexed]
    rw [if_neg hexists,if_neg (by simp [h.orphans])]
    cases hsanity : checkBlockSanity rules now block with
    | error e => exact ⟨.error e,b,rfl,.of_error h rfl⟩
    | ok =>
      have hc := h.of_cache (cps.findPrevious b.best.nodes b.lookupNode b.cache).2
      dsimp only
      split
      case h_1 e hcheck => exact ⟨.error e,_,rfl,.of_error hc rfl⟩
      case h_2 hcheck =>
        rw [if_pos (by simp [Btcd.blockExists,hblock,hindexed])]
        have hout := maybeAcceptBlock_outcome rules p cps reorganize fault hc hblock hne
        split
        case h_1 e b' hm =>
          rw [hm] at hout
          refine ⟨.error e,b',rfl,?_⟩
          cases hout with
          | refused hs hsame => exact .refused hs hsame
          | failed hr hd => exact .failed hr hd
        case h_2 isMain b' hm =>
          rw [hm] at hout
          cases hout with
          | connected hs hn =>
            rw [processOrphans_nil rules p cps reorganize fault hs.orphans]
            exact ⟨.ok true,b',rfl,.connected hs hn⟩

/-! ## The calls of the engine -/

structure VmOk (vm : VM) : Prop where
  disk : DiskOk vm.btcd.disk
  synced : vm.broken = false → Synced vm.btcd vm.lastAccepted

/-- `Accept` extended the chain by the block `b`, a child of the last accepted block. -/
structure Extended (rules : Rules) (vm vm' : VM) (b : BlockAdapter) : Prop where
  parent : b.parentID = vm.lastAccepted
  lastAccepted : vm'.lastAccepted = b.id rules
  nodes : vm'.btcd.best.nodes =
    newBlockNode (b.id rules) b.block.header vm.btcd.best.nodes::vm.btcd.best.nodes

structure Unchanged (vm vm' : VM) : Prop where
  best : vm'.btcd.best = vm.btcd.best
  disk : vm'.btcd.disk = vm.btcd.disk
  lastAccepted : vm'.lastAccepted = vm.lastAccepted

/-- The cached checkpoint as searches move it on. -/
def Searched (cps : Checkpoints) (b : Btcd) : CheckpointCache → CheckpointCache → Prop :=
  Relation.ReflTransGen fun cache cache' =>
    cache' = (cps.findPrevious b.best.nodes b.lookupNode cache).2

omit [Hashing] in
theorem checkBlockContext_searched {cache : CheckpointCache} (block : MsgBlock)
    (prev : List BlockNode) (h : Searched cps b b.cache cache) :
    Searched cps b b.cache (checkBlockContext rules p cps b.best.nodes b.lookupNode cache block prev).2 := by
  unfold checkBlockContext
  split
  · exact h
  · exact h.tail rfl

/-- What a call that reads the chain leaves: at most the cached checkpoint and the
verified blocks have moved. -/
structure Reads (cps : Checkpoints) (vm vm' : VM) : Prop where
  btcd : ∃ cache, Searched cps vm.btcd vm.btcd.cache cache ∧ vm'.btcd = { vm.btcd with cache := cache }
  lastAccepted : vm'.lastAccepted = vm.lastAccepted
  broken : vm'.broken = vm.broken

omit [Hashing] in
theorem Reads.unchanged {cps : Checkpoints} {vm' : VM} (h : Reads cps vm vm') : Unchanged vm vm' := by
  obtain ⟨⟨cache,-,hb⟩,hl,-⟩ := h
  exact ⟨by rw [hb], by rw [hb], hl⟩

omit [Hashing] in
theorem Reads.vmOk {cps : Checkpoints} {vm' : VM} (h : Reads cps vm vm') (hok : VmOk vm) : VmOk vm' := by
  obtain ⟨⟨cache,-,hb⟩,hl,hbroken⟩ := h
  constructor
  · rw [hb]
    exact hok.disk
  · intro hb'
    rw [hb,hl]
    exact (hok.synced (hbroken ▸ hb')).of_cache cache

theorem checkTemplate_reads (now : ℤ) (vm : VM) (b : BlockAdapter) :
    Reads cps vm (checkTemplate rules p cps now vm b).2 := by
  refine ⟨⟨_,?_,rfl⟩,rfl,rfl⟩
  split
  case h_1 => exact .refl
  case h_2 =>
    split
    · exact .refl
    · split
      · exact .refl
      · have h := checkBlockContext_searched rules p cps b.block vm.btcd.best.nodes (.refl : Searched cps vm.btcd _ _)
        split
        all_goals
          rename_i hcontext
          rw [hcontext] at h
          exact h

omit [Hashing] in
theorem Reads.refl (vm : VM) : Reads cps vm vm := ⟨⟨vm.btcd.cache,.refl,rfl⟩,rfl,rfl⟩

theorem buildBlock_reads (now : ℤ) (vm : VM) (b : BlockAdapter) : Reads cps vm (buildBlock rules p cps now vm b).2 := by
  have ht := checkTemplate_reads rules p cps now vm b
  unfold buildBlock
  split
  · exact .refl cps vm
  · split
    · exact .refl cps vm
    · split
      case h_1 e vm' h =>
        rw [h] at ht
        exact ht
      case h_2 vm' h =>
        rw [h] at ht
        split <;> exact ht

theorem verify_reads (now : ℤ) (vm : VM) (b : BlockAdapter) : Reads cps vm (verify rules p cps now vm b).2 := by
  have ht := checkTemplate_reads rules p cps now vm b
  unfold verify
  split
  · exact .refl cps vm
  · split
    · exact .refl cps vm
    · split
      · exact .refl cps vm
      · split
        case h_1 e vm' h =>
          rw [h] at ht
          exact ht
        case h_2 vm' h =>
          rw [h] at ht
          exact ⟨ht.btcd,ht.lastAccepted,ht.broken⟩

omit [Hashing] in
theorem reject_reads (vm : VM) (b : BlockAdapter) : Reads cps vm (reject rules vm b) :=
  ⟨⟨vm.btcd.cache,.refl,rfl⟩,rfl,rfl⟩

inductive AcceptOutcome (rules : Rules) (vm : VM) (b : BlockAdapter) :
    Except VmError Unit × VM → Prop
  | unchanged {e : VmError} : AcceptOutcome rules vm b (.error e,vm)
  | refused {e : VmError} {btcd : Btcd} (synced : Synced btcd vm.lastAccepted)
      (same : btcd.best=vm.btcd.best) :
      AcceptOutcome rules vm b (.error e,{ vm with btcd := btcd,broken := false })
  | broke {e : VmError} {btcd : Btcd} (disk : DiskOk btcd.disk) :
      AcceptOutcome rules vm b (.error e,{ vm with btcd := btcd,broken := true })
  | accepted {btcd : Btcd} (notBroken : vm.broken=false) (synced : Synced btcd (b.id rules))
      (parent : b.parentID=vm.lastAccepted)
      (nodes : btcd.best.nodes =
        newBlockNode (b.id rules) b.block.header vm.btcd.best.nodes::vm.btcd.best.nodes) :
      AcceptOutcome rules vm b (.ok (),{ vm with
        btcd := btcd
        verifiedBlocks := vm.verifiedBlocks.erase (b.id rules)
        lastAccepted := b.id rules })

theorem accept_outcome (hok : VmOk vm) (now : ℤ) (fault : Fault) (b : BlockAdapter) :
    AcceptOutcome rules vm b (accept rules p cps reorganize now fault vm b) := by
  unfold accept
  by_cases hparent : b.parentID = vm.lastAccepted
  · rw [if_neg (not_not.mpr hparent)]
    cases hbroken : vm.broken with
    | true => exact .unchanged
    | false =>
      obtain ⟨r,btcd,heq,hout⟩ := processBlock_outcome rules p cps reorganize fault now (hok.synced hbroken) hparent
      rw [heq]
      cases hout with
      | refused hs hsame => exact .refused hs hsame
      | @failed e _ hr hd =>
        change AcceptOutcome rules vm b (.error (.chain e),{ vm with btcd := btcd,broken := !isRuleError e })
        rw [hr]
        exact .broke hd
      | connected hs hn =>
        change AcceptOutcome rules vm b (if fault = .persist then _ else _)
        split
        · exact .broke hs.diskOk
        · exact hbroken ▸ .accepted hbroken hs hparent hn
  · rw [if_pos hparent]
    exact .unchanged

/-- What a call does to a VM that is not broken before or after it: nothing to the chain,
unless it is an `Accept` that succeeds. -/
theorem exec_effect (hok : VmOk vm) (hb : vm.broken=false) (call : Call)
    (hb' : (step rules p cps reorganize vm call).broken=false) :
    ((step rules p cps reorganize vm call).btcd.best = vm.btcd.best ∧
        (step rules p cps reorganize vm call).lastAccepted = vm.lastAccepted) ∨
      ∃ now fault b, call = .accept now fault b ∧ (exec rules p cps reorganize vm call).1 = .ok none ∧
        Extended rules vm (step rules p cps reorganize vm call) b := by
  cases call with
  | parse block => exact .inl ⟨rfl,rfl⟩
  | build now b =>
    have h := (buildBlock_reads rules p cps now vm b).unchanged
    exact .inl ⟨h.best,h.lastAccepted⟩
  | verify now b =>
    have h := (verify_reads rules p cps now vm b).unchanged
    exact .inl ⟨h.best,h.lastAccepted⟩
  | reject b => exact .inl ⟨rfl,rfl⟩
  | restart =>
    have hs := hok.synced hb
    refine .inl ⟨hs.best,?_⟩
    change (vm.btcd.disk.best.nodes.head?.map (·.hash)).getD 0 = vm.lastAccepted
    have htip := hs.tip_eq
    rw [Btcd.tipHash,← hs.best] at htip
    rw [htip]
    rfl
  | accept now fault b =>
    have hout := accept_outcome rules p cps reorganize hok now fault b
    simp only [step,exec,Prod.map] at hb' ⊢
    generalize accept rules p cps reorganize now fault vm b = r at hout hb'
    cases hout with
    | unchanged => exact .inl ⟨rfl,rfl⟩
    | refused hs hsame => exact .inl ⟨hsame,rfl⟩
    | broke hd => cases hb'
    | accepted hb hs hp hn => exact .inr ⟨now,fault,b,rfl,rfl,hp,rfl,hn⟩

theorem accept_extends (hok : VmOk vm) (now : ℤ) (fault : Fault) (b : BlockAdapter)
    (h : (exec rules p cps reorganize vm (.accept now fault b)).1 = .ok none) :
    Extended rules vm (step rules p cps reorganize vm (.accept now fault b)) b := by
  have hout := accept_outcome rules p cps reorganize hok now fault b
  simp only [step,exec,Prod.map] at h ⊢
  generalize accept rules p cps reorganize now fault vm b = r at hout h
  cases hout with
  | unchanged => cases h
  | refused hs hsame => cases h
  | broke hd => cases h
  | accepted hb hs hp hn => exact ⟨hp,rfl,hn⟩

theorem VmOk.step (hok : VmOk vm) (call : Call) : VmOk (step rules p cps reorganize vm call) := by
  cases call with
  | parse block => exact hok
  | build now b => exact (buildBlock_reads rules p cps now vm b).vmOk hok
  | verify now b => exact (verify_reads rules p cps now vm b).vmOk hok
  | reject b => exact (reject_reads rules cps vm b).vmOk hok
  | restart =>
    obtain ⟨tip,htip,hindex⟩ := hok.disk
    refine ⟨⟨tip,htip,hindex⟩,fun _ => ?_⟩
    have hl : (restart vm).lastAccepted = tip := by
      change (vm.btcd.disk.best.nodes.head?.map (·.hash)).getD 0 = tip
      rw [htip]
      rfl
    change Synced (restart vm).btcd (restart vm).lastAccepted
    rw [hl]
    exact ⟨htip,rfl,rfl,hindex,fun _ => rfl⟩
  | accept now fault b =>
    have hout := accept_outcome rules p cps reorganize hok now fault b
    simp only [Vm.step,exec,Prod.map]
    generalize accept rules p cps reorganize now fault vm b = r at hout
    cases hout with
    | unchanged => exact hok
    | refused hs hsame => exact ⟨hs.diskOk,fun _ => hs⟩
    | broke hd => exact ⟨hd,fun h => by cases h⟩
    | accepted hb hs hp hn => exact ⟨hs.diskOk,fun _ => hs⟩

theorem VmOk.run (hok : VmOk vm) (calls : List Call) : VmOk (run rules p cps reorganize vm calls) := by
  induction calls generalizing vm with
  | nil => exact hok
  | cons call calls ih => exact ih (hok.step rules p cps reorganize call)

omit [Hashing] in
theorem genesisVM_ok (p : Params) (genesis : MsgBlock) : VmOk (genesisVM p genesis) := by
  have hindex : nodesAt (genesisVM p genesis).btcd.index p.genesisHash =
      some (genesisVM p genesis).btcd.best.nodes := by
    simp [nodesAt,genesisVM]
  exact ⟨⟨p.genesisHash,rfl,hindex⟩,fun _ => ⟨rfl,rfl,rfl,hindex,fun _ => rfl⟩⟩

theorem suffix_run (hok : VmOk vm) (hb : vm.broken=false) (calls : List Call)
    (hnb : ∀ pre, pre <+: calls → (run rules p cps reorganize vm pre).broken = false) :
    vm.btcd.best.nodes <:+ (run rules p cps reorganize vm calls).btcd.best.nodes := by
  induction calls generalizing vm with
  | nil => exact suffix_rfl
  | cons call calls ih =>
    have hb' : (step rules p cps reorganize vm call).broken = false := hnb [call] ⟨calls,rfl⟩
    have hrest := ih (hok.step rules p cps reorganize call) hb' fun pre hpre =>
      hnb (call::pre) ((prefix_cons_inj call).mpr hpre)
    refine List.IsSuffix.trans ?_ hrest
    rcases exec_effect rules p cps reorganize hok hb call hb' with h | ⟨now,fault,b,-,-,hext⟩
    · exact h.1.symm ▸ suffix_rfl
    · rw [hext.nodes]
      exact suffix_cons _ _

/-- Over every sequence of calls, with database failures and restarts anywhere in it:
while the VM is not broken its last accepted block is btcd's tip; a call that leaves it
unbroken changes the best chain and the last accepted block only if it is an `Accept` that
returns nil, which always adds one child of the last accepted block; the chain only grows; an
`Accept` of a block on another parent changes nothing; and `ParseBlock`, `BuildBlock`, `Verify` and
`Reject` never change the best chain. -/
theorem block_lifecycle (genesis : MsgBlock) (calls : List Call) :
    let vm := run rules p cps reorganize (genesisVM p genesis) calls
    (vm.broken = false → vm.btcd.tipHash = some vm.lastAccepted) ∧
    (∀ call, vm.broken = false → (step rules p cps reorganize vm call).broken = false →
      ((step rules p cps reorganize vm call).btcd.best = vm.btcd.best ∧
          (step rules p cps reorganize vm call).lastAccepted = vm.lastAccepted) ∨
        ∃ now fault b, call = .accept now fault b ∧ (exec rules p cps reorganize vm call).1 = .ok none ∧
          Extended rules vm (step rules p cps reorganize vm call) b) ∧
    (∀ now fault b, (exec rules p cps reorganize vm (.accept now fault b)).1 = .ok none →
      Extended rules vm (step rules p cps reorganize vm (.accept now fault b)) b) ∧
    (∀ more, (∀ pre, pre <+: more → (run rules p cps reorganize vm pre).broken = false) →
      vm.btcd.best.nodes <:+ (run rules p cps reorganize vm more).btcd.best.nodes) ∧
    (∀ now fault b, b.parentID ≠ vm.lastAccepted → step rules p cps reorganize vm (.accept now fault b) = vm) ∧
    (∀ block, Unchanged vm (step rules p cps reorganize vm (.parse block))) ∧
    (∀ now b, Unchanged vm (step rules p cps reorganize vm (.build now b))) ∧
    (∀ now b, Unchanged vm (step rules p cps reorganize vm (.verify now b))) ∧
    (∀ b, Unchanged vm (step rules p cps reorganize vm (.reject b))) := by
  intro vm
  have hok : VmOk vm := (genesisVM_ok p genesis).run rules p cps reorganize calls
  refine ⟨fun hb => (hok.synced hb).tip_eq, fun call hb hb' => exec_effect rules p cps reorganize hok hb call hb',
    fun now fault b => accept_extends rules p cps reorganize hok now fault b, fun more hnb =>
      suffix_run rules p cps reorganize hok (hnb [] nil_prefix) more hnb, ?_, ?_, ?_, ?_, ?_⟩
  · intro now fault b hne
    simp only [step,exec,Prod.map,accept,ne_eq,hne,not_false_eq_true,↓reduceIte,id_eq]
  · intro block
    exact (Reads.refl cps vm).unchanged
  · intro now b
    exact (buildBlock_reads rules p cps now vm b).unchanged
  · intro now b
    exact (verify_reads rules p cps now vm b).unchanged
  · intro b
    exact (reject_reads rules cps vm b).unchanged

end

end DogePeg.Vm
