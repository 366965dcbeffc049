import DogePeg.Vm.Acceptance

/-!
# What a rule error leaves behind

`Accept` takes a rule error of `ProcessBlock` for a sign that btcd is as it was. It is where the
error is found before the block is stored; at most the cached checkpoint has moved then. An error
found while the block is connected leaves it stored, and marked invalid in the index.
-/

namespace DogePeg.Vm

open Node

variable {cache : CheckpointCache}

section

variable (rules : Rules) (p : Params) (cps : Checkpoints) (reorganize : Reorganize) [Hashing]

structure Stores (now : ℤ) (b : Btcd) (block : MsgBlock) : Prop where
  new : b.blockExists (rules.blockHash block.header) = false
  notOrphan : (b.orphans.any fun o => rules.blockHash o.header = rules.blockHash block.header) = false
  sanity : checkBlockSanity rules now block = .ok ()
  checkpoint : ((cps.findPrevious b.best.nodes b.lookupNode b.cache).1 >>= fun node =>
    checkAgainstCheckpoint p node block.header) = .ok ()
  parent : ∃ prev, b.index block.header.prevBlock = some prev ∧ prev.knownInvalid = false ∧
    (checkBlockContext rules p cps b.best.nodes b.lookupNode
      (cps.findPrevious b.best.nodes b.lookupNode b.cache).2 block prev.nodes).1 = .ok ()

/-- A second search for the last checkpoint finds what the first did. -/
def Settled (b : Btcd) : Prop :=
  cps.findPrevious b.best.nodes b.lookupNode (cps.findPrevious b.best.nodes b.lookupNode b.cache).2 =
    cps.findPrevious b.best.nodes b.lookupNode b.cache

/-- The same state, but for the cached checkpoint. -/
def SameButCache (b b' : Btcd) : Prop := ∃ cache, b' = { b with cache := cache }

variable {rules p cps} {now : ℤ} {b b' : Btcd} {block : MsgBlock} {fault : Fault}

variable (rules p fault) in
/-- A block that fails a check before it is stored changes nothing but the cached checkpoint. -/
theorem maybeAcceptBlock_kept (hcache : Searched cps b b.cache cache)
    (hfails : ∀ prev, b.index block.header.prevBlock = some prev → prev.knownInvalid = false →
      (checkBlockContext rules p cps b.best.nodes b.lookupNode cache block prev.nodes).1 ≠ .ok ()) :
    (∃ e, (maybeAcceptBlock rules p cps reorganize fault { b with cache := cache } block).1 = .error e) ∧
    ∃ cache', Searched cps b b.cache cache' ∧
      (maybeAcceptBlock rules p cps reorganize fault { b with cache := cache } block).2 =
        { b with cache := cache' } := by
  unfold maybeAcceptBlock
  dsimp only
  cases hprev : b.index block.header.prevBlock with
  | none => exact ⟨⟨_,rfl⟩,cache,hcache,rfl⟩
  | some prev =>
    dsimp only
    split
    · exact ⟨⟨_,rfl⟩,cache,hcache,rfl⟩
    · next hvalid =>
      have hsearched := checkBlockContext_searched rules p cps block prev.nodes hcache
      have hne := hfails prev hprev (Bool.eq_false_iff.mpr hvalid)
      split
      · next e cache' hctx =>
        change checkBlockContext rules p cps b.best.nodes b.lookupNode cache block prev.nodes = _ at hctx
        rw [hctx] at hsearched
        exact ⟨⟨e,rfl⟩,cache',hsearched,rfl⟩
      · next cache' hctx =>
        change checkBlockContext rules p cps b.best.nodes b.lookupNode cache block prev.nodes = _ at hctx
        exact absurd (by rw [hctx]) hne

theorem processBlock_kept {code : ErrorCode} (hnot : ¬ Stores rules p cps now b block)
    (h : processBlock rules p cps reorganize fault now b block=(.error (.rule code),b')) :
    ∃ cache, Searched cps b b.cache cache ∧ b' = { b with cache := cache } := by
  unfold processBlock at h
  dsimp only at h
  split at h
  · exact ⟨b.cache,.refl,(Prod.mk.inj h).2.symm⟩
  next hnew =>
  split at h
  · exact ⟨b.cache,.refl,(Prod.mk.inj h).2.symm⟩
  next horphan =>
  split at h
  · exact ⟨b.cache,.refl,(Prod.mk.inj h).2.symm⟩
  next hsanity =>
  have hsearch : Searched cps b b.cache (cps.findPrevious b.best.nodes b.lookupNode b.cache).2 := .single rfl
  split at h
  · exact ⟨_,hsearch,(Prod.mk.inj h).2.symm⟩
  next hcheck =>
  split at h
  · have hfails : ∀ prev, b.index block.header.prevBlock = some prev → prev.knownInvalid = false →
        (checkBlockContext rules p cps b.best.nodes b.lookupNode
          (cps.findPrevious b.best.nodes b.lookupNode b.cache).2 block prev.nodes).1 ≠ .ok () := by
      intro prev hprev hvalid hok
      exact hnot ⟨Bool.eq_false_iff.mpr hnew,Bool.eq_false_iff.mpr horphan,hsanity,hcheck,prev,hprev,hvalid,hok⟩
    obtain ⟨⟨e,he⟩,cache,hcache,hstate⟩ := maybeAcceptBlock_kept rules p reorganize fault hsearch hfails
    split at h
    · next e' b'' hm =>
      rw [hm] at hstate
      exact ⟨cache,hcache,(Prod.mk.inj h).2.symm.trans hstate⟩
    · next hm =>
      rw [hm] at he
      cases he
  · cases (Prod.mk.inj h).1

/-! ## What stays in the index -/

/-- `reorganizeChain` moves blocks between the chains; it takes none out of the index. -/
def KeepsIndex : Prop := ∀ b node block h, (b.index h).isSome → ((reorganize b node block).2.index h).isSome

omit [Hashing] in
theorem setEntry_keeps {hash h : Hash} {e : IndexEntry} (hkeep : (b.index h).isSome) :
    ((b.setEntry hash e).index h).isSome := by
  change (Function.update b.index hash (some e) h).isSome
  by_cases heq : h = hash
  · rw [heq,Function.update_self]
    rfl
  · rwa [Function.update_of_ne heq]

omit [Hashing] in
theorem flushStatus_index (b : Btcd) (fault : Fault) : (b.flushStatus fault).index = b.index := by
  unfold Btcd.flushStatus
  split <;> rfl

theorem connectBlock_index (fault : Fault) (b : Btcd) (node : BlockNode) (block : MsgBlock) :
    (connectBlock fault b node block).2.index = b.index := by
  unfold connectBlock
  split
  · rfl
  · split
    · next applied => cases applied <;> rfl
    · split
      · rfl
      · split <;> rfl

variable {reorganize} in
theorem connectBestChain_keeps {node : BlockNode} {prev : List BlockNode} {h : Hash} (hreorg : KeepsIndex reorganize)
    (hkeep : (b.index h).isSome) :
    ((connectBestChain rules p cps reorganize fault b node prev block).2.index h).isSome := by
  unfold connectBestChain
  split
  · split
    · rw [flushStatus_index]
      exact setEntry_keeps hkeep
    · exact hkeep
    · rw [connectBlock_index,flushStatus_index]
      exact setEntry_keeps hkeep
  · split
    · exact hkeep
    · exact hreorg _ _ _ _ hkeep

variable {reorganize} in
theorem maybeAcceptBlock_keeps {h : Hash} (hreorg : KeepsIndex reorganize) (hkeep : (b.index h).isSome) :
    ((maybeAcceptBlock rules p cps reorganize fault b block).2.index h).isSome := by
  unfold maybeAcceptBlock
  split
  · exact hkeep
  · split
    · exact hkeep
    · split
      · exact hkeep
      · dsimp only
        split
        · exact hkeep
        · split
          · exact setEntry_keeps hkeep
          · exact connectBestChain_keeps hreorg (setEntry_keeps hkeep)

variable {reorganize} (rules p cps fault) in
theorem processOrphans_keeps {h : Hash} (hreorg : KeepsIndex reorganize) (fuel : ℕ) :
    ∀ (hashes : List Hash) (b : Btcd), (b.index h).isSome →
      ((processOrphans rules p cps reorganize fault fuel hashes b).2.index h).isSome := by
  induction fuel with
  | zero => exact fun _ _ hkeep => hkeep
  | succ fuel ih =>
    intro hashes b hkeep
    cases hashes with
    | nil => exact hkeep
    | cons hash hashes =>
      unfold processOrphans
      split
      · exact ih _ _ hkeep
      · next orphan _ =>
        have hnext : ((maybeAcceptBlock rules p cps reorganize fault
            { b with orphans := b.orphans.erase orphan } orphan).2.index h).isSome :=
          maybeAcceptBlock_keeps hreorg hkeep
        dsimp only
        split
        · next hm => rwa [hm] at hnext
        · next hm =>
          rw [hm] at hnext
          exact ih _ _ hnext

variable {reorganize} (fault) in
/-- A block that passes the checks before it is stored is in the index, unless a write failed. -/
theorem maybeAcceptBlock_indexes {prev : IndexEntry} (hreorg : KeepsIndex reorganize)
    (hprev : b.index block.header.prevBlock=some prev) (hvalid : prev.knownInvalid=false)
    (hctx : (checkBlockContext rules p cps b.best.nodes b.lookupNode b.cache block prev.nodes).1 = .ok ()) :
    (maybeAcceptBlock rules p cps reorganize fault b block).1 = .error .database ∨
      ((maybeAcceptBlock rules p cps reorganize fault b block).2.index (rules.blockHash block.header)).isSome := by
  unfold maybeAcceptBlock
  rw [hprev]
  dsimp only
  rw [hvalid,if_neg Bool.false_ne_true]
  split
  · next hc =>
    rw [hc] at hctx
    cases hctx
  · split
    · exact .inl rfl
    · split
      · exact .inl rfl
      · refine .inr (connectBestChain_keeps hreorg ?_)
        exact Option.isSome_iff_exists.mpr ⟨_,Function.update_self ..⟩

variable {reorganize} in
theorem processBlock_indexes {code : ErrorCode} (hreorg : KeepsIndex reorganize)
    (hstores : Stores rules p cps now b block)
    (h : processBlock rules p cps reorganize fault now b block=(.error (.rule code),b')) :
    (b'.index (rules.blockHash block.header)).isSome := by
  obtain ⟨prev,hprev,hvalid,hctx⟩ := hstores.parent
  have hindexes := maybeAcceptBlock_indexes fault
    (b := { b with cache := (cps.findPrevious b.best.nodes b.lookupNode b.cache).2 }) hreorg hprev hvalid hctx
  unfold processBlock at h
  dsimp only at h
  rw [if_neg (Bool.eq_false_iff.mp hstores.new),if_neg (Bool.eq_false_iff.mp hstores.notOrphan),hstores.sanity] at h
  dsimp only at h
  rw [hstores.checkpoint] at h
  dsimp only at h
  rw [if_pos (by simp [Btcd.blockExists,hprev])] at h
  split at h
  · next e b'' hm =>
    obtain ⟨herr,rfl⟩ := Prod.mk.inj h
    obtain rfl := Except.error.inj herr
    rw [hm] at hindexes
    exact hindexes.resolve_left (by simp)
  · next main b'' hm =>
    rw [hm] at hindexes
    have hkept := processOrphans_keeps rules p cps fault hreorg
      (2*b''.orphans.length+1) [rules.blockHash block.header] b'' (hindexes.resolve_left (by simp))
    split at h
    · next e b3 ho =>
      obtain ⟨-,rfl⟩ := Prod.mk.inj h
      rwa [ho] at hkept
    · cases (Prod.mk.inj h).1

/-! ## Later blocks -/

omit [Hashing] in
/-- Once a second search finds what the first did, so does every later one. -/
theorem Settled.findPrevious_eq (h : Settled cps b) (hcache : Searched cps b b.cache cache) :
    cps.findPrevious b.best.nodes b.lookupNode cache = cps.findPrevious b.best.nodes b.lookupNode b.cache := by
  induction hcache with
  | refl => rfl
  | tail _ hstep ih => rw [hstep,ih,h]

variable (rules p now block fault) in
theorem processBlock_sameButCache (h : cps.findPrevious b.best.nodes b.lookupNode
    cache = cps.findPrevious b.best.nodes b.lookupNode b.cache) :
    (processBlock rules p cps reorganize fault now { b with cache := cache } block).1 =
      (processBlock rules p cps reorganize fault now b block).1 ∧
    SameButCache (processBlock rules p cps reorganize fault now b block).2
      (processBlock rules p cps reorganize fault now { b with cache := cache } block).2 := by
  have hlookup : Btcd.lookupNode { b with cache := cache } = b.lookupNode := rfl
  have hexists (hash : Hash) : Btcd.blockExists { b with cache := cache } hash = b.blockExists hash := rfl
  unfold processBlock
  simp only [hlookup,hexists,h]
  split
  · exact ⟨rfl,cache,rfl⟩
  split
  · exact ⟨rfl,cache,rfl⟩
  split
  · exact ⟨rfl,cache,rfl⟩
  · exact ⟨rfl,_,rfl⟩

theorem accept_sameButCache {vm : VM} {later : BlockAdapter}
    (h : cps.findPrevious vm.btcd.best.nodes vm.btcd.lookupNode cache =
      cps.findPrevious vm.btcd.best.nodes vm.btcd.lookupNode vm.btcd.cache) :
    (accept rules p cps reorganize now fault { vm with btcd := { vm.btcd with cache := cache } } later).1 =
      (accept rules p cps reorganize now fault vm later).1 ∧
    ∃ cache', (accept rules p cps reorganize now fault { vm with btcd := { vm.btcd with cache := cache } } later).2 =
      { (accept rules p cps reorganize now fault vm later).2 with
        btcd := { (accept rules p cps reorganize now fault vm later).2.btcd with cache := cache' } } := by
  obtain ⟨hresult,cache',hstate⟩ := processBlock_sameButCache rules p reorganize now later.block fault h
  unfold accept
  dsimp only
  split
  · exact ⟨rfl,cache,rfl⟩
  split
  · exact ⟨rfl,cache,rfl⟩
  rcases hout : processBlock rules p cps reorganize fault now vm.btcd later.block with ⟨r,btcd⟩
  rcases hout' : processBlock rules p cps reorganize fault now { vm.btcd with cache := cache } later.block
    with ⟨r',btcd'⟩
  rw [hout,hout'] at hresult hstate
  obtain rfl : r' = r := hresult
  obtain rfl : btcd' = { btcd with cache := cache' } := hstate
  rcases r' with e | ⟨isMainChain,isOrphan⟩
  · exact ⟨rfl,cache',rfl⟩
  · dsimp only
    split
    · exact ⟨rfl,cache',rfl⟩
    split
    · exact ⟨rfl,cache',rfl⟩
    · exact ⟨rfl,cache',rfl⟩

/-- A rule error leaves the stored blocks, the index, the best chain and its UTXO set as they were
exactly if the block fails a check before it is stored. Then they are so on disk as well; and where a
second search for the last checkpoint finds what the first did, `Accept` of any block then does what
it would have done. -/
theorem rule_error_unchanged_iff (rules : Rules) (p : Params) (cps : Checkpoints) (reorganize : Reorganize)
    (hreorg : KeepsIndex reorganize) (fault : Fault) (now : ℤ) (b b' : Btcd) (block : MsgBlock) (code : ErrorCode)
    (h : processBlock rules p cps reorganize fault now b block=(.error (.rule code),b')) :
    ((b'.disk.blocks = b.disk.blocks ∧ b'.index = b.index ∧ b'.best = b.best) ↔ ¬Stores rules p cps now b block) ∧
      (¬Stores rules p cps now b block → b'.disk = b.disk ∧ b'.orphans = b.orphans ∧
        (Settled cps b → ∀ (vm : VM) (now' : ℤ) (fault' : Fault) (later : BlockAdapter), vm.btcd = b →
          (accept rules p cps reorganize now' fault' { vm with btcd := b' } later).1 =
            (accept rules p cps reorganize now' fault' vm later).1 ∧
          ∃ cache, (accept rules p cps reorganize now' fault' { vm with btcd := b' } later).2 =
            { (accept rules p cps reorganize now' fault' vm later).2 with
              btcd := { (accept rules p cps reorganize now' fault' vm later).2.btcd with cache := cache } })) := by
  refine ⟨⟨fun ⟨_,hindex,_⟩ hstores => ?_, fun hnot => ?_⟩,fun hnot => ?_⟩
  · have hsome := processBlock_indexes hreorg hstores h
    have hnew := hstores.new
    rw [Btcd.blockExists,← hindex,hsome,Bool.true_or] at hnew
    cases hnew
  · obtain ⟨cache,-,rfl⟩ := processBlock_kept reorganize hnot h
    exact ⟨rfl,rfl,rfl⟩
  · obtain ⟨cache,hcache,rfl⟩ := processBlock_kept reorganize hnot h
    refine ⟨rfl,rfl,fun hsettled vm now' fault' later hvm => ?_⟩
    subst hvm
    exact accept_sameButCache reorganize (hsettled.findPrevious_eq hcache)

end

/-! ## Blocks refused before and after they are stored -/

section Sample

attribute [local instance] sampleHashing

/-- A first block whose coinbase makes a coin out of nothing. -/
def greedy1 : BlockAdapter where
  block := sampleBlock (sampleRules.blockHash sampleGenesis) 1790121601 [sampleCoinbase 1 1 [0x51]]
  height := 1

def genesisBtcd : Btcd := (genesisVM sampleParams ⟨sampleGenesis,[]⟩).btcd

def greedyOutcome : Except ChainError (Bool × Bool) × Btcd :=
  processBlock sampleRules sampleParams sampleCheckpoints noReorganize .none 1790126600 genesisBtcd greedy1.block

/-- The block breaks a rule and is stored all the same, and a second try finds it known. -/
theorem rejected_block_stored : greedyOutcome.1 = .error (.rule .badCoinbaseValue) ∧
      (genesisBtcd.index (greedy1.id sampleRules)).isNone = true ∧
      (greedyOutcome.2.index (greedy1.id sampleRules)).map (·.knownInvalid) = some true ∧
      (genesisBtcd.disk.blocks (greedy1.id sampleRules)).isNone = true ∧
      (greedyOutcome.2.disk.blocks (greedy1.id sampleRules)).isSome = true ∧
      (processBlock sampleRules sampleParams sampleCheckpoints noReorganize .none 1790126600
        greedyOutcome.2 greedy1.block).1 = .error (.rule .duplicateBlock) := by
  decide +kernel

def earlyOutcome : Except ChainError (Bool × Bool) × Btcd :=
  processBlock sampleRules sampleParams sampleCheckpoints noReorganize .none 1790126601 sampleVM.btcd early3.block

/-- A block refused for its time leaves no trace, and its sibling is accepted as before. -/
theorem early3_leaves_btcd : earlyOutcome.1 = .error (.rule .checkpointTimeTooOld) ∧
    earlyOutcome.2.disk = sampleVM.btcd.disk ∧ earlyOutcome.2.index = sampleVM.btcd.index ∧
      earlyOutcome.2.best = sampleVM.btcd.best ∧
      (accept sampleRules sampleParams sampleCheckpoints noReorganize 1790126601 .none
        { sampleVM with btcd := earlyOutcome.2 } child3).1 =
      (accept sampleRules sampleParams sampleCheckpoints noReorganize 1790126601 .none sampleVM child3).1 := by
  have hcode : earlyOutcome.1 = .error (.rule .checkpointTimeTooOld) := by decide +kernel
  have hnot : ¬ Stores sampleRules sampleParams sampleCheckpoints 1790126601 sampleVM.btcd early3.block := by
    intro h
    exact absurd h.checkpoint (by decide +kernel)
  have hsettled : Settled sampleCheckpoints sampleVM.btcd := by
    unfold Settled
    decide +kernel
  obtain ⟨hiff,hkept⟩ := rule_error_unchanged_iff sampleRules sampleParams sampleCheckpoints noReorganize
    (fun _ _ _ _ => id) .none 1790126601 sampleVM.btcd earlyOutcome.2 early3.block .checkpointTimeTooOld
    (Prod.ext hcode rfl)
  obtain ⟨-,hindex,hbest⟩ := hiff.mpr hnot
  obtain ⟨hdisk,-,hlater⟩ := hkept hnot
  exact ⟨hcode,hdisk,hindex,hbest,(hlater hsettled sampleVM 1790126601 .none child3 rfl).1⟩

end Sample

end DogePeg.Vm
