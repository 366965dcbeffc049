import DogePeg.Vm.Records

/-!
# A verified block can be accepted

`Verify` and `Accept` go through different paths of btcd. `Processed` says what the
second path comes to when no database write fails, with the checks that decide it;
each of them follows from the first path, except `ProcessBlock`'s comparison of the
block with the last checkpoint.
-/

namespace DogePeg.Vm

open Node Holdings Checks List

variable {index : BlockIndex} {now : ℤ} {b : Btcd} {block : MsgBlock} {best : BestChain}

section

variable (rules : Rules) (p : Params) (cps : Checkpoints) (reorganize : Reorganize) [Hashing]

/-! ## Processing without database failures -/

structure Passes (now : ℤ) (b : Btcd) (block : MsgBlock) : Prop where
  new : b.index (rules.blockHash block.header) = none
  sanity : checkBlockSanity rules now block = .ok ()
  checkpoint : ((cps.findPrevious b.best.nodes b.lookupNode b.cache).1 >>= fun node =>
    checkAgainstCheckpoint p node block.header) = .ok ()
  context : (checkBlockContext rules p cps b.best.nodes b.lookupNode
    (cps.findPrevious b.best.nodes b.lookupNode b.cache).2 block b.best.nodes).1 = .ok ()

structure Written (b b' : Btcd) (block : MsgBlock) : Prop where
  best : b'.disk.best.nodes = nodeOn rules b.best block::b.best.nodes
  index : b'.disk.index = Function.update b.index (rules.blockHash block.header)
    (some ⟨nodeOn rules b.best block::b.best.nodes,true,false⟩)

/-- What processing a block on the tip comes to. -/
inductive Processed (now : ℤ) (b : Btcd) (block : MsgBlock) :
    Except ChainError Bool × Btcd → Prop
  | kept {e cache} (fails : ¬ Passes rules p cps now b block)
      (searched : Searched cps b b.cache cache) :
      Processed now b block (.error e,{ b with cache := cache })
  | stored {e : ChainError} {b' : Btcd} (passes : Passes rules p cps now b block)
      (fails : ¬ ConnectsOn rules p cps b.best block) (best : b'.best=b.best)
      (disk : b'.disk.best=b.disk.best) (flushed : b'.disk.index=b'.index)
      (index : ∃ entry, b'.index =
        Function.update b.index (rules.blockHash block.header) (some entry))
      (searched : Searched cps b b.cache b'.cache) : Processed now b block (.error e,b')
  | overflow {b' : Btcd} (passes : Passes rules p cps now b block)
      (height : nextHeight b.best.nodes+1<0) (written : Written rules b b' block) :
      Processed now b block (.error .sliceBounds,b')
  | connected {b' : Btcd} (passes : Passes rules p cps now b block)
      (written : Written rules b b' block) (best : b'.best=b'.disk.best)
      (flushed : b'.disk.index=b'.index) (orphans : b'.orphans=b.orphans)
      (searched : Searched cps b b.cache b'.cache) :
      Processed now b block (.ok true,b')

variable {rules p cps}

theorem connectBestChain_processed {b₀ : Btcd} (passes : Passes rules p cps now b₀ block)
    (htip : b₀.tipHash=some block.header.prevBlock) (hbest : b.best=b₀.best)
    (hdiskBest : b.disk.best=b₀.disk.best) (hflushed : b.disk.index=b.index) (horphans : b.orphans=b₀.orphans)
    (hindex : b.index = Function.update b₀.index (rules.blockHash block.header)
      (some ⟨nodeOn rules b₀.best block::b₀.best.nodes,false,false⟩)) (hcache : Searched cps b₀ b₀.cache b.cache) :
    Processed rules p cps now b₀ block (connectBestChain rules p cps reorganize .none b (nodeOn rules b₀.best block)
        b₀.best.nodes block) := by
  have hupdate (entry : IndexEntry) : Function.update b.index (nodeOn rules b₀.best block).hash (some entry) =
        Function.update b₀.index (rules.blockHash block.header) (some entry) := by
    rw [hindex]
    exact Function.update_idem _ _ _
  unfold connectBestChain
  rw [if_pos (by rw [Btcd.tipHash,hbest]; exact htip),hbest]
  split
  case h_1 code hcheck =>
    refine .stored passes ?_ hbest hdiskBest rfl ⟨_,hupdate _⟩ hcache
    rintro ⟨⟨view,hview⟩,-⟩
    exact absurd (hcheck.symm.trans hview) (by simp)
  case h_2 e _ hcheck =>
    refine .stored passes ?_ hbest hdiskBest hflushed ⟨_,hindex⟩ hcache
    rintro ⟨⟨view,hview⟩,-⟩
    exact absurd (hcheck.symm.trans hview) (by simp)
  case h_3 view hcheck =>
    have hsame : UtxoSet.connectTransactions (nodeOn rules b₀.best block).height
        ((b.setEntry (nodeOn rules b₀.best block).hash
          ⟨nodeOn rules b₀.best block::b₀.best.nodes,true,false⟩).flushStatus .none).best.utxos block.transactions =
          UtxoSet.connectTransactions (nextHeight b₀.best.nodes) b₀.best.utxos block.transactions := by
      rw [flushStatus_best]
      exact congrArg (fun c : BestChain => UtxoSet.connectTransactions _ c.utxos _) hbest
    unfold connectBlock
    rw [hsame]
    cases hconn : UtxoSet.connectTransactions (nextHeight b₀.best.nodes) b₀.best.utxos block.transactions with
    | error e =>
      refine .stored passes ?_ hbest hdiskBest rfl ⟨_,hupdate _⟩ hcache
      rintro ⟨-,utxos,hutxos⟩
      exact absurd (hconn.symm.trans hutxos) (by simp)
    | ok utxos =>
      have hnodes : nodeOn rules b₀.best block::b.best.nodes =
          nodeOn rules b₀.best block::b₀.best.nodes := by rw [hbest]
      dsimp only
      split
      · rename_i hheight
        exact .overflow passes hheight ⟨hnodes,hupdate _⟩
      · exact .connected passes ⟨hnodes,hupdate _⟩ rfl rfl horphans hcache

theorem maybeAcceptBlock_processed {cache : CheckpointCache}
    {e : IndexEntry} (htip : b.tipHash=some block.header.prevBlock)
    (hentry : b.index block.header.prevBlock=some e) (hnodes : e.nodes=b.best.nodes) (hvalid : e.knownInvalid=false)
    (hnew : b.index (rules.blockHash block.header)=none) (hsanity : checkBlockSanity rules now block = .ok ())
    (hcheckpoint : ((cps.findPrevious b.best.nodes b.lookupNode b.cache).1 >>= fun node =>
      checkAgainstCheckpoint p node block.header) = .ok ())
    (hcache : cache=(cps.findPrevious b.best.nodes b.lookupNode b.cache).2) :
    Processed rules p cps now b block
      (maybeAcceptBlock rules p cps reorganize .none { b with cache := cache } block) := by
  have hsearched : Searched cps b b.cache cache := .single hcache
  have hcontext := checkBlockContext_searched rules p cps block b.best.nodes hsearched
  unfold maybeAcceptBlock
  simp only [hentry,hvalid,hnodes,Bool.false_eq_true,↓reduceIte]
  split
  case h_1 err cache' hctx =>
    change checkBlockContext rules p cps b.best.nodes b.lookupNode cache block b.best.nodes = _ at hctx
    rw [hctx] at hcontext
    refine .kept ?_ hcontext
    intro passes
    have := passes.context
    rw [← hcache,hctx] at this
    cases this
  case h_2 cache' hctx =>
    change checkBlockContext rules p cps b.best.nodes b.lookupNode cache block b.best.nodes = _ at hctx
    rw [hctx] at hcontext
    have passes : Passes rules p cps now b block := ⟨hnew,hsanity,hcheckpoint,by rw [← hcache,hctx]⟩
    exact connectBestChain_processed reorganize passes htip rfl rfl rfl rfl rfl hcontext

theorem processBlock_processed (now : ℤ) {e : IndexEntry}
    (horphans : b.orphans=[]) (hmain : ∀ n∈b.disk.best.nodes, b.index n.hash ≠ none)
    (htip : b.tipHash=some block.header.prevBlock)
    (hentry : b.index block.header.prevBlock=some e) (hnodes : e.nodes=b.best.nodes)
    (hvalid : e.knownInvalid=false) : ∃ r b', processBlock rules p cps reorganize .none now b block =
        (r.map fun isMainChain => (isMainChain,false), b') ∧ Processed rules p cps now b block (r,b') := by
  have hexists : b.blockExists (rules.blockHash block.header) = true ↔
      b.index (rules.blockHash block.header) ≠ none := by
    unfold Btcd.blockExists
    rw [Bool.or_eq_true,Option.isSome_iff_ne_none]
    refine or_iff_left_of_imp fun hany => ?_
    obtain ⟨n,hn,heq⟩ := any_eq_true.mp hany
    exact (of_decide_eq_true heq) ▸ hmain n hn
  unfold processBlock
  dsimp only
  by_cases hknown : b.index (rules.blockHash block.header) = none
  · rw [if_neg (by rw [hexists]; simp [hknown]),if_neg (by simp [horphans])]
    cases hsanity : checkBlockSanity rules now block with
    | error err => exact ⟨.error err,b,rfl,.kept (by rintro ⟨-,h,-⟩; simp [hsanity] at h) .refl⟩
    | ok =>
      dsimp only
      split
      case h_1 err hcheck =>
        exact ⟨.error err,_,rfl,.kept (by rintro ⟨-,-,h,-⟩; simp [hcheck] at h) (.single rfl)⟩
      case h_2 hcheck =>
        rw [if_pos (by simp [Btcd.blockExists,hentry])]
        have hout := maybeAcceptBlock_processed reorganize htip hentry hnodes hvalid hknown hsanity hcheck rfl
        split
        case h_1 err b' hm =>
          rw [hm] at hout
          exact ⟨.error err,b',rfl,hout⟩
        case h_2 isMain b' hm =>
          rw [hm] at hout
          refine ⟨.ok isMain,b',?_,hout⟩
          have horphans' : b'.orphans = [] := by
            cases hout with
            | connected _ _ _ _ h _ => rw [h,horphans]
          rw [processOrphans_nil rules p cps reorganize .none horphans']
          rfl
  · rw [if_pos (hexists.mpr hknown)]
    exact ⟨.error _,b,rfl,.kept (fun h => hknown h.new) .refl⟩

omit [Hashing] in
theorem verify_of_header {prev : List BlockNode}
    (h : checkHeaderBeforeCheckpoint p cps (rules.blockHash block.header) block.header prev = .ok ()) :
    cps.verify (nextHeight prev) (rules.blockHash block.header) = true := by
  simp only [checkHeaderBeforeCheckpoint,checks_ok,require_eq_ok] at h
  exact h.2

theorem Passes.wellFormed (h : Passes rules p cps now b block) : WellFormed rules p block :=
  ⟨⟨now,h.sanity⟩,b.best.nodes,(checkBlockContext_ok h.context).2.1⟩

/-! ## Runs without database failures -/

def Grows (best best' : BestChain) : Prop :=
  best' = best ∨ ∃ new, new ≠ [] ∧ best'.nodes = new++best.nodes

omit [Hashing] in
theorem Grows.trans {c₁ c₂ c₃ : BestChain} (h : Grows c₁ c₂) (h' : Grows c₂ c₃) : Grows c₁ c₃ := by
  rcases h with rfl | ⟨new,hne,heq⟩
  · exact h'
  · rcases h' with rfl | ⟨new',-,heq'⟩
    · exact .inr ⟨new,hne,heq⟩
    · exact .inr ⟨new'++new,by simp [hne], by rw [heq',heq,append_assoc]⟩

omit [Hashing] in
/-- A chain of distinct hashes that has grown has another tip. -/
theorem Grows.eq_of_tip {best' : BestChain} {tip : Hash} (h : Grows best best')
    (hnodup : (best'.nodes.map (·.hash)).Nodup) (htip : best.nodes.head?.map (·.hash)=some tip)
    (htip' : best'.nodes.head?.map (·.hash)=some tip) : best' = best := by
  rcases h with h | ⟨new,hne,heq⟩
  · exact h
  · obtain ⟨n,new,rfl⟩ := exists_cons_of_ne_nil hne
    obtain ⟨old,hold,rfl⟩ := Option.map_eq_some_iff.mp htip
    rw [heq,cons_append,List.head?_cons,Option.map_some,Option.some.injEq] at htip'
    rw [heq,cons_append,map_cons,htip',nodup_cons] at hnodup
    refine absurd (mem_map.mpr ⟨old,?_,rfl⟩) hnodup.1
    exact mem_append_right _ (mem_of_head? hold)

variable (rules p cps)

/-- What every run has in which no database write fails and the blocks processed are those
of `seen`. -/
structure Recorded (seen : Set MsgBlock) (vm : VM) : Prop where
  ok : VmOk vm
  tracked : Tracked rules p cps seen vm.btcd.disk.best vm.btcd.disk.index
  index : vm.broken = false → vm.btcd.index = vm.btcd.disk.index
  cache : vm.broken = false → vm.btcd.best.nodes.length < 2^31 →
    cps.CacheOk vm.btcd.best.nodes vm.btcd.cache

variable {rules p cps} {seen : Set MsgBlock} {vm : VM}

variable (h : Recorded rules p cps seen vm)

include h

theorem Recorded.memory (hb : vm.broken=false) : Tracked rules p cps seen vm.btcd.best vm.btcd.index := by
  rw [h.index hb,← (h.ok.synced hb).best]
  exact h.tracked

theorem Recorded.tip (hb : vm.broken=false) :
    ∃ e, vm.btcd.index vm.lastAccepted = some e ∧ e.nodes = vm.btcd.best.nodes ∧ e.knownInvalid = false := by
  obtain ⟨tip,htip,hhash⟩ := Option.map_eq_some_iff.mp (h.ok.synced hb).tip_eq
  obtain ⟨rest,hnodes⟩ := List.head?_eq_some_iff.mp htip
  rw [← hhash,hnodes]
  exact ((h.memory hb).main tip rest (hnodes ▸ suffix_rfl)).entry

theorem Recorded.accept_processed (hb : vm.broken=false)
    (now : ℤ) {b : BlockAdapter} (hparent : b.parentID=vm.lastAccepted) :
    ∃ r btcd, Processed rules p cps now vm.btcd b.block (r,btcd) ∧
      accept rules p cps reorganize now .none vm b = match r with
        | .error e => (.error (.chain e),{ vm with btcd := btcd,broken := !isRuleError e })
        | .ok _ => (.ok (),{ vm with
          btcd := btcd
          verifiedBlocks := vm.verifiedBlocks.erase (b.id rules)
          lastAccepted := b.id rules }) := by
  have hs := h.ok.synced hb
  have htip : vm.btcd.tipHash = some b.block.header.prevBlock := hs.tip_eq.trans (by rw [← hparent]; rfl)
  obtain ⟨e,hentry,hnodes,hvalid⟩ := h.tip hb
  rw [← hparent] at hentry
  have hmain : ∀ n∈vm.btcd.disk.best.nodes, vm.btcd.index n.hash ≠ none := by
    intro n hn
    obtain ⟨pre,behind,hsplit⟩ := append_of_mem hn
    obtain ⟨e,he,-⟩ := (h.tracked.main n behind ⟨pre,hsplit.symm⟩).entry
    rw [h.index hb,he]
    exact Option.some_ne_none e
  obtain ⟨r,btcd,heq,hout⟩ := processBlock_processed reorganize now hs.orphans hmain htip hentry hnodes hvalid
  refine ⟨r,btcd,hout,?_⟩
  unfold Vm.accept
  rw [if_neg (not_not.mpr hparent),if_neg (by simp [hb]),heq]
  cases hout <;> rfl

theorem Recorded.processed (hb : vm.broken=false) (hseen : block∈seen) (htip : block.header.prevBlock=vm.lastAccepted)
    {r : Except ChainError Bool} {btcd : Btcd} (hout : Processed rules p cps now vm.btcd block (r,btcd)) :
    Tracked rules p cps seen btcd.disk.best btcd.disk.index ∧ Grows vm.btcd.disk.best btcd.disk.best ∧
      (r ≠ .error .sliceBounds → btcd.index = btcd.disk.index ∧
        (btcd.best.nodes.length < 2^31 → cps.CacheOk btcd.best.nodes btcd.cache)) := by
  have hs := h.ok.synced hb
  have hmem := h.memory hb
  have htip' : vm.btcd.best.nodes.head?.map (·.hash) = some block.header.prevBlock := htip ▸ hs.tip_eq
  have hwritten {b' : Btcd} (passes : Passes rules p cps now vm.btcd block) (written : Written rules vm.btcd b' block) :
      Tracked rules p cps seen b'.disk.best b'.disk.index ∧ Grows vm.btcd.disk.best b'.disk.best := by
    constructor
    · rw [written.index]
      exact hmem.connected hseen passes.wellFormed
        (verify_of_header (checkBlockContext_ok passes.context).1) htip' passes.new written.best rfl rfl
    · rw [hs.best]
      exact .inr ⟨[_],by simp, written.best⟩
  cases hout with
  | kept fails searched =>
    exact ⟨h.tracked,.inl rfl,fun _ =>
      ⟨h.index hb,fun hlen => hmem.searched hlen (h.cache hb hlen) searched⟩⟩
  | stored passes fails best disk flushed index searched =>
    obtain ⟨entry,hentry⟩ := index
    refine ⟨?_,.inl disk,fun _ => ⟨flushed.symm,fun hlen => ?_⟩⟩
    · rw [disk,flushed,hentry,hs.best]
      exact hmem.stored hseen passes.wellFormed htip' passes.new fails
    · rw [best] at hlen ⊢
      exact hmem.searched hlen (h.cache hb hlen) searched
  | overflow passes height written =>
    have hw := hwritten passes written
    exact ⟨hw.1,hw.2,fun hne => absurd rfl hne⟩
  | connected passes written best flushed orphans searched =>
    have hw := hwritten passes written
    refine ⟨hw.1,hw.2,fun _ => ⟨flushed.symm,fun hlen => ?_⟩⟩
    rw [best,written.best] at hlen ⊢
    have hlen' : vm.btcd.best.nodes.length < 2^31 := by
      rw [length_cons] at hlen
      omega
    exact (hmem.searched hlen' (h.cache hb hlen') searched).mono (subset_cons_self _ _)

theorem Recorded.reads {vm' : VM} (hr : Reads cps vm vm') :
    Recorded rules p cps seen vm' ∧ vm'.btcd.disk.best = vm.btcd.disk.best := by
  have hok := hr.vmOk h.ok
  obtain ⟨⟨cache,hsearched,hbtcd⟩,-,hbroken⟩ := hr
  have hdisk : vm'.btcd.disk = vm.btcd.disk := by rw [hbtcd]
  refine ⟨⟨hok,?_,?_,?_⟩,by rw [hdisk]⟩
  · rw [hdisk]
    exact h.tracked
  · intro hb
    rw [hbtcd]
    exact h.index (hbroken ▸ hb)
  · intro hb hlen
    rw [hbtcd] at hlen ⊢
    exact (h.memory (hbroken ▸ hb)).searched hlen (h.cache (hbroken ▸ hb) hlen) hsearched

def acceptedIn (calls : List Call) : Set MsgBlock :=
  {block | ∃ now fault height, Call.accept now fault ⟨block,height⟩∈calls}

def Faultless (calls : List Call) : Prop :=
  ∀ now fault b, Call.accept now fault b ∈ calls → fault = .none

theorem Recorded.step (call : Call) (hfault : Faultless [call]) (hseen : acceptedIn [call] ⊆ seen) :
    Recorded rules p cps seen (Vm.step rules p cps reorganize vm call) ∧
      Grows vm.btcd.disk.best (Vm.step rules p cps reorganize vm call).btcd.disk.best := by
  have hok := h.ok.step rules p cps reorganize call
  cases call with
  | parse block => exact ⟨h,.inl rfl⟩
  | build now b => exact (h.reads (buildBlock_reads rules p cps now vm b)).imp_right .inl
  | verify now b => exact (h.reads (verify_reads rules p cps now vm b)).imp_right .inl
  | reject b => exact (h.reads (reject_reads rules cps vm b)).imp_right .inl
  | restart => exact ⟨⟨hok,h.tracked,fun _ => rfl, fun _ _ => ⟨by rintro _ ⟨⟩, by rintro _ ⟨⟩⟩⟩,.inl rfl⟩
  | accept now fault b =>
    obtain rfl := hfault now fault b mem_cons_self
    have hb : b.block∈seen := hseen ⟨now,.none,b.height,mem_cons_self⟩
    by_cases hparent : b.parentID = vm.lastAccepted
    · cases hbroken : vm.broken with
      | true =>
        have hsame : Vm.step rules p cps reorganize vm (.accept now .none b) = vm := by
          simp [Vm.step,exec,Prod.map,accept,hparent,hbroken]
        rw [hsame]
        exact ⟨h,.inl rfl⟩
      | false =>
        obtain ⟨r,btcd,hout,heq⟩ := h.accept_processed reorganize hbroken now hparent
        obtain ⟨htracked,hgrows,hrest⟩ := h.processed hbroken hb hparent hout
        simp only [Vm.step,exec,Prod.map,heq] at hok ⊢
        cases r with
        | error e =>
          refine ⟨⟨hok,htracked,fun hb' => ?_, fun hb' => ?_⟩,hgrows⟩
          · exact (hrest (by rintro ⟨⟩; cases hb')).1
          · exact (hrest (by rintro ⟨⟩; cases hb')).2
        | ok isMain =>
          have hrest := hrest (by simp)
          exact ⟨⟨hok,htracked,fun _ => hrest.1, fun _ => hrest.2⟩,hgrows⟩
    · have hsame : Vm.step rules p cps reorganize vm (.accept now .none b) = vm := by
        simp [Vm.step,exec,Prod.map,accept,hparent]
      rw [hsame]
      exact ⟨h,.inl rfl⟩

theorem Recorded.run (calls : List Call) (hfault : Faultless calls) (hseen : acceptedIn calls ⊆ seen) :
    Recorded rules p cps seen (Vm.run rules p cps reorganize vm calls) ∧
      Grows vm.btcd.disk.best (Vm.run rules p cps reorganize vm calls).btcd.disk.best := by
  induction calls generalizing vm with
  | nil => exact ⟨h,.inl rfl⟩
  | cons call calls ih =>
    have hstep := h.step reorganize call (fun now fault b hm => hfault now fault b (by simp_all))
      (fun block ⟨now,fault,height,hm⟩ => hseen ⟨now,fault,height,by simp_all⟩)
    have hrun := ih hstep.1 (fun now fault b hm => hfault now fault b (mem_cons_of_mem _ hm))
      (fun block ⟨now,fault,height,hm⟩ => hseen ⟨now,fault,height,mem_cons_of_mem _ hm⟩)
    exact ⟨hrun.1,hstep.2.trans hrun.2⟩

omit h

theorem genesisVM_recorded (genesis : MsgBlock) : Recorded rules p cps seen (genesisVM p genesis) := by
  refine ⟨genesisVM_ok p genesis,⟨nodup_singleton _,?_,?_⟩,fun _ => rfl,
    fun _ _ => ⟨by rintro _ ⟨⟩, by rintro _ ⟨⟩⟩⟩
  · intro n behind hn
    rcases suffix_cons_iff.mp hn with heq | hn
    · cases heq
      exact ⟨rfl,⟨_,if_pos rfl,rfl,rfl⟩,fun _ => rfl, by simp⟩
    · simp at hn
  · intro hash hhash
    left
    by_contra hne
    have hne' : hash ≠ p.genesisHash := fun heq => hne (by simp [genesisVM,newBlockNode,heq])
    exact hhash (if_neg hne')

/-! ## What `Verify` has checked -/

omit [Hashing] in
theorem toInt_next {nodes : List BlockNode} {height : Int32}
    (h : nodes.head?.map (·.height.toInt+1)=some height.toInt) : nextHeight nodes = height := by
  obtain ⟨tip,htip,heq⟩ := Option.map_eq_some_iff.mp h
  rw [nextHeight,htip,← Int32.toInt_inj,Option.map_some,Option.getD_some,Int32.toInt_add]
  have hlt := height.toInt_lt
  have hle := tip.height.le_toInt
  have h1 : (1 : Int32).toInt = 1 := rfl
  rw [h1,heq,Int.bmod_eq_of_le] <;> norm_num <;> omega

theorem verify_ok {b : BlockAdapter} (h : (verify rules p cps now vm b).1 = .ok ()) :
    vm.broken = false ∧ b.parentID = vm.lastAccepted ∧
      TemplateOk rules p cps now vm.btcd.best b.block (nextHeight vm.btcd.best.nodes) := by
  unfold verify at h
  split at h
  case isTrue => cases h
  case isFalse hbroken =>
    split at h
    case isTrue => cases h
    case isFalse hparent =>
      split at h
      case isTrue => cases h
      case isFalse hheight =>
        split at h
        case h_1 => cases h
        case h_2 vm' hcheck =>
          refine ⟨by simpa using hbroken, not_not.mp hparent, ?_⟩
          rw [toInt_next (not_not.mp hheight)]
          exact checkConnectBlockTemplate_ok (congrArg Prod.fst hcheck)

theorem checkBlockSanity_later {now' : ℤ} (hle : now≤now')
    (h : checkBlockSanity rules now block = .ok ()) : checkBlockSanity rules now' block = .ok () := by
  unfold checkBlockSanity checkBlockHeaderSanity at h ⊢
  rw [bind_eq_ok] at h ⊢
  obtain ⟨u,htime,hrest⟩ := h
  refine ⟨u,?_,hrest⟩
  rw [require_eq_ok,decide_eq_true_eq] at htime ⊢
  omega

omit [Hashing] in
theorem checkBlockContext_eq_ok {best : List BlockNode} {lookupNode : Hash → Option BlockNode}
    {cache : CheckpointCache} {prev : List BlockNode} {found : Option BlockNode}
    (hheader : checkHeaderBeforeCheckpoint p cps (rules.blockHash block.header) block.header prev = .ok ())
    (hfound : (cps.findPrevious best lookupNode cache).1 = .ok found)
    (hage : checkForkAge found (nextHeight prev) = .ok ())
    (hcontents : checkBlockContents rules p block prev = .ok ()) :
    (checkBlockContext rules p cps best lookupNode cache block prev).1 = .ok () := by
  unfold checkBlockContext
  rw [hheader]
  simp only [hfound,checks_ok,Except.ok.injEq]
  exact ⟨found,rfl,hage,hcontents⟩

theorem Tracked.checkForkAge_ok (h : Tracked rules p cps seen best index)
    (hlen : best.nodes.length+1<2^31) {found : Option BlockNode} (hfound : ∀ n, found = some n → n∈best.nodes) :
    checkForkAge found (nextHeight best.nodes) = .ok () := by
  unfold checkForkAge
  rw [require_eq_ok]
  cases found with
  | none => rfl
  | some n =>
    obtain ⟨pre,behind,hsplit⟩ := append_of_mem (hfound n rfl)
    have hn := (h.main n behind ⟨pre,hsplit.symm⟩).height
    cases hnodes : best.nodes with
    | nil => simp [hnodes] at hsplit
    | cons tip rest =>
      have htip := (h.main tip rest (hnodes ▸ suffix_rfl)).height
      have hlength := congrArg List.length hsplit
      rw [hnodes] at hlen hlength
      simp only [length_append,length_cons] at hlen hlength
      rw [nextHeight_ofNat htip]
      simp only [hn,Int32.le_iff_toInt_le,decide_eq_true_eq,length_cons]
      rw [Int32.toInt_ofNat_of_lt (by omega),Int32.toInt_ofNat_of_lt (by omega)]
      omega

theorem Tracked.not_overflow (h : Tracked rules p cps seen best index) (hlen : best.nodes.length+1<2^31)
    (hne : best.nodes≠[]) : ¬ nextHeight best.nodes+1 < 0 ∧ ¬ nextHeight best.nodes < 0 := by
  obtain ⟨tip,rest,hnodes⟩ := exists_cons_of_ne_nil hne
  have htip := (h.main tip rest (hnodes ▸ suffix_rfl)).height
  rw [hnodes] at hlen ⊢
  rw [nextHeight_ofNat htip]
  have hadd : Int32.ofNat (tip::rest).length+1 = Int32.ofNat ((tip::rest).length+1) := by
    rw [Int32.ofNat_add]
    rfl
  rw [hadd,Int32.lt_iff_toInt_lt,Int32.lt_iff_toInt_lt,Int32.toInt_ofNat_of_lt hlen,
    Int32.toInt_ofNat_of_lt (by omega),Int32.toInt_zero]
  omega

theorem connectsOn_of_template (h : TemplateOk rules p cps now best block (nextHeight best.nodes))
    (hbip : ¬ nextHeight best.nodes<p.bip0034Height) : ConnectsOn rules p cps best block := by
  obtain ⟨-,-,s',-,-,-,-,hconn,-⟩ := h.connects hbip
  exact ⟨h.connect,s',hconn.connectTransactions⟩

theorem Tracked.index_eq_none (h : Tracked rules p cps seen best index)
    (htip : best.nodes.head?.map (·.hash)=some block.header.prevBlock) (hconn : ConnectsOn rules p cps best block)
    (hhash : ∀ block'∈seen, WellFormed rules p block' →
      rules.blockHash block'.header = rules.blockHash block.header → block' = block) :
    index (rules.blockHash block.header) = none := by
  by_contra hsome
  rcases h.others _ hsome with hmem | ⟨block',hseen,hsame,hwf,-,hrefused⟩
  · obtain ⟨n,hn,hnhash⟩ := mem_map.mp hmem
    obtain ⟨pre,behind,hsplit⟩ := append_of_mem hn
    have hmain := h.main n behind ⟨pre,hsplit.symm⟩
    cases hbehind : behind.head? with
    | none =>
      -- the genesis block never connects
      obtain ⟨⟨view,hview⟩,-⟩ := hconn
      simp only [checkConnectBlock,checks_ok,require_eq_ok,decide_eq_true_eq] at hview
      exact hview.1 (hnhash.symm.trans (hmain.genesis (List.head?_eq_none_iff.mp hbehind)))
    | some prev =>
      -- the parent of a block of the main chain is behind the tip
      obtain ⟨-,block',hseen,hwf,hsame,hprev⟩ := hmain.block prev hbehind
      rw [hhash block' hseen hwf (hsame.trans hnhash)] at hprev
      obtain ⟨tip,hhead,htiphash⟩ := Option.map_eq_some_iff.mp htip
      obtain ⟨rest,hnodes⟩ := List.head?_eq_some_iff.mp hhead
      have hsub : n::behind <:+ tip::rest := hnodes ▸ ⟨pre,hsplit.symm⟩
      have hprevMem : prev∈rest := by
        have hin := mem_of_head? hbehind
        rcases suffix_cons_iff.mp hsub with heq | hsuffix
        · exact (List.cons.inj heq).2 ▸ hin
        · exact hsuffix.subset (mem_cons_of_mem _ hin)
      have hnodup := h.nodup
      rw [hnodes,map_cons,nodup_cons] at hnodup
      exact hnodup.1 (mem_map.mpr ⟨prev,hprevMem,by rw [htiphash,hprev]⟩)
  · obtain rfl := hhash block' hseen hwf hsame
    exact hrefused htip hconn

/-- A verified block passes the checks of the other path, when it passes the comparison
with the last checkpoint. -/
theorem Recorded.passes (h : Recorded rules p cps seen vm) (hb : vm.broken=false)
    (hlen : vm.btcd.best.nodes.length+1<2^31) {now' : ℤ} (hclock : now≤now')
    (hok : TemplateOk rules p cps now vm.btcd.best block (nextHeight vm.btcd.best.nodes))
    (hconn : ConnectsOn rules p cps vm.btcd.best block) (hhash : ∀ block'∈seen, WellFormed rules p block' →
      rules.blockHash block'.header = rules.blockHash block.header → block' = block)
    (hcheckpoint : ∀ node, (cps.findPrevious vm.btcd.best.nodes vm.btcd.lookupNode vm.btcd.cache).1 = .ok (some node) →
        checkAgainstCheckpoint p (some node) block.header = .ok ()) : Passes rules p cps now' vm.btcd block := by
  have hmem := h.memory hb
  have hlen' : vm.btcd.best.nodes.length < 2^31 := by omega
  obtain ⟨⟨found,hfound,-⟩,hcache⟩ :=
    Checkpoints.findPrevious_ok vm.btcd.lookupNode (h.cache hb hlen') (hmem.lookup hlen')
  obtain ⟨⟨found',hfound',hon'⟩,-⟩ := Checkpoints.findPrevious_ok vm.btcd.lookupNode hcache (hmem.lookup hlen')
  refine ⟨hmem.index_eq_none hok.tip hconn hhash,checkBlockSanity_later hclock hok.sanity,?_,?_⟩
  · rw [bind_eq_ok]
    refine ⟨found,hfound,?_⟩
    cases found with
    | none => rfl
    | some node => exact hcheckpoint node hfound
  · exact checkBlockContext_eq_ok hok.header hfound' (hmem.checkForkAge_ok hlen hon') hok.contents

variable (rules cps)

/-- The parameters a genesis configuration gives: a network's genesis block, and a peg
reserve if it sets one. -/
def vmParams (g : Hash) (reserve : Option PegReserve) : Params :=
  { dogecoinVMParams g with pegReserve := reserve }

/-- A block that `Verify` has passed can be accepted: over every run without a database
failure, as long as no other block has been accepted since and the clock has not gone
back, `Accept` fails with no rule error, and on a VM that is not broken the block becomes
the tip. The one check `Verify` does not make is that of `ProcessBlock` against the last
checkpoint, which the block has to pass; and heights end below `2 ^ 31`. -/
theorem verified_block_accepted (g : Hash) (reserve : Option PegReserve) (genesis : MsgBlock)
    (before after : List Call) (b : BlockAdapter) (now now' : ℤ) {vm vm' : VM}
    (hvm : vm=run rules (vmParams g reserve) cps reorganize (genesisVM (vmParams g reserve) genesis) before)
    (hvm' : vm' = run rules (vmParams g reserve) cps reorganize
      (step rules (vmParams g reserve) cps reorganize vm (.verify now b)) after)
    (hfault : Faultless (before++after))
    (hhash : ∀ block∈acceptedIn (before++after), WellFormed rules (vmParams g reserve) block →
      rules.blockHash block.header = b.id rules → block = b.block)
    (hverify : (verify rules (vmParams g reserve) cps now vm b).1 = .ok ())
    (hsince : vm'.lastAccepted=vm.lastAccepted) (hclock : now≤now') (hlen : vm'.btcd.best.nodes.length+1<2^31)
    (hcheckpoint : ∀ node, (cps.findPrevious vm'.btcd.best.nodes vm'.btcd.lookupNode vm'.btcd.cache).1 =
          .ok (some node) → checkAgainstCheckpoint (vmParams g reserve) (some node) b.block.header = .ok ()) :
    let accepted := accept rules (vmParams g reserve) cps reorganize now' .none vm' b
    (∀ code, accepted.1 ≠ .error (.chain (.rule code))) ∧
      (vm'.broken = false → accepted.1 = .ok () ∧ accepted.2.btcd.tipHash = some (b.id rules) ∧
        accepted.2.lastAccepted = b.id rules) := by
  intro accepted
  obtain ⟨hbroken,hparent,hok⟩ := verify_ok hverify
  have hrec : Recorded rules (vmParams g reserve) cps (acceptedIn (before++after)) vm := by
    rw [hvm]
    refine ((genesisVM_recorded genesis).run reorganize before ?_ ?_).1
    · exact fun now fault b hm => hfault now fault b (mem_append_left _ hm)
    · exact fun block ⟨now,fault,height,hm⟩ => ⟨now,fault,height,mem_append_left _ hm⟩
  have hstep := hrec.step reorganize (.verify now b) (by rintro _ _ _ hm; simp at hm)
    (by rintro _ ⟨_,_,_,hm⟩; simp at hm)
  have hrun := hstep.1.run reorganize after (fun now fault b hm => hfault now fault b (mem_append_right _ hm))
    (fun block ⟨now,fault,height,hm⟩ => ⟨now,fault,height,mem_append_right _ hm⟩)
  rw [← hvm'] at hrun
  have hrec' := hrun.1
  cases hb' : vm'.broken with
  | true =>
    have herr : accepted.1 = .error .broken := by
      simp [accepted,accept,hsince,hparent,hb']
    exact ⟨fun code h => by simp [herr] at h, fun h => by cases h⟩
  | false =>
    -- the chain is the one the block was verified on
    have hs := hrec.ok.synced hbroken
    have hs' := hrec'.ok.synced hb'
    have hgrows := hstep.2.trans hrun.2
    rw [hs.best,hs'.best] at hgrows
    have hbest : vm'.btcd.best = vm.btcd.best :=
      hgrows.eq_of_tip (hrec'.memory hb').nodup hs.tip_eq (hsince ▸ hs'.tip_eq)
    rw [← hbest] at hok
    have hne : vm'.btcd.best.nodes ≠ [] := by
      intro hnil
      have := hs'.tip_eq
      simp [Btcd.tipHash,hnil] at this
    have hheight := (hrec'.memory hb').not_overflow hlen hne
    have hconn := connectsOn_of_template hok hheight.2
    have hpasses := hrec'.passes hb' hlen hclock hok hconn hhash hcheckpoint
    obtain ⟨r,btcd,hout,heq⟩ := hrec'.accept_processed reorganize hb' now' (hsince ▸ hparent)
    change accepted = _ at heq
    rw [heq]
    cases hout with
    | kept fails => exact absurd hpasses fails
    | stored _ fails => exact absurd hconn fails
    | overflow _ height => exact absurd height hheight.1
    | connected _ written best =>
      refine ⟨fun code h => (by cases h), fun _ => ⟨rfl,?_,rfl⟩⟩
      change btcd.best.nodes.head?.map (·.hash) = _
      rw [best,written.best]
      rfl

end

/-! ## A checkpoint later than the past median time -/

section Sample

attribute [local instance] sampleHashing

def sampleParams : Params := vmParams (sampleRules.blockHash sampleGenesis) none

def sampleChild (parent : Hash) (height : UInt8) (timestamp : UInt32) : BlockAdapter where
  block := sampleBlock parent timestamp [sampleCoinbase height 0 [0x51]]
  height := Int32.ofNat height.toNat

def child1 : BlockAdapter := sampleChild (sampleRules.blockHash sampleGenesis) 1 1790121601

/-- The block of the checkpoint, well after the one before it. -/
def child2 : BlockAdapter := sampleChild (child1.id sampleRules) 2 1790126600

def early3 : BlockAdapter := sampleChild (child2.id sampleRules) 3 1790121602

def child3 : BlockAdapter := sampleChild (child2.id sampleRules) 3 1790126601

def sampleCheckpoints : Checkpoints :=
  ⟨[⟨2,child2.id sampleRules⟩],pairwise_singleton _ _,by simp⟩

def noReorganize : Reorganize := fun b _ _ => (.ok false,b)

def sampleCalls : List Call :=
  [.accept 1790126600 .none child1,.accept 1790126600 .none child2]

def sampleVM : VM :=
  run sampleRules sampleParams sampleCheckpoints noReorganize (genesisVM sampleParams ⟨sampleGenesis,[]⟩) sampleCalls

/-- The two calls accept one block each, the second on the first. -/
theorem sampleCalls_extend : ∃ vm, Extended sampleRules (genesisVM sampleParams ⟨sampleGenesis,[]⟩) vm child1 ∧
    Extended sampleRules vm sampleVM child2 := by
  have hlife := block_lifecycle sampleRules sampleParams sampleCheckpoints noReorganize ⟨sampleGenesis,[]⟩
  have haccept {vm : VM} {b : BlockAdapter} (h : (accept sampleRules sampleParams sampleCheckpoints noReorganize
      1790126600 .none vm b).1 = .ok ()) : (exec sampleRules sampleParams sampleCheckpoints noReorganize vm
        (.accept 1790126600 .none b)).1 = .ok none := congrArg (Except.map fun _ => none) h
  obtain ⟨-,-,hfirst,-⟩ := hlife []
  obtain ⟨-,-,hsecond,-⟩ := hlife [.accept 1790126600 .none child1]
  exact ⟨_,hfirst _ _ child1 (haccept (by decide +kernel)),hsecond _ _ child2 (haccept (by decide +kernel))⟩

def sampleVerified (b : BlockAdapter) : VM :=
  step sampleRules sampleParams sampleCheckpoints noReorganize sampleVM (.verify 1790126601 b)

theorem early3_refused : (verify sampleRules sampleParams sampleCheckpoints 1790126601 sampleVM early3).1 = .ok () ∧
      (sampleVerified early3).lastAccepted = sampleVM.lastAccepted ∧
      (accept sampleRules sampleParams sampleCheckpoints noReorganize 1790126601 .none
        (sampleVerified early3) early3).1 = .error (.chain (.rule .checkpointTimeTooOld)) := by
  decide +kernel

theorem child3_accepted : (accept sampleRules sampleParams sampleCheckpoints noReorganize 1790126601 .none
      (sampleVerified child3) child3).1 = .ok () := by
  have hcheck : ((sampleCheckpoints.findPrevious (sampleVerified child3).btcd.best.nodes
      (sampleVerified child3).btcd.lookupNode (sampleVerified child3).btcd.cache).1 >>= fun node =>
        checkAgainstCheckpoint sampleParams node child3.block.header) = .ok () := by
    decide +kernel
  have hfault : Faultless (sampleCalls++[]) := by
    intro now fault b hm
    simp only [sampleCalls,append_nil,mem_cons,Call.accept.injEq,not_mem_nil,or_false] at hm
    rcases hm with hm | hm <;> exact hm.2.1
  refine ((verified_block_accepted sampleRules sampleCheckpoints noReorganize
    (sampleRules.blockHash sampleGenesis) none ⟨sampleGenesis,[]⟩ sampleCalls [] child3
    1790126601 1790126601 rfl rfl hfault ?_ ?_ ?_ (le_refl _) ?_ ?_).2 ?_).1
  · rintro block ⟨now,fault,height,hm⟩ - hsame
    simp only [sampleCalls,append_nil,mem_cons,Call.accept.injEq,not_mem_nil,or_false] at hm
    rcases hm with hm | hm
    · obtain rfl : block = child1.block := congrArg BlockAdapter.block hm.2.2
      exact absurd hsame (by decide +kernel)
    · obtain rfl : block = child2.block := congrArg BlockAdapter.block hm.2.2
      exact absurd hsame (by decide +kernel)
  · decide +kernel
  · decide +kernel
  · decide +kernel
  · intro node hnode
    change (sampleCheckpoints.findPrevious (sampleVerified child3).btcd.best.nodes
      (sampleVerified child3).btcd.lookupNode (sampleVerified child3).btcd.cache).1 = _ at hnode
    rw [hnode] at hcheck
    exact hcheck
  · decide +kernel

end Sample

end DogePeg.Vm
