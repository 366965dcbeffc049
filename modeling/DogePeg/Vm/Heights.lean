import DogePeg.Vm.Acceptance

/-!
# Block IDs by height

`GetBlockIDAtHeight` reads btcd's main chain by position. Behind it stands what the disk
keeps through every failure: each block of its best chain is stored, indexed with the
blocks behind it, and as high as there are of those.
-/

namespace DogePeg.Vm

open Node Holdings Checks List Option

variable {behind : List BlockNode} {node n : BlockNode} {block : MsgBlock} {b : Btcd}

/-- `chainView.nodeByHeight`, over the nodes with the tip first. -/
def nodeByHeight (nodes : List BlockNode) (height : Int32) : Option BlockNode :=
  if height < 0 ∨ Int32.ofNat nodes.length ≤ height then none else nodes.reverse[height.toInt.toNat]?

/-- The engine's height is converted to btcd's `int32`. -/
def getBlockIDAtHeight (vm : VM) (height : UInt64) : Option Hash :=
  (nodeByHeight vm.btcd.best.nodes (Int32.ofNat height.toNat)).map (·.hash)

/-- What processing a block that becomes `node` does to the disk. -/
structure Follows (d d' : Disk) (node : BlockNode) : Prop where
  blocks : ∀ h, d.blocks h ≠ none → d'.blocks h ≠ none
  index : ∀ h nodes, nodesAt d.index h = some nodes → nodesAt d'.index h = some nodes
  best : d'.best = d.best ∨ d'.best.nodes = node::d.best.nodes ∧
    nodesAt d'.index node.hash = some (node::d.best.nodes) ∧ d'.blocks node.hash ≠ none

theorem Follows.refl (d : Disk) (node : BlockNode) : Follows d d node := ⟨fun _ => id, fun _ _ => id, .inl rfl⟩

theorem Follows.of_best {d d' d'' : Disk} (h : Follows d d' node) (hbest : d'.best=d.best)
    (h' : Follows d' d'' node) : Follows d d'' node :=
  ⟨fun x hx => h'.blocks x (h.blocks x hx), fun x nodes hx => h'.index x nodes (h.index x nodes hx), hbest ▸ h'.best⟩

theorem update_ne_none {blocks : Hash → Option MsgBlock} {hash h : Hash} (hne : blocks h≠none) :
    Function.update blocks hash (some block) h ≠ none := by
  by_cases heq : h = hash
  · rw [heq,Function.update_self]
    exact some_ne_none block
  · rwa [Function.update_of_ne heq]

section

variable (rules : Rules) (p : Params) (cps : Checkpoints) (reorganize : Reorganize) [Hashing]

theorem connectBlock_follows (fault : Fault) (h : Ahead b node)
    (hblocks : b.disk.blocks node.hash≠none) : Follows b.disk (connectBlock fault b node block).2.disk node := by
  have hwritten (utxos : UtxoSet) : Follows b.disk { b.disk with best := ⟨node::b.best.nodes,utxos⟩ } node := by
    refine ⟨fun _ => id, fun _ _ => id, .inr ⟨by rw [h.best], ?_, hblocks⟩⟩
    rw [h.flushed,h.index,h.best]
  unfold connectBlock
  split
  · exact .refl _ _
  · split
    · next applied =>
      cases applied
      · exact .refl _ _
      · exact hwritten _
    · split
      · exact hwritten _
      · split
        · exact hwritten _
        · exact hwritten _

theorem connectBestChain_follows (fault : Fault) (h : Ahead b node)
    (htip : b.tipHash=some block.header.prevBlock) (hblocks : b.disk.blocks node.hash≠none) :
    Follows b.disk (connectBestChain rules p cps reorganize fault b node b.best.nodes block).2.disk node := by
  have hblocks' (e : IndexEntry) : ((b.setEntry node.hash e).flushStatus fault).disk.blocks = b.disk.blocks := by
    unfold Btcd.flushStatus
    split <;> rfl
  have hstatus (e : IndexEntry) (he : e.nodes=node::b.best.nodes) :
      Follows b.disk ((b.setEntry node.hash e).flushStatus fault).disk node := by
    refine ⟨fun x hx => by rwa [hblocks'], fun x nodes hx => ?_, .inl (flushStatus_disk_best _ _)⟩
    rw [(nodesAt_setStatus b node.hash e fault (by rw [h.index,he]) h.flushed x).2,← h.flushed,hx]
  unfold connectBestChain
  rw [if_pos htip]
  split
  · exact hstatus _ rfl
  · exact .refl _ _
  · refine (hstatus _ rfl).of_best (flushStatus_disk_best _ _) (connectBlock_follows fault (h.setStatus fault rfl) ?_)
    rwa [hblocks']

theorem maybeAcceptBlock_follows (fault : Fault) (h : Synced b block.header.prevBlock)
    (hnew : b.index (rules.blockHash block.header)=none) : Follows b.disk
      (maybeAcceptBlock rules p cps reorganize fault b block).2.disk (nodeOn rules b.best block) := by
  have hindex := h.index
  have hnone : nodesAt b.disk.index (rules.blockHash block.header) = none := by rw [h.flushed,nodesAt,hnew]; rfl
  unfold maybeAcceptBlock
  cases hprev : b.index block.header.prevBlock with
  | none => exact .refl _ _
  | some prev =>
    have hnodes : prev.nodes = b.best.nodes := by simpa [nodesAt,hprev] using hindex
    dsimp only
    split
    · exact .refl _ _
    · split
      · exact .refl _ _
      · next cache hctx =>
        rw [hnodes]
        split
        · exact .refl _ _
        · split
          · exact ⟨fun x hx => update_ne_none hx, fun _ _ => id, .inl rfl⟩
          · have hne : block.header.prevBlock ≠ rules.blockHash block.header := by
              intro heq
              rw [← heq,hprev] at hnew
              cases hnew
            have hahead := (h.of_cache cache).ahead (e := ⟨nodeOn rules b.best block::b.best.nodes,false,false⟩)
              block rfl hne
            refine Follows.of_best ?_ ?_ (connectBestChain_follows rules p cps reorganize fault hahead.1 h.tip_eq ?_)
            · refine ⟨fun x hx => update_ne_none hx, fun x nodes hx => ?_, .inl rfl⟩
              refine (nodesAt_update b.index _ _ x).trans ?_
              rw [if_neg,← h.flushed,hx]
              rintro rfl
              cases hnone.symm.trans hx
            · rfl
            · exact (Function.update_self ..).trans_ne (some_ne_none block)

theorem processBlock_follows (now : ℤ) (fault : Fault) (h : Synced b block.header.prevBlock) : Follows b.disk
      (processBlock rules p cps reorganize fault now b block).2.disk (nodeOn rules b.best block) := by
  unfold processBlock
  dsimp only
  split
  · exact .refl _ _
  · next hexists =>
    have hnew : b.index (rules.blockHash block.header) = none := by
      simp only [Btcd.blockExists,Bool.or_eq_true,not_or,Bool.not_eq_true,isSome_eq_false_iff,
        isNone_iff_eq_none] at hexists
      exact hexists.1
    split
    · exact .refl _ _
    · split
      · exact .refl _ _
      · split
        · exact .refl _ _
        · split
          · have hc := h.of_cache (cps.findPrevious b.best.nodes b.lookupNode b.cache).2
            have hfollows := maybeAcceptBlock_follows rules p cps reorganize fault hc hnew
            have hne : block.header.prevBlock ≠ rules.blockHash block.header := by
              intro heq
              have hindex := h.index
              rw [heq,nodesAt,hnew] at hindex
              cases hindex
            have hout := maybeAcceptBlock_outcome rules p cps reorganize fault hc rfl hne
            split
            · next hm =>
              rw [hm] at hfollows
              exact hfollows
            · next hm =>
              rw [hm] at hfollows hout
              cases hout with
              | connected hs _ =>
                rw [processOrphans_nil rules p cps reorganize fault hs.orphans]
                exact hfollows
          · exact .refl _ _

theorem accept_follows {vm : VM} (hok : VmOk vm) (now : ℤ) (fault : Fault) (b : BlockAdapter) :
    (accept rules p cps reorganize now fault vm b).2.btcd.disk = vm.btcd.disk ∨
      vm.broken = false ∧ b.parentID = vm.lastAccepted ∧ Follows vm.btcd.disk
        (accept rules p cps reorganize now fault vm b).2.btcd.disk (nodeOn rules vm.btcd.best b.block) := by
  unfold accept
  split
  · exact .inl rfl
  · next hparent =>
    rw [not_not] at hparent
    split
    · exact .inl rfl
    · next hbroken =>
      have hb : vm.broken = false := by simpa using hbroken
      have hsynced : Synced vm.btcd b.parentID := hparent ▸ hok.synced hb
      have hfollows := processBlock_follows rules p cps reorganize now fault hsynced
      refine .inr ⟨hb,hparent,?_⟩
      split
      · next hp =>
        rw [hp] at hfollows
        exact hfollows
      · next hp =>
        rw [hp] at hfollows
        split
        · exact hfollows
        · split
          · exact hfollows
          · exact hfollows

/-! ## The chain on disk -/

/-- A node of the chain on disk with those behind it. -/
structure OnDisk (seen : Set BlockHeader) (d : Disk) (n : BlockNode) (behind : List BlockNode) : Prop where
  height : n.height = Int32.ofNat behind.length
  index : nodesAt d.index n.hash = some (n::behind)
  block : d.blocks n.hash ≠ none
  genesis : behind = [] → n.hash = p.genesisHash
  header : ∀ prev∈behind.head?, ∃ header∈seen, rules.blockHash header = n.hash ∧ header.prevBlock = prev.hash

/-- What every run has, with database failures anywhere in it. -/
structure Indexed (seen : Set BlockHeader) (vm : VM) : Prop where
  ok : VmOk vm
  disk : ∀ n behind, n::behind <:+ vm.btcd.disk.best.nodes → OnDisk rules p seen vm.btcd.disk n behind
  verified : vm.broken = false → ∀ id b, vm.verifiedBlocks.lookup id = some b → id ∉ vm.btcd.best.nodes.map (·.hash)

variable {rules p cps} {seen : Set BlockHeader} {vm : VM}

omit [Hashing] in
theorem Indexed.memory (h : Indexed rules p seen vm) (hb : vm.broken=false)
    (hn : n::behind <:+ vm.btcd.best.nodes) : OnDisk rules p seen vm.btcd.disk n behind :=
  h.disk n behind ((h.ok.synced hb).best ▸ hn)

omit [Hashing] in
theorem OnDisk.follows {d d' : Disk} (h : OnDisk rules p seen d n behind)
    (hf : Follows d d' node) : OnDisk rules p seen d' n behind :=
  ⟨h.height,hf.index _ _ h.index,hf.blocks _ h.block,h.genesis,h.header⟩

theorem Indexed.not_mem (h : Indexed rules p seen vm) (hinj : Set.InjOn rules.blockHash seen) {b : BlockAdapter}
    (hseen : b.block.header∈seen) {now : ℤ} (hverify : (verify rules p cps now vm b).1 = .ok ()) :
    b.id rules ∉ vm.btcd.best.nodes.map (·.hash) := by
  obtain ⟨hb,hparent,hok⟩ := verify_ok hverify
  intro hmem
  obtain ⟨n,hn,hid⟩ := mem_map.mp hmem
  obtain ⟨pre,behind,hsplit⟩ := append_of_mem hn
  have hnode := h.memory hb ⟨pre,hsplit.symm⟩
  cases hbehind : behind with
  | nil =>
    obtain ⟨view,hview⟩ := hok.connect
    simp only [checkConnectBlock,checks_ok,require_eq_ok,decide_eq_true_eq] at hview
    exact hview.1 (hid.symm.trans (hnode.genesis hbehind))
  | cons prev rest =>
    obtain ⟨header,hheader,hhash,hprev⟩ := hnode.header prev (by rw [hbehind]; rfl)
    have heq := hinj hheader hseen (hhash.trans hid)
    have hsuffix : prev::rest <:+ vm.btcd.best.nodes := ⟨pre++[n],by rw [hsplit,hbehind]; simp⟩
    -- the parent is indexed with the whole chain and with what is behind the block
    have hindex := (h.memory hb hsuffix).index
    have htip := (h.ok.synced hb).index
    rw [← hprev,heq,← (h.ok.synced hb).flushed] at *
    rw [show b.block.header.prevBlock = vm.lastAccepted from hparent,htip,Option.some.injEq] at hindex
    have hlen := congrArg List.length hsplit
    rw [hindex,hbehind] at hlen
    simp at hlen
    omega

omit [Hashing] in
theorem Indexed.reads {vm' : VM} (h : Indexed rules p seen vm) (hr : Reads cps vm vm')
    (hverified : vm.broken = false → ∀ id b, vm'.verifiedBlocks.lookup id = some b →
      vm.verifiedBlocks.lookup id = some b ∨ id ∉ vm.btcd.best.nodes.map (·.hash)) : Indexed rules p seen vm' := by
  have hu := hr.unchanged
  refine ⟨hr.vmOk h.ok,hu.disk ▸ h.disk,fun hb id b hid => ?_⟩
  rw [hr.broken] at hb
  rw [hu.best]
  exact (hverified hb id b hid).elim (h.verified hb id b) fun hnot => hnot

theorem verify_verifiedBlocks (now : ℤ) (vm : VM) (b : BlockAdapter) :
    (verify rules p cps now vm b).2.verifiedBlocks = vm.verifiedBlocks ∨ (verify rules p cps now vm b).1 = .ok () ∧
        (verify rules p cps now vm b).2.verifiedBlocks = vm.verifiedBlocks.insert (b.id rules) b := by
  have hsame : (checkTemplate rules p cps now vm b).2.verifiedBlocks = vm.verifiedBlocks := rfl
  unfold verify
  split
  · exact .inl rfl
  · split
    · exact .inl rfl
    · split
      · exact .inl rfl
      · split
        · next hc => exact .inl (by rw [hc] at hsame; exact hsame)
        · next hc => exact .inr ⟨rfl,by rw [hc] at hsame; rw [hsame]⟩

theorem Indexed.accept (h : Indexed rules p seen vm) (now : ℤ) (fault : Fault) {b : BlockAdapter}
    (hseen : b.block.header∈seen) : Indexed rules p seen (accept rules p cps reorganize now fault vm b).2 := by
  cases hbroken : vm.broken with
  | true =>
    have hsame : (Vm.accept rules p cps reorganize now fault vm b).2 = vm := by
      unfold Vm.accept
      rw [if_pos hbroken]
      split <;> rfl
    rwa [hsame]
  | false =>
  have hfollows := accept_follows rules p cps reorganize h.ok now fault b
  refine ⟨h.ok.step rules p cps reorganize (.accept now fault b),fun n behind hn => ?_, ?_⟩
  · rcases hfollows with heq | ⟨hb,hparent,hf⟩
    · rw [heq] at hn ⊢
      exact h.disk n behind hn
    · have hs := h.ok.synced hb
      rcases hf.best with hbest | ⟨hnodes,hindex,hblock⟩
      · exact (h.disk n behind (hbest ▸ hn)).follows hf
      · rw [hnodes] at hn
        rcases suffix_cons_iff.mp hn with heq | hn
        · cases heq
          obtain ⟨tip,htip,hhash⟩ := map_eq_some_iff.mp hs.tip_eq
          obtain ⟨rest,hrest⟩ := List.head?_eq_some_iff.mp htip
          refine ⟨?_,hindex,hblock,fun hnil => ?_, fun prev hprev => ⟨_,hseen,rfl,?_⟩⟩
          · have hsuffix : tip::rest <:+ vm.btcd.best.nodes := hrest ▸ suffix_rfl
            have := (h.memory hb hsuffix).height
            rw [hs.best]
            change nextHeight vm.btcd.best.nodes = _
            rw [hrest]
            exact nextHeight_ofNat this
          · rw [hs.best,hrest] at hnil
            cases hnil
          · rw [hs.best,htip,mem_some_iff] at hprev
            rw [← hprev,hhash]
            exact hparent
        · exact (h.disk n behind hn).follows hf
  · have hout := accept_outcome rules p cps reorganize h.ok now fault b
    generalize Vm.accept rules p cps reorganize now fault vm b = r at hout
    cases hout with
    | unchanged => exact h.verified
    | refused hs hsame => exact fun _ => hsame ▸ h.verified hbroken
    | broke hd => exact fun hb => by cases hb
    | accepted hb hs hp hn =>
      intro _ id a hid
      rw [hn]
      have hne : id ≠ b.id rules := by
        rintro rfl
        rw [AList.lookup_erase] at hid
        cases hid
      rw [AList.lookup_erase_ne hne] at hid
      rw [map_cons,mem_cons,not_or]
      exact ⟨hne,h.verified hb id a hid⟩

def headersIn (calls : List Call) : Set BlockHeader :=
  {header | ∃ b : BlockAdapter, b.block.header = header ∧
    ((∃ now, Call.verify now b ∈ calls) ∨ ∃ now fault, Call.accept now fault b ∈ calls)}

theorem Indexed.step (h : Indexed rules p seen vm) (hinj : Set.InjOn rules.blockHash seen) (call : Call)
    (hseen : headersIn [call] ⊆ seen) : Indexed rules p seen (Vm.step rules p cps reorganize vm call) := by
  cases call with
  | parse block => exact h
  | build now b =>
    refine h.reads (buildBlock_reads rules p cps now vm b) fun _ id a hid => .inl ?_
    have hsame : (buildBlock rules p cps now vm b).2.verifiedBlocks = vm.verifiedBlocks := by
      unfold buildBlock
      split
      · rfl
      · split
        · rfl
        · have hc : (checkTemplate rules p cps now vm b).2.verifiedBlocks = vm.verifiedBlocks := rfl
          split
          · next hcheck => rwa [hcheck] at hc
          · next hcheck =>
            rw [hcheck] at hc
            split
            · exact hc
            · exact hc
    exact hsame ▸ hid
  | verify now b =>
    refine h.reads (verify_reads rules p cps now vm b) fun _ id a hid => ?_
    change (verify rules p cps now vm b).2.verifiedBlocks.lookup id = some a at hid
    rcases verify_verifiedBlocks now vm b with hsame | ⟨hverify,hinsert⟩
    · exact .inl (hsame ▸ hid)
    · by_cases heq : id = b.id rules
      · exact .inr (heq ▸ h.not_mem hinj (hseen ⟨b,rfl,.inl ⟨now,mem_cons_self⟩⟩) hverify)
      · rw [hinsert,AList.lookup_insert_ne heq] at hid
        exact .inl hid
  | reject b =>
    refine h.reads (reject_reads rules cps vm b) fun _ id a hid => .inl ?_
    change (vm.verifiedBlocks.erase (b.id rules)).lookup id = some a at hid
    by_cases heq : id = b.id rules
    · rw [heq,AList.lookup_erase] at hid
      cases hid
    · rwa [AList.lookup_erase_ne heq] at hid
  | restart => exact ⟨h.ok.step rules p cps reorganize .restart,h.disk,fun _ id b hid => by cases hid⟩
  | accept now fault b => exact h.accept reorganize now fault (hseen ⟨b,rfl,.inr ⟨now,fault,mem_cons_self⟩⟩)

theorem Indexed.run (h : Indexed rules p seen vm) (hinj : Set.InjOn rules.blockHash seen) (calls : List Call)
    (hseen : headersIn calls ⊆ seen) : Indexed rules p seen (Vm.run rules p cps reorganize vm calls) := by
  induction calls generalizing vm with
  | nil => exact h
  | cons call calls ih =>
    refine ih (h.step reorganize hinj call fun header hh => hseen ?_) fun header hh => hseen ?_
    · obtain ⟨b,hb,hcall⟩ := hh
      exact ⟨b,hb,by simpa using hcall.imp (.imp fun _ => by simp_all) (.imp fun _ => .imp fun _ => by simp_all)⟩
    · obtain ⟨b,hb,hcall⟩ := hh
      exact ⟨b,hb,hcall.imp (.imp fun _ => mem_cons_of_mem _) (.imp fun _ => .imp fun _ => mem_cons_of_mem _)⟩

omit [Hashing] in
theorem genesisVM_indexed (genesis : MsgBlock) : Indexed rules p seen (genesisVM p genesis) := by
  refine ⟨genesisVM_ok p genesis,fun n behind hn => ?_, fun _ id b hid => by cases hid⟩
  rcases suffix_cons_iff.mp hn with heq | hn
  · cases heq
    refine ⟨rfl,?_,?_,fun _ => rfl, by simp⟩
    · simp [nodesAt,genesisVM,newBlockNode]
    · simp [genesisVM,newBlockNode]
  · simp at hn

/-! ## Lookups -/

omit [Hashing] in
theorem nodeByHeight_eq_some {nodes : List BlockNode} (hlen : nodes.length<2^31) {k : ℕ} (hk : k<2^32) :
    nodeByHeight nodes (Int32.ofNat k) = some n ↔ ∃ behind, n::behind <:+ nodes ∧ behind.length = k := by
  have hnone (hge : nodes.length≤k) : ¬∃ behind, n::behind <:+ nodes ∧ behind.length = k := by
    rintro ⟨behind,hn,rfl⟩
    have := hn.length_le
    rw [length_cons] at this
    omega
  unfold nodeByHeight
  rcases lt_or_ge k (2^31) with hsmall | hbig
  · simp only [Int32.lt_iff_toInt_lt,Int32.le_iff_toInt_le,Int32.toInt_ofNat_of_lt hsmall,
      Int32.toInt_ofNat_of_lt hlen,Int32.toInt_zero,Int.toNat_natCast]
    by_cases hlt : k < nodes.length
    · rw [if_neg (by omega),List.getElem?_reverse hlt]
      constructor
      · intro h
        obtain ⟨hi,rfl⟩ := List.getElem?_eq_some_iff.mp h
        refine ⟨_,drop_eq_getElem_cons hi ▸ drop_suffix _ _,?_⟩
        rw [length_drop]
        omega
      · rintro ⟨behind,⟨pre,rfl⟩,rfl⟩
        have hpos : (pre++n::behind).length-1-behind.length = pre.length := by
          rw [length_append,length_cons]
          omega
        rw [hpos,List.getElem?_append_right le_rfl,Nat.sub_self,List.getElem?_cons_zero]
    · rw [if_pos (by omega)]
      exact iff_of_false (by simp) (hnone (by omega))
  · have hneg : Int32.ofNat k < 0 := by
      rw [Int32.lt_iff_toInt_lt,Int32.toInt_zero,Int32.toInt_ofNat',Int.bmod_def]
      norm_num [Int32.size]
      omega
    rw [if_pos (.inl hneg)]
    exact iff_of_false (by simp) (hnone (by omega))

omit [Hashing] in
theorem Indexed.acceptedBlock_eq (h : Indexed rules p seen vm) (hb : vm.broken=false)
    (hn : n::behind <:+ vm.btcd.best.nodes) : ∃ block, acceptedBlock vm n.hash = some ⟨block,n.height⟩ ∧
    getBlock vm n.hash = some ⟨block,n.height⟩ := by
  have hnode := h.memory hb hn
  obtain ⟨block,hblock⟩ := ne_none_iff_exists'.mp hnode.block
  have hmem : n∈vm.btcd.best.nodes := hn.subset mem_cons_self
  have hfind : vm.btcd.best.nodes.find? (·.hash = n.hash) = some n := by
    cases hf : vm.btcd.best.nodes.find? (·.hash = n.hash) with
    | none => simpa using List.find?_eq_none.mp hf n hmem
    | some m =>
      -- the index has one list of nodes for the hash
      obtain ⟨pre,rest,hsplit⟩ := append_of_mem (mem_of_find?_eq_some hf)
      have hsuffix : m::rest <:+ vm.btcd.best.nodes := ⟨pre,hsplit.symm⟩
      have hm := (h.memory hb hsuffix).index
      rw [show m.hash = n.hash by simpa using List.find?_some hf, hnode.index] at hm
      rw [(List.cons.inj (Option.some.inj hm)).1]
  have haccepted : acceptedBlock vm n.hash = some ⟨block,n.height⟩ := by
    simp [acceptedBlock,hfind,hblock]
  refine ⟨block,haccepted,?_⟩
  unfold getBlock
  cases hl : vm.verifiedBlocks.lookup n.hash with
  | none => simpa [hl] using haccepted
  | some b => exact absurd (mem_map_of_mem hmem) (h.verified hb _ b hl)

omit [Hashing] in
/-- The heights that have an ID are those that are up to the last accepted block's once they are
folded into 32 bits, and the ID is that of the accepted block of the folded height. -/
theorem Indexed.blockID_folded (h : Indexed rules p seen vm) (hb : vm.broken=false)
    (hlen : vm.btcd.best.nodes.length<2^31) :
    ∃ last, acceptedBlock vm vm.lastAccepted = some last ∧ last.height.toInt < 2^31 ∧ ∀ height : UInt64,
      ((getBlockIDAtHeight vm height).isSome ↔ ((height.toNat % 2^32 : ℕ) : ℤ) ≤ last.height.toInt) ∧
      ∀ id, getBlockIDAtHeight vm height = some id → ∃ b, getBlock vm id = some b ∧
        acceptedBlock vm id = some b ∧ b.height.toInt = (height.toNat % 2^32 : ℕ) := by
  obtain ⟨tip,htip,hhash⟩ := map_eq_some_iff.mp (h.ok.synced hb).tip_eq
  obtain ⟨rest,hrest⟩ := List.head?_eq_some_iff.mp htip
  have hsuffix : tip::rest <:+ vm.btcd.best.nodes := hrest ▸ suffix_rfl
  obtain ⟨block,hlast,-⟩ := h.acceptedBlock_eq hb hsuffix
  have hheight {n : BlockNode} {behind : List BlockNode} (hn : n::behind <:+ vm.btcd.best.nodes) :
      n.height.toInt = behind.length := by
    have := hn.length_le
    rw [length_cons] at this
    rw [(h.memory hb hn).height,Int32.toInt_ofNat_of_lt (by omega)]
  refine ⟨_,hhash ▸ hlast,Int32.toInt_lt _,fun height => ?_⟩
  have hfold : Int32.ofNat height.toNat = Int32.ofNat (height.toNat % 2^32) :=
    Int32.toBitVec_inj.mp (BitVec.eq_of_toNat_eq (Nat.mod_mod _ _).symm)
  have hsmall : height.toNat % 2^32 < 2^32 := Nat.mod_lt _ (by decide)
  rw [getBlockIDAtHeight,hfold]
  generalize height.toNat % 2^32 = k at hsmall
  refine ⟨?_,fun id hid => ?_⟩
  · rw [hheight hsuffix,isSome_map,isSome_iff_exists]
    simp only [nodeByHeight_eq_some hlen hsmall]
    constructor
    · rintro ⟨n,behind,hn,hk⟩
      have := hn.length_le
      rw [hrest] at this
      simp only [length_cons] at this
      omega
    · intro hle
      have hlt : rest.length-k < vm.btcd.best.nodes.length := by
        rw [hrest,length_cons]
        omega
      refine ⟨_,_,drop_eq_getElem_cons hlt ▸ drop_suffix _ _,?_⟩
      rw [length_drop,hrest,length_cons]
      omega
  · obtain ⟨n,hn,rfl⟩ := map_eq_some_iff.mp hid
    obtain ⟨behind,hsuf,hk⟩ := (nodeByHeight_eq_some hlen hsmall).mp hn
    obtain ⟨block,haccepted,hget⟩ := h.acceptedBlock_eq hb hsuf
    exact ⟨_,hget,haccepted,by rw [hheight hsuf,hk]⟩

variable (rules p cps)

/-- Over every run, with failures and restarts anywhere in it, of headers that do not collide: while
the VM is not broken, the lookup at a height is right (it finds an ID exactly up to the last accepted
block's height, and the ID is that of the accepted block of the height) exactly for the heights below
`2 ^ 32` and those that folded into 32 bits are above the last accepted block's. -/
theorem block_id_at_height_iff (genesis : MsgBlock) (calls : List Call)
    (hinj : Set.InjOn rules.blockHash (headersIn calls)) {vm : VM}
    (hvm : vm=Vm.run rules p cps reorganize (genesisVM p genesis) calls) (hb : vm.broken=false)
    (hlen : vm.btcd.best.nodes.length<2^31) : ∃ last, acceptedBlock vm vm.lastAccepted = some last ∧
      ∀ height : UInt64, (((getBlockIDAtHeight vm height).isSome ↔ (height.toNat : ℤ) ≤ last.height.toInt) ∧
          ∀ id, getBlockIDAtHeight vm height = some id → ∃ b, getBlock vm id = some b ∧
            acceptedBlock vm id = some b ∧ b.height.toInt = height.toNat) ↔
        height.toNat < 2^32 ∨ last.height.toInt < (height.toNat % 2^32 : ℕ) := by
  have h : Indexed rules p (headersIn calls) vm :=
    hvm ▸ (genesisVM_indexed genesis).run reorganize hinj calls subset_rfl
  obtain ⟨last,hlast,hbound,hfolded⟩ := h.blockID_folded hb hlen
  refine ⟨last,hlast,fun height => ?_⟩
  obtain ⟨hsome,hid⟩ := hfolded height
  rcases lt_or_ge height.toNat (2^32) with hsmall | hbig
  · rw [Nat.mod_eq_of_lt hsmall] at hsome hid
    exact iff_of_true ⟨hsome,hid⟩ (.inl hsmall)
  · have hnone : ¬(height.toNat : ℤ) ≤ last.height.toInt := by omega
    constructor
    · rintro ⟨hiff,-⟩
      exact .inr (lt_of_not_ge fun hle => hnone (hiff.mp (hsome.mpr hle)))
    · intro hcond
      have habove := hcond.resolve_left (by omega)
      have hno : ¬(getBlockIDAtHeight vm height).isSome := fun hs => (hsome.mp hs).not_gt habove
      exact ⟨iff_of_false hno hnone,fun id hid => absurd (hid ▸ rfl) hno⟩

end

section Sample

attribute [local instance] sampleHashing

def heightCalls (fault : Fault) : List Call := [.accept 1790126600 fault child1]

def heightVM (fault : Fault) : VM :=
  run sampleRules sampleParams sampleCheckpoints noReorganize (genesisVM sampleParams ⟨sampleGenesis,[]⟩)
    (heightCalls fault)

/-- A height beyond `2 ^ 32` is folded onto a block; and after an `Accept` that could not
persist, the VM has the ID of a block above the last accepted one. -/
theorem height_folded_onto_block : (heightVM .none).lastAccepted = child1.id sampleRules ∧
      getBlockIDAtHeight (heightVM .none) 4294967297 = some (child1.id sampleRules) ∧
      (heightVM .persist).lastAccepted = sampleRules.blockHash sampleGenesis ∧
      getBlockIDAtHeight (heightVM .persist) 1 = some (child1.id sampleRules) := by
  decide +kernel

theorem child1_at_height_one : ∃ b, getBlock (heightVM .none) (child1.id sampleRules) = some b ∧
    acceptedBlock (heightVM .none) (child1.id sampleRules) = some b ∧ b.height.toInt = 1 := by
  obtain ⟨last,-,h⟩ := block_id_at_height_iff sampleRules sampleParams sampleCheckpoints noReorganize
    ⟨sampleGenesis,[]⟩ (heightCalls .none) (by
      rintro _ ⟨b,rfl,hb⟩ _ ⟨b',rfl,hb'⟩ -
      simp [heightCalls] at hb hb'
      rw [hb,hb']) (rfl : heightVM .none=_) (by decide +kernel) (by decide +kernel)
  exact ((h 1).mpr (.inl (by decide))).2 _ (by decide +kernel)

end Sample

end DogePeg.Vm
