import DogePeg.Node.Accounts

/-!
# The best chain

The main chain of `BlockChain`: the nodes of `bestChain` and the UTXO set of its tip.
`CheckConnectBlockTemplate` checks a block against it without connecting it, and
`connectTip` is what connecting the block does to it.
-/

namespace DogePeg.Node

open Amounts Holdings Checks

/-- The main chain, its tip first, and the UTXO set at the tip. -/
structure BestChain where
  nodes : List BlockNode
  utxos : UtxoSet

section

variable (rules : Rules) (p : Params) (cps : Checkpoints)

/-- `checkBlockContext`, which may move the cached checkpoint on. -/
def checkBlockContext (bestChain : List BlockNode) (lookupNode : Hash → Option BlockNode)
    (cache : CheckpointCache) (block : MsgBlock) (prev : List BlockNode) :
    Except ChainError Unit × CheckpointCache :=
  match checkHeaderBeforeCheckpoint p cps (rules.blockHash block.header) block.header prev with
  | .error e => (.error e,cache)
  | .ok () =>
    let (found,cache) := cps.findPrevious bestChain lookupNode cache
    let result := do
      let checkpointNode ← found
      checkForkAge checkpointNode (nextHeight prev)
      checkBlockContents rules p block prev
    (result,cache)

variable [Hashing]

/-- `CheckConnectBlockTemplate`. `blockHeight` is the height the block was given. -/
def checkConnectBlockTemplate (now : ℤ) (c : BestChain) (lookupNode : Hash → Option BlockNode)
    (cache : CheckpointCache) (block : MsgBlock) (blockHeight : Int32) : Except ChainError Unit × CheckpointCache :=
  match c.nodes with
  | [] => (.error .assertion,cache)
  | tip::_ =>
    if tip.hash ≠ block.header.prevBlock then (.error (.rule .prevBlockNotBest),cache)
    else match checkBlockSanity rules now block with
      | .error e => (.error e,cache)
      | .ok () =>
        match checkBlockContext rules p cps c.nodes lookupNode cache block c.nodes with
        | (.error e,cache) => (.error e,cache)
        | (.ok (),cache) =>
          let newNode := newBlockNode (rules.blockHash block.header) block.header c.nodes
          let result := do
            let _ ← checkConnectBlock rules p cps c.utxos newNode c.nodes block
              (UtxoView.new tip.hash) blockHeight
            return ()
          (result,cache)

/-- `utxoCache.connectTransactions` and `bestChain.SetTip`, once `checkConnectBlock` has
passed. `setTip` slices its nodes to `height + 1`. -/
def BestChain.connectTip (c : BestChain) (node : BlockNode) (block : MsgBlock) : Except ChainError BestChain := do
  let utxos ← UtxoSet.connectTransactions node.height c.utxos block.transactions
  if node.height+1 < 0 then .error .sliceBounds
  else .ok ⟨node::c.nodes,utxos⟩

/-- The chains of blocks each of which `CheckConnectBlockTemplate` accepts on its
predecessor, the last block first. The clock, the block index and the cached
checkpoint are whatever they are when the block is checked. -/
inductive Accepted : BestChain → List MsgBlock → Prop
  | genesis (header : BlockHeader) (h : rules.blockHash header=p.genesisHash) :
      Accepted ⟨[newBlockNode p.genesisHash header []],∅⟩ []
  | connect {c c' blocks} (chain : Accepted c blocks)
      (now : ℤ) (lookupNode : Hash → Option BlockNode) (cache : CheckpointCache)
      (block : MsgBlock) (blockHeight : Int32)
      (accepts : (checkConnectBlockTemplate rules p cps now c lookupNode cache block
        blockHeight).1 = .ok ())
      (connects : c.connectTip (newBlockNode (rules.blockHash block.header) block.header c.nodes)
        block = .ok c') :
      Accepted c' (block::blocks)

end

/-! ## What an accepted template has passed -/

section

variable {rules : Rules} {p : Params} {cps : Checkpoints} [Hashing] {now : ℤ} {c : BestChain}
  {lookupNode : Hash → Option BlockNode} {cache : CheckpointCache} {block : MsgBlock}
  {blockHeight : Int32}

structure TemplateOk (rules : Rules) (p : Params) (cps : Checkpoints) (now : ℤ) (c : BestChain)
    (block : MsgBlock) (blockHeight : Int32) : Prop where
  tip : (c.nodes.head?.map (·.hash)) = some block.header.prevBlock
  sanity : checkBlockSanity rules now block = .ok ()
  header : checkHeaderBeforeCheckpoint p cps (rules.blockHash block.header) block.header c.nodes =
    .ok ()
  contents : checkBlockContents rules p block c.nodes = .ok ()
  connect : ∃ view, checkConnectBlock rules p cps c.utxos
    (newBlockNode (rules.blockHash block.header) block.header c.nodes) c.nodes block
    (UtxoView.new block.header.prevBlock) blockHeight = .ok view

omit [Hashing] in
theorem checkBlockContext_ok {best prev : List BlockNode}
    (h : (checkBlockContext rules p cps best lookupNode cache block prev).1 = .ok ()) :
    checkHeaderBeforeCheckpoint p cps (rules.blockHash block.header) block.header prev = .ok () ∧
      checkBlockContents rules p block prev = .ok () ∧
      ∃ found, (cps.findPrevious best lookupNode cache).1 = .ok found ∧
        checkForkAge found (nextHeight prev) = .ok () := by
  unfold checkBlockContext at h
  split at h
  case h_1 => cases h
  case h_2 hheader =>
    simp only [checks_ok] at h
    obtain ⟨found,hfound,hage,hcontents⟩ := h
    exact ⟨hheader,hcontents,found,hfound,hage⟩

theorem checkConnectBlockTemplate_ok
    (h : (checkConnectBlockTemplate rules p cps now c lookupNode cache block blockHeight).1 =
      .ok ()) : TemplateOk rules p cps now c block blockHeight := by
  unfold checkConnectBlockTemplate at h
  split at h
  case h_1 => cases h
  case h_2 tip behind hnodes =>
    split at h
    case isTrue => cases h
    case isFalse htip =>
      have htip' : tip.hash = block.header.prevBlock := not_not.mp htip
      split at h
      case h_1 => cases h
      case h_2 hsanity =>
        split at h
        case h_1 => cases h
        case h_2 cache' hcontext =>
          have hctx := checkBlockContext_ok (congrArg Prod.fst hcontext)
          simp only [bind_eq_ok] at h
          obtain ⟨view,hview,-⟩ := h
          exact ⟨by simp [hnodes,htip'], hsanity, hctx.1, hctx.2.1, view, htip' ▸ hview⟩

end

/-! ## Rules to evaluate the model with -/

/-- Rules that hash with `digest` and find nothing wrong with scripts. -/
def sampleRules [Hashing] : Rules where
  blockHash h := BitVec.ofNat 256 (digest [h.version.toBitVec.toNat,h.prevBlock.toNat,
    h.merkleRoot.toNat,h.timestamp.toNat,h.bits.toNat,h.nonce.toNat])
  calcMerkleRoot txs := BitVec.ofNat 256 (digest (txs.map (·.txHash.toNat)))
  txSize _ := 100
  blockSize _ := 1000
  blockWeight _ := 4000
  countSigOps _ := 1
  getSigOpCost _ _ _ _ _ := .ok 4
  deploymentActive _ _ := .ok false
  validateWitnessCommitment _ := .ok ()
  sequenceLockActive _ _ _ := .ok true
  checkBlockScripts _ _ _ := .ok ()

/-- A block of the sample rules on a parent, with the difficulty of the first blocks. -/
def sampleBlock [Hashing] (prevBlock : Hash) (timestamp : UInt32) (txs : List MsgTx) : MsgBlock where
  header :=
    { version := 4
      prevBlock := prevBlock
      merkleRoot := sampleRules.calcMerkleRoot txs
      timestamp := timestamp
      bits := 0x1d00ffff
      nonce := 0 }
  transactions := txs

def sampleGenesis : BlockHeader where
  version := 1
  prevBlock := 0
  merkleRoot := 0
  timestamp := 1790121600
  bits := 0x1d00ffff
  nonce := 0

def BestChain.connected [Hashing] (c : BestChain) (rules : Rules) (block : MsgBlock) : BestChain :=
  match c.connectTip (newBlockNode (rules.blockHash block.header) block.header c.nodes) block with
  | .ok c' => c'
  | .error _ => c

def succeeded {α : Type} (x : Except ChainError α) : Bool :=
  match x with
  | .ok _ => true
  | .error _ => false

theorem eq_ok_of_succeeded {x : Except ChainError Unit} (h : succeeded x=true) : x = .ok () := by
  cases x with
  | ok => rfl
  | error => cases h

theorem BestChain.connectTip_connected [Hashing] {c : BestChain} {rules : Rules} {block : MsgBlock}
    (h : succeeded (c.connectTip (newBlockNode (rules.blockHash block.header) block.header c.nodes) block)=true) :
    c.connectTip (newBlockNode (rules.blockHash block.header) block.header c.nodes) block =
      .ok (c.connected rules block) := by
  unfold connected
  cases hc : c.connectTip (newBlockNode (rules.blockHash block.header) block.header c.nodes) block with
  | ok => rfl
  | error => simp [hc,succeeded] at h

theorem Accepted.connected [Hashing] {rules : Rules} {p : Params} {cps : Checkpoints}
    {c : BestChain} {blocks : List MsgBlock} (h : Accepted rules p cps c blocks) (now : ℤ) (block : MsgBlock)
    (hcheck : succeeded (checkConnectBlockTemplate rules p cps now c (fun _ => none) ⟨none,none⟩ block 0).1 = true)
    (hconnect : succeeded (c.connectTip
      (newBlockNode (rules.blockHash block.header) block.header c.nodes) block) = true) :
    Accepted rules p cps (c.connected rules block) (block::blocks) :=
  .connect h now (fun _ => none) ⟨none,none⟩ block 0 (eq_ok_of_succeeded hcheck)
    (BestChain.connectTip_connected hconnect)

end DogePeg.Node
