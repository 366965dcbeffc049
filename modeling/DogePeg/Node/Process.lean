import DogePeg.Node.BestChain

/-!
# Block processing

`ProcessBlock` and what it calls, over the block index, the orphan pool, the best chain and the database
behind them. Each database write may fail (`Fault`). The VM only processes blocks on the tip, so what
`reorganizeChain` does to the state is left open: it is the parameter `reorganize`.
-/

namespace DogePeg.Node

/-- The database write that fails while a block is processed, if one does. A failed
update of the best state may have reached the disk all the same, and the failure to
write a block's status is only logged. -/
inductive Fault where
  | none
  | storeBlock
  | flushIndex
  | flushStatus
  | updateBest (applied : Bool)
  | flushUtxos
  | persist
  deriving DecidableEq

/-- An entry of the block index: the node with the blocks behind it, and whether it is
known to be invalid. -/
structure IndexEntry where
  nodes : List BlockNode
  knownValid : Bool
  knownInvalid : Bool

abbrev BlockIndex := Hash → Option IndexEntry

/-- What a restart reads back. The UTXO set on disk may lag behind the best state;
`InitConsistentState` replays the blocks between. -/
structure Disk where
  best : BestChain
  index : BlockIndex
  blocks : Hash → Option MsgBlock

structure Btcd where
  best : BestChain
  index : BlockIndex
  orphans : List MsgBlock
  cache : CheckpointCache
  disk : Disk

namespace Btcd

def tipHash (b : Btcd) : Option Hash := b.best.nodes.head?.map (·.hash)

def lookupNode (b : Btcd) (hash : Hash) : Option BlockNode := (b.index hash).bind (·.nodes.head?)

def setEntry (b : Btcd) (hash : Hash) (e : IndexEntry) : Btcd :=
  { b with index := Function.update b.index hash (some e) }

def flushToDB (b : Btcd) : Btcd := { b with disk := { b.disk with index := b.index } }

/-- `dbStoreBlock`. -/
def storeBlock (b : Btcd) (hash : Hash) (block : MsgBlock) : Btcd :=
  { b with disk := { b.disk with blocks := Function.update b.disk.blocks hash (some block) } }

/-- `blockExists`: in the index, or stored as a block of the main chain. -/
def blockExists (b : Btcd) (hash : Hash) : Bool :=
  (b.index hash).isSome || b.disk.best.nodes.any (·.hash = hash)

end Btcd

/-- `flushIndexState`. -/
def Btcd.flushStatus (fault : Fault) (b : Btcd) : Btcd :=
  if fault = .flushStatus then b else b.flushToDB

/-- What `reorganizeChain` makes of a node with more work than the tip. -/
abbrev Reorganize := Btcd → BlockNode → MsgBlock → Except ChainError Bool × Btcd

section

variable (rules : Rules) (p : Params) (cps : Checkpoints) (reorganize : Reorganize) (fault : Fault)
variable [Hashing]

/-- `utxoCache.connectTransactions` and `connectBlock`. -/
def connectBlock (b : Btcd) (node : BlockNode) (block : MsgBlock) : Except ChainError Bool × Btcd :=
  match UtxoSet.connectTransactions node.height b.best.utxos block.transactions with
  | .error e => (.error e,b)
  | .ok utxos =>
    let best : BestChain := ⟨node::b.best.nodes,utxos⟩
    let written : Btcd := { b with disk := { b.disk with best := best } }
    match fault with
    | .updateBest applied =>
      -- the cache has already connected the transactions
      let b := if applied then written else b
      (.error .database,{ b with best := ⟨b.best.nodes,utxos⟩ })
    | _ =>
      if node.height+1 < 0 then (.error .sliceBounds,written)
      else if fault = .flushUtxos then (.error .database,{ written with best := best })
      else (.ok true,{ written with best := best })

def connectBestChain (b : Btcd) (node : BlockNode) (prev : List BlockNode) (block : MsgBlock) :
    Except ChainError Bool × Btcd :=
  if b.tipHash = some block.header.prevBlock then
    match checkConnectBlock rules p cps b.best.utxos node prev block
        (UtxoView.new block.header.prevBlock) (nextHeight prev) with
    | .error (.rule code) =>
      (.error (.rule code),(b.setEntry node.hash ⟨node::prev,false,true⟩).flushStatus fault)
    | .error e => (.error e,b)
    | .ok _ =>
      connectBlock fault ((b.setEntry node.hash ⟨node::prev,true,false⟩).flushStatus fault) node block
  else if node.workSum ≤ (b.best.nodes.head?.map (·.workSum)).getD 0 then (.ok false,b)
  else reorganize b node block

def maybeAcceptBlock (b : Btcd) (block : MsgBlock) : Except ChainError Bool × Btcd :=
  match b.index block.header.prevBlock with
  | none => (.error (.rule .previousBlockUnknown),b)
  | some prev =>
    if prev.knownInvalid then (.error (.rule .invalidAncestorBlock),b)
    else match checkBlockContext rules p cps b.best.nodes b.lookupNode b.cache block prev.nodes with
      | (.error e,cache) => (.error e,{ b with cache := cache })
      | (.ok (),cache) =>
        let b := { b with cache := cache }
        if fault = .storeBlock then (.error .database,b)
        else
          let newNode := newBlockNode (rules.blockHash block.header) block.header prev.nodes
          let b := (b.storeBlock newNode.hash block).setEntry newNode.hash
            ⟨newNode::prev.nodes,false,false⟩
          if fault = .flushIndex then (.error .database,b)
          else connectBestChain rules p cps reorganize fault b.flushToDB newNode prev.nodes block

/-- `processOrphans`, with the hashes still to process. Each orphan is taken out of the
pool when it is tried, so `fuel` need not exceed the hashes and orphans there are. -/
def processOrphans : ℕ → List Hash → Btcd → Except ChainError Unit × Btcd
  | 0, _, b => (.ok (),b)
  | _+1, [], b => (.ok (),b)
  | fuel+1, hash::hashes, b =>
    match b.orphans.find? fun o => o.header.prevBlock = hash with
    | none => processOrphans fuel hashes b
    | some orphan =>
      let b := { b with orphans := b.orphans.erase orphan }
      match maybeAcceptBlock rules p cps reorganize fault b orphan with
      | (.error e,b) => (.error e,b)
      | (.ok _,b) =>
        processOrphans fuel (hash::hashes++[rules.blockHash orphan.header]) b

/-- The checks of `ProcessBlock` against the previous checkpoint. -/
def checkAgainstCheckpoint (checkpointNode : Option BlockNode) (header : BlockHeader) : Except ChainError Unit :=
  match checkpointNode with
  | none => .ok ()
  | some node => do
    require (node.timestamp ≤ header.time) .checkpointTimeTooOld
    require (compactToBig header.bits ≤ compactToBig (p.calcEasiestDifficulty node.bits (header.time-node.timestamp)))
      .difficultyTooLow

/-- `ProcessBlock`: whether the block is on the main chain, and whether it is an orphan. -/
def processBlock (now : ℤ) (b : Btcd) (block : MsgBlock) : Except ChainError (Bool × Bool) × Btcd :=
  let blockHash := rules.blockHash block.header
  if b.blockExists blockHash then (.error (.rule .duplicateBlock),b)
  else if b.orphans.any fun o => rules.blockHash o.header = blockHash then
    (.error (.rule .duplicateBlock),b)
  else match checkBlockSanity rules now block with
    | .error e => (.error e,b)
    | .ok () =>
      let (found,cache) := cps.findPrevious b.best.nodes b.lookupNode b.cache
      let b := { b with cache := cache }
      match found >>= fun node => checkAgainstCheckpoint p node block.header with
      | .error e => (.error e,b)
      | .ok () =>
        if b.blockExists block.header.prevBlock then
          match maybeAcceptBlock rules p cps reorganize fault b block with
          | (.error e,b) => (.error e,b)
          | (.ok isMainChain,b) =>
            match processOrphans rules p cps reorganize fault (2*b.orphans.length+1)
                [blockHash] b with
            | (.error e,b) => (.error e,b)
            | (.ok (),b) => (.ok (isMainChain,false),b)
        else (.ok (false,true),{ b with orphans := b.orphans++[block] })

end

end DogePeg.Node
