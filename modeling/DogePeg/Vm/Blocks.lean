import DogePeg.Node.Process

/-!
# The VM's block lifecycle

`vm.VM` as far as blocks go: `ParseBlock`, `BuildBlock`, and `Verify`, `Accept` and
`Reject` of a `BlockAdapter`, over the state of btcd. The locks make each of them one
step. A restart reloads btcd from disk and takes its tip as the last accepted block.
-/

namespace DogePeg.Vm

open Node Holdings

structure BlockAdapter where
  block : MsgBlock
  height : Int32

def BlockAdapter.parentID (b : BlockAdapter) : Hash := b.block.header.prevBlock

structure VM where
  btcd : Btcd
  lastAccepted : Hash
  verifiedBlocks : Holding Hash BlockAdapter
  broken : Bool

inductive VmError where
  | broken
  | parentNotAccepted
  | wrongHeight
  | noCoinbase
  | blockProcessing
  | chain (e : ChainError)
  | notTip
  | persist
  deriving DecidableEq

section

variable (rules : Rules) (p : Params) (cps : Checkpoints) (reorganize : Reorganize) [Hashing]

def BlockAdapter.id (b : BlockAdapter) : Hash := rules.blockHash b.block.header

/-- `acceptedBlockAdapter`: a block of the main chain, with its height. -/
def acceptedBlock (vm : VM) (id : Hash) : Option BlockAdapter :=
  match vm.btcd.best.nodes.find? (·.hash = id), vm.btcd.disk.blocks id with
  | some node, some block => some ⟨block,node.height⟩
  | _, _ => none

def getBlock (vm : VM) (id : Hash) : Option BlockAdapter :=
  (vm.verifiedBlocks.lookup id).orElse fun _ => acceptedBlock vm id

/-- `ParseBlock` of bytes that are the canonical encoding of `block`. -/
def parseBlock (vm : VM) (block : MsgBlock) : Except VmError BlockAdapter :=
  match getBlock vm (rules.blockHash block.header) with
  | some known => .ok known
  | none =>
    match block.transactions with
    | [] => .error .noCoinbase
    | coinbase::_ =>
      match extractCoinbaseHeight coinbase with
      | .error e => .error (.chain e)
      | .ok height => .ok ⟨block,height⟩

def checkTemplate (now : ℤ) (vm : VM) (b : BlockAdapter) : Except ChainError Unit × VM :=
  let (result,cache) := checkConnectBlockTemplate rules p cps now vm.btcd.best
    vm.btcd.lookupNode vm.btcd.cache b.block b.height
  (result,{ vm with btcd := { vm.btcd with cache := cache } })

/-- `BuildBlock`, when the template generator has put together `template`, which it
checks before it returns it. -/
def buildBlock (now : ℤ) (vm : VM) (template : BlockAdapter) : Except VmError BlockAdapter × VM :=
  if vm.broken then (.error .broken,vm)
  else if vm.verifiedBlocks.entries ≠ [] then (.error .blockProcessing,vm)
  else match checkTemplate rules p cps now vm template with
    | (.error e,vm) => (.error (.chain e),vm)
    | (.ok (),vm) =>
      if template.parentID = vm.lastAccepted then (.ok template,vm)
      else (.error .parentNotAccepted,vm)

def verify (now : ℤ) (vm : VM) (b : BlockAdapter) : Except VmError Unit × VM :=
  if vm.broken then (.error .broken,vm)
  else if b.parentID ≠ vm.lastAccepted then (.error .parentNotAccepted,vm)
  else if (vm.btcd.best.nodes.head?.map (·.height.toInt+1)) ≠ some b.height.toInt then
    (.error .wrongHeight,vm)
  else match checkTemplate rules p cps now vm b with
    | (.error e,vm) => (.error (.chain e),vm)
    | (.ok (),vm) =>
      (.ok (),{ vm with verifiedBlocks := vm.verifiedBlocks.insert (b.id rules) b })

/-- Whether `errors.As` finds a `RuleError`. -/
def isRuleError : ChainError → Bool
  | .rule _ => true
  | _ => false

def accept (now : ℤ) (fault : Fault) (vm : VM) (b : BlockAdapter) : Except VmError Unit × VM :=
  if b.parentID ≠ vm.lastAccepted then (.error .parentNotAccepted,vm)
  else if vm.broken then (.error .broken,vm)
  else match processBlock rules p cps reorganize fault now vm.btcd b.block with
    | (.error e,btcd) => (.error (.chain e),{ vm with btcd := btcd,broken := !isRuleError e })
    | (.ok (isMainChain,isOrphan),btcd) =>
      if isOrphan || !isMainChain then (.error .notTip,{ vm with btcd := btcd,broken := true })
      else if fault = .persist then (.error .persist,{ vm with btcd := btcd,broken := true })
      else
        (.ok (),{ vm with
          btcd := btcd
          verifiedBlocks := vm.verifiedBlocks.erase (b.id rules)
          lastAccepted := b.id rules })

def reject (vm : VM) (b : BlockAdapter) : VM :=
  { vm with verifiedBlocks := vm.verifiedBlocks.erase (b.id rules) }

/-- `Initialize` on an existing database: `initChainState` and the best snapshot. -/
def restart (vm : VM) : VM where
  btcd :=
    { best := vm.btcd.disk.best
      index := vm.btcd.disk.index
      orphans := []
      cache := ⟨none,none⟩
      disk := vm.btcd.disk }
  lastAccepted := (vm.btcd.disk.best.nodes.head?.map (·.hash)).getD 0
  verifiedBlocks := ∅
  broken := false

/-- A VM on a new database: `createChainState`. -/
def genesisVM (genesis : MsgBlock) : VM :=
  let node := newBlockNode p.genesisHash genesis.header []
  let best : BestChain := ⟨[node],∅⟩
  let index : BlockIndex := fun h => if h = p.genesisHash then some ⟨[node],true,false⟩ else none
  { btcd :=
      { best := best
        index := index
        orphans := []
        cache := ⟨none,none⟩
        disk := ⟨best,index,fun h => if h = p.genesisHash then some genesis else none⟩ }
    lastAccepted := p.genesisHash
    verifiedBlocks := ∅
    broken := false }

inductive Call where
  | parse (block : MsgBlock)
  | build (now : ℤ) (template : BlockAdapter)
  | verify (now : ℤ) (b : BlockAdapter)
  | accept (now : ℤ) (fault : Fault) (b : BlockAdapter)
  | reject (b : BlockAdapter)
  | restart

/-- The result of a call, with the block it returns if any, and the state it leaves. -/
def exec (vm : VM) : Call → Except VmError (Option BlockAdapter) × VM
  | .parse block => ((parseBlock rules vm block).map some,vm)
  | .build now template => ((buildBlock rules p cps now vm template).map (·.map some) id)
  | .verify now b => (verify rules p cps now vm b).map (·.map fun _ => none) id
  | .accept now fault b => (accept rules p cps reorganize now fault vm b).map (·.map fun _ => none) id
  | .reject b => (.ok none,reject rules vm b)
  | .restart => (.ok none,restart vm)

def step (vm : VM) (call : Call) : VM := (exec rules p cps reorganize vm call).2

def run (vm : VM) (calls : List Call) : VM := calls.foldl (step rules p cps reorganize) vm

end

end DogePeg.Vm
