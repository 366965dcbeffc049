import DogePeg.Node.Commitment
import DogePeg.Vm.Acceptance

/-!
# Blocks as bytes

`ParseBlock` decodes a block, refuses bytes that are not the block's encoding, and looks the block's
identifier up before it makes a block of its own. The identifier is the header's hash, and nothing
compares the header with the transactions until the block is verified.
-/

namespace DogePeg.Vm

open Node Checks Holdings ByteHashing List

variable {b : MsgBlock}

inductive ParseError where
  | wire (e : WireError)
  | nonCanonicalBlock
  | vm (e : VmError)
  deriving DecidableEq

/-- The decoding of `parseBlockAdapter`, with its check of the encoding. -/
def decodeCanonical (bytes : List UInt8) : Except ParseError MsgBlock := do
  let block ← (decodeBlock bytes).mapError .wire
  ensure (block.bytes = bytes) .nonCanonicalBlock
  return block

def BlockAdapter.bytes (b : BlockAdapter) : List UInt8 := b.block.bytes

theorem decodeCanonical_ok {bytes : List UInt8} (h : decodeCanonical bytes = .ok b) :
    b.bytes = bytes ∧ ∀ tx∈b.transactions, Readable tx := by
  simp only [decodeCanonical,checks_ok,decide_eq_true_eq] at h
  obtain ⟨b,hdecode,hbytes,rfl⟩ := h
  exact ⟨hbytes,readable_of_decodeBlock hdecode⟩

section

variable [ByteHashing] {rules : Rules} {p : Params} {cps : Checkpoints}

theorem committed_of_template {now : ℤ} {best : BestChain} {blockHeight : Int32}
    (h : TemplateOk rules.onBytes p cps now best b blockHeight) :
    ∃ segwit, rules.deploymentActive best.nodes .segwit = .ok segwit ∧ Committed segwit b := by
  have hsanity := h.sanity
  have hcontents := h.contents
  simp only [checkBlockSanity,checkBlockContents,checks_ok,require_eq_ok,decide_eq_true_eq] at hsanity hcontents
  obtain ⟨-,hne,-,-,hcoinbase,-,-,hroot,hnodup,-⟩ := hsanity
  obtain ⟨csv,-,-,-,segwit,hsegwit,hwitness⟩ := hcontents
  refine ⟨segwit,hsegwit,?_,hroot,hnodup,?_⟩
  · obtain ⟨coinbase,rest,htxs⟩ := exists_cons_of_ne_nil hne
    exact ⟨coinbase,rest,htxs,by simpa [htxs] using hcoinbase⟩
  · cases segwit with
    | true =>
      simp only [checkWitness,if_true,checks_ok] at hwitness
      exact hwitness.1
    | false => simpa [checkWitness] using hwitness

/-- Among blocks that pass on one tip, an identifier stands for one string of bytes. -/
theorem one_encoding_per_id (rules : Rules) (p : Params) (cps : Checkpoints) (best : BestChain) (x y : List UInt8)
    (b c : MsgBlock) (now now' : ℤ) (lookupNode lookupNode' : Hash → Option BlockNode) (cache cache' : CheckpointCache)
    (height height' : Int32) (hx : decodeCanonical x = .ok b) (hy : decodeCanonical y = .ok c)
    (hb : (checkConnectBlockTemplate rules.onBytes p cps now best lookupNode cache b height).1 = .ok ())
    (hc : (checkConnectBlockTemplate rules.onBytes p cps now' best lookupNode' cache' c height').1 = .ok ())
    (hid : rules.onBytes.blockHash b.header=rules.onBytes.blockHash c.header)
    (hfree : HashesApart (b.preimages++c.preimages))
    (h64 : ∀ tx∈b.transactions++c.transactions, tx.bytesNoWitness.length ≠ 64) : x = y := by
  obtain ⟨hbytes,hreadable⟩ := decodeCanonical_ok hx
  obtain ⟨hbytes',hreadable'⟩ := decodeCanonical_ok hy
  obtain ⟨segwit,hsegwit,hcommitted⟩ := committed_of_template (checkConnectBlockTemplate_ok hb)
  obtain ⟨segwit',hsegwit',hcommitted'⟩ := committed_of_template (checkConnectBlockTemplate_ok hc)
  rw [hsegwit,Except.ok.injEq] at hsegwit'
  subst hsegwit'
  rw [← hbytes,← hbytes']
  exact bytes_eq_of_committed hcommitted hcommitted' hfree hreadable hreadable' h64 hid

end

/-! ## Parsing alone -/

section Sample

@[reducible] def sampleByteHashing : ByteHashing where
  doubleHashH bytes := BitVec.ofNat 256 (digest (bytes.map UInt8.toNat))
  hash160 bytes := BitVec.ofNat 160 (digest (bytes.map UInt8.toNat))

attribute [local instance] sampleByteHashing

def byteRules : Rules := sampleRules.onBytes

/-- A block with one transaction, on a parent, and the body its header was made for. -/
def singleBlock (version : Int32) (prevBlock : Hash) (timestamp : UInt32) (committed coinbase : MsgTx) : MsgBlock where
  header :=
    { version := version
      prevBlock := prevBlock
      merkleRoot := byteRules.calcMerkleRoot [committed]
      timestamp := timestamp
      bits := 0x1d00ffff
      nonce := 0 }
  transactions := [coinbase]

def genesisCoinbase : MsgTx := sampleCoinbase 0 0 [0x51]

def byteGenesis : MsgBlock := singleBlock 1 0 1790121600 genesisCoinbase genesisCoinbase

def byteParams : Params := dogecoinVMParams (byteRules.blockHash byteGenesis.header)

def byteVM : VM := genesisVM byteParams byteGenesis

def childWith (pkScript : Script) : MsgBlock :=
  singleBlock 4 (byteRules.blockHash byteGenesis.header) 1790121601 (sampleCoinbase 1 0 [0x51])
    (sampleCoinbase 1 0 pkScript)

def child : MsgBlock := childWith [0x51]

def passesOnGenesis (b : MsgBlock) : Prop :=
  (checkConnectBlockTemplate byteRules byteParams noCheckpoints 1790121601 byteVM.btcd.best
    byteVM.btcd.lookupNode byteVM.btcd.cache b 1).1 = .ok ()

theorem decode_child : decodeCanonical child.bytes = .ok child := by
  decide +kernel

/-- No other bytes than the child's pass on the genesis block under its identifier. -/
theorem child_has_one_encoding : passesOnGenesis child ∧ ¬∃ y c, decodeCanonical y = .ok c ∧ passesOnGenesis c ∧
    byteRules.blockHash child.header = byteRules.blockHash c.header ∧ HashesApart (child.preimages++c.preimages) ∧
    (∀ tx∈c.transactions, tx.bytesNoWitness.length ≠ 64) ∧ y ≠ child.bytes := by
  have hpasses : passesOnGenesis child := by
    unfold passesOnGenesis
    decide +kernel
  have h64 : ∀ tx∈child.transactions, tx.bytesNoWitness.length ≠ 64 := by
    decide +kernel
  refine ⟨hpasses,?_⟩
  rintro ⟨y,c,hy,hc,hid,hfree,hc64,hne⟩
  refine hne (one_encoding_per_id sampleRules _ _ _ _ _ child c _ _ _ _ _ _ _ _ decode_child hy hpasses hc hid
    hfree ?_).symm
  exact fun tx htx => (mem_append.mp htx).elim (h64 tx) (hc64 tx)

end Sample

end DogePeg.Vm
