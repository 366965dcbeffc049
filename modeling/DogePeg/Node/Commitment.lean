import DogePeg.Lib.Merkle
import DogePeg.Node.Codec

/-!
# What a block's header commits to

The header holds the Merkle root of the transactions' hashes; a block of the segwit rules commits to the
witness data in its coinbase. `ByteHashing` is the hash of bytes. A block that has passed the checks has
no other bytes than those its header stands for, unless two of the strings hashed on the way have one
hash.
-/

namespace DogePeg.Node

open Bytes Checks Merkle List MsgTx

variable {p : Hash × Hash} {segwit : Bool} {tx : MsgTx} {c : MsgBlock} {i : TxIn}

/-- `chainhash.DoubleHashH` and `btcutil.Hash160`. -/
class ByteHashing where
  doubleHashH : List UInt8 → Hash
  hash160 : List UInt8 → Hash160

instance hashingOfBytes [ByteHashing] : Hashing where
  doubleHash tx := ByteHashing.doubleHashH tx.bytesNoWitness
  hash160 := ByteHashing.hash160

open ByteHashing

/-! ## Merkle roots -/

def nodeBytes (p : Hash × Hash) : List UInt8 := toBytes 32 p.1.toNat++toBytes 32 p.2.toNat

section

variable [ByteHashing]

def hashMerkleBranches (left right : Hash) : Hash := doubleHashH (nodeBytes (left,right))

def witnessHash (tx : MsgTx) : Hash := if hasWitness tx then doubleHashH tx.bytes else tx.txHash

/-- The leaves of `calcMerkleRoot`: the coinbase has no witness hash. -/
def merkleLeaves (witness : Bool) (txs : List MsgTx) : List Hash :=
  if witness then (txs.take 1).map (fun _ => 0)++txs.tail.map witnessHash else txs.map txHash

/-- `CalcMerkleRoot`. It has no root for an empty list: that is a slice index out of range. -/
def calcMerkleRoot (txs : List MsgTx) (witness : Bool) : Option Hash :=
  rollingRoot hashMerkleBranches (merkleLeaves witness txs)

end

/-! ## The commitment to the witness data -/

def witnessMagicBytes : List UInt8 := [0x6a,0x24,0xaa,0x21,0xa9,0xed]

def coinbaseWitnessPkScriptLength : ℕ := 38

def coinbaseWitnessDataLen : ℕ := 32

/-- `ExtractWitnessCommitment`: the last output that has one. -/
def extractWitnessCommitment (coinbase : MsgTx) : Option (List UInt8) :=
  if isCoinbase coinbase then
    (coinbase.txOut.reverse.find? fun o => coinbaseWitnessPkScriptLength ≤ o.pkScript.length &&
      witnessMagicBytes.isPrefixOf o.pkScript).map fun o =>
        (o.pkScript.take coinbaseWitnessPkScriptLength).drop witnessMagicBytes.length
  else none

def witnessPreimage (root : Hash) (nonce : List UInt8) : List UInt8 := toBytes 32 root.toNat++nonce

section

variable [ByteHashing]

/-- The end of `ValidateWitnessCommitment`, for a coinbase that has a commitment. -/
def checkWitnessNonce (txs : List MsgTx) (commitment : List UInt8) : List (List UInt8) → Except ChainError Unit
  | [nonce] => do
    require (nonce.length = coinbaseWitnessDataLen) .invalidWitnessCommitment
    let root ← found (calcMerkleRoot txs true) .sliceBounds
    require (toBytes 32 (doubleHashH (witnessPreimage root nonce)).toNat = commitment) .witnessCommitmentMismatch
  | _ => .error (.rule .invalidWitnessCommitment)

def validateWitnessCommitment (block : MsgBlock) : Except ChainError Unit :=
  match block.transactions with
  | [] => .error (.rule .noTransactions)
  | coinbase::_ =>
    match coinbase.txIn with
    | [] => .error (.rule .noTxInputs)
    | input::_ =>
      match extractWitnessCommitment coinbase with
      | none => require (block.transactions.all fun tx => !hasWitness tx) .unexpectedWitness
      | some commitment => checkWitnessNonce block.transactions commitment input.witness

/-- The rules over the bytes of blocks. -/
def Rules.onBytes (rules : Rules) : Rules :=
  { rules with
    blockHash := fun h => doubleHashH h.bytes
    calcMerkleRoot := fun txs => (Node.calcMerkleRoot txs false).getD 0
    validateWitnessCommitment := Node.validateWitnessCommitment }

/-! ## The strings that are hashed -/

/-- The strings hashed for the root of the transactions. -/
def treeBytes (leaves : List Hash) : List (List UInt8) :=
  (joined hashMerkleBranches (height leaves) leaves).map nodeBytes

/-- The strings hashed for the commitment to witness data. -/
def commitmentBytes (txs : List MsgTx) : List (List UInt8) :=
  match calcMerkleRoot txs true, txs with
  | some root, coinbase::_ => coinbase.txIn.flatMap fun i => i.witness.map (witnessPreimage root)
  | _, _ => []

/-- Every string that is hashed for a block's identifier and the roots in it. -/
def MsgBlock.preimages (b : MsgBlock) : List (List UInt8) :=
  b.header.bytes::b.transactions.map MsgTx.bytesNoWitness++b.transactions.map MsgTx.bytes ++
    treeBytes (merkleLeaves false b.transactions)++treeBytes (merkleLeaves true b.transactions) ++
    commitmentBytes b.transactions

/-- No two of the strings have one hash. -/
def HashesApart (strings : List (List UInt8)) : Prop :=
  ∀ a∈strings, ∀ b∈strings, doubleHashH a = doubleHashH b → a = b

end

/-! ## One body for a header -/

theorem toBytes_inj {a b : Hash} (h : toBytes 32 a.toNat=toBytes 32 b.toNat) : a = b := by
  rw [← ofBytes_hash a,h,ofBytes_hash]

theorem nodeBytes_inj {q : Hash × Hash} (h : nodeBytes p=nodeBytes q) : p = q := by
  obtain ⟨hleft,hright⟩ := append_inj h (by simp)
  exact Prod.ext (toBytes_inj hleft) (toBytes_inj hright)

theorem merkleRoot_eq_of_bytes_eq {h k : BlockHeader} (heq : h.bytes=k.bytes) : h.merkleRoot = k.merkleRoot := by
  simp only [BlockHeader.bytes,append_assoc] at heq
  obtain ⟨-,heq⟩ := append_inj heq (by simp)
  obtain ⟨-,heq⟩ := append_inj heq (by simp)
  exact toBytes_inj (append_inj heq (by simp)).1

theorem bytes_of_no_witness (h : hasWitness tx=false) : tx.bytes = tx.bytesNoWitness := by
  rw [bytes,h]
  exact if_neg Bool.false_ne_true

theorem bytes_eq_of_txs_eq {b : MsgBlock} (hheader : b.header.bytes=c.header.bytes)
    (h : b.transactions.map bytes=c.transactions.map bytes) : b.bytes = c.bytes := by
  have hlen : b.transactions.length = c.transactions.length := by
    have hlen := congrArg List.length h
    rwa [length_map,length_map] at hlen
  rw [MsgBlock.bytes,MsgBlock.bytes,hheader,hlen,flatMap_def,flatMap_def,h]

theorem isCoinbase_iff : isCoinbase tx = true ↔ ∃ i, tx.txIn = [i] ∧ isNullOutpoint i.previousOutPoint = true := by
  unfold isCoinbase isNullOutpoint
  split
  · next i hin => simp [hin]
  · next hin => simpa using fun i hi => absurd hi (hin i)

theorem extractWitnessCommitment_stripWitness (tx : MsgTx) :
    extractWitnessCommitment tx.stripWitness = extractWitnessCommitment tx := by
  have hcoinbase : isCoinbase tx.stripWitness = isCoinbase tx := by
    rw [Bool.eq_iff_iff,isCoinbase_iff,isCoinbase_iff]
    simp [stripWitness,map_eq_singleton_iff]
  rw [extractWitnessCommitment,hcoinbase]
  rfl

theorem bytes_eq_of_no_witness {l m : List MsgTx} (hl : ∀ tx∈l, hasWitness tx = false)
    (hm : ∀ tx∈m, hasWitness tx = false) (h : l.map bytesNoWitness=m.map bytesNoWitness) :
    l.map bytes = m.map bytes := by
  rw [map_congr_left fun tx htx => bytes_of_no_witness (hl tx htx), h,
    map_congr_left fun tx htx => (bytes_of_no_witness (hm tx htx)).symm]

theorem eq_of_stripWitness_eq {t u : MsgTx} {j : TxIn} (ht : t.txIn=[i]) (hu : u.txIn=[j])
    (hw : i.witness=j.witness) (h : t.stripWitness=u.stripWitness) : t = u := by
  obtain ⟨version,txIn,txOut,lockTime,_⟩ := t
  obtain ⟨version',txIn',txOut',lockTime',_⟩ := u
  obtain ⟨op,script,witness,sequence⟩ := i
  obtain ⟨op',script',witness',sequence'⟩ := j
  simp only [stripWitness,mk.injEq] at ht hu h hw ⊢
  subst ht hu hw
  simpa using h

section

variable [ByteHashing]

/-- What the checks of a block say of the bytes of its transactions. -/
structure Committed (segwit : Bool) (b : MsgBlock) : Prop where
  coinbase : ∃ coinbase rest, b.transactions = coinbase::rest ∧ isCoinbase coinbase = true
  root : b.header.merkleRoot = (calcMerkleRoot b.transactions false).getD 0
  distinct : (b.transactions.map txHash).Nodup
  witness : if segwit then validateWitnessCommitment b = .ok () else ∀ tx∈b.transactions, hasWitness tx = false

theorem txHash_eq (tx : MsgTx) : tx.txHash = doubleHashH tx.bytesNoWitness := by
  have hbytes : tx.stripWitness.bytesNoWitness = tx.bytesNoWitness := by
    simp only [bytesNoWitness,stripWitness,length_map,flatMap_map]
    rfl
  rw [← hbytes]
  rfl

theorem witnessHash_eq (tx : MsgTx) : witnessHash tx = doubleHashH tx.bytes := by
  unfold witnessHash
  cases h : hasWitness tx with
  | true => rfl
  | false =>
    rw [bytes_of_no_witness h,← txHash_eq]
    rfl

theorem rooted_of_calcMerkleRoot (witness : Bool) {txs : List MsgTx} (hne : txs≠[]) :
    ∃ root, calcMerkleRoot txs witness = some root ∧ Rooted hashMerkleBranches (merkleLeaves witness txs) root := by
  refine exists_rollingRoot ?_
  obtain ⟨tx,rest,rfl⟩ := exists_cons_of_ne_nil hne
  cases witness <;> simp [merkleLeaves]

structure WitnessCommitted (b : MsgBlock) (i : TxIn) (commitment : List UInt8) (nonce : List UInt8)
    (witnessRoot : Hash) :
    Prop where
  witness : i.witness = [nonce]
  length : nonce.length = 32
  root : calcMerkleRoot b.transactions true = some witnessRoot
  hash : toBytes 32 (doubleHashH (witnessPreimage witnessRoot nonce)).toNat = commitment

theorem validateWitnessCommitment_ok {b : MsgBlock} {coinbase : MsgTx} {rest : List MsgTx}
    (htxs : b.transactions=coinbase::rest) (hi : coinbase.txIn=[i]) (h : validateWitnessCommitment b = .ok ()) :
    (extractWitnessCommitment coinbase = none ∧ ∀ tx∈b.transactions, hasWitness tx = false) ∨
      ∃ commitment nonce root, extractWitnessCommitment coinbase = some commitment ∧
        WitnessCommitted b i commitment nonce root := by
  rw [validateWitnessCommitment,htxs] at h
  simp only [hi] at h
  cases hext : extractWitnessCommitment coinbase with
  | none =>
    rw [hext] at h
    simp only [require_eq_ok,all_eq_true,Bool.not_eq_true'] at h
    exact .inl ⟨rfl,htxs ▸ h⟩
  | some commitment =>
    rw [hext] at h
    rcases hw : i.witness with _ | ⟨nonce,_ | _⟩ <;> rw [hw] at h
    · cases h
    · simp only [checkWitnessNonce,checks_ok,require_eq_ok,decide_eq_true_eq] at h
      obtain ⟨hlen,root,hroot,hhash⟩ := h
      exact .inr ⟨commitment,nonce,root,rfl,hw,hlen,htxs ▸ hroot,hhash⟩
    · cases h

namespace MsgBlock

variable (b : MsgBlock)

theorem header_mem_preimages : b.header.bytes∈b.preimages := by
  simp [preimages]

theorem stripped_mem_preimages (h : tx∈b.transactions) : tx.bytesNoWitness∈b.preimages := by
  have hmem : tx.bytesNoWitness∈b.transactions.map bytesNoWitness := mem_map_of_mem h
  simp only [preimages,mem_append,mem_cons]
  tauto

theorem bytes_mem_preimages (h : tx∈b.transactions) : tx.bytes∈b.preimages := by
  have hmem : tx.bytes∈b.transactions.map MsgTx.bytes := mem_map_of_mem h
  simp only [preimages,mem_append,mem_cons]
  tauto

theorem node_mem_preimages (witness : Bool) (h : p∈joined hashMerkleBranches
    (height (merkleLeaves witness b.transactions)) (merkleLeaves witness b.transactions)) :
    nodeBytes p ∈ b.preimages := by
  have hmem : nodeBytes p ∈ treeBytes (merkleLeaves witness b.transactions) := mem_map_of_mem h
  simp only [preimages,mem_append,mem_cons]
  cases witness <;> tauto

theorem commitment_mem_preimages {root : Hash} {coinbase : MsgTx} {rest : List MsgTx} {nonce : List UInt8}
    (hroot : calcMerkleRoot b.transactions true=some root) (htxs : b.transactions=coinbase::rest)
    (hi : i∈coinbase.txIn) (hnonce : nonce∈i.witness) : witnessPreimage root nonce ∈ b.preimages := by
  have hmem : witnessPreimage root nonce ∈ commitmentBytes b.transactions := by
    rw [htxs] at hroot ⊢
    simp only [commitmentBytes,hroot]
    exact mem_flatMap.mpr ⟨i,hi,mem_map_of_mem hnonce⟩
  simp only [preimages,mem_append,mem_cons]
  tauto

end MsgBlock

section

variable {strings : List (List UInt8)} (hfree : HashesApart strings)

include hfree

theorem joinsApart : JoinsApart hashMerkleBranches fun p => nodeBytes p ∈ strings := by
  intro p q hp hq h
  exact nodeBytes_inj (hfree _ hp _ hq h)

theorem HashesApart.map_eq {α : Type} {write : α → List UInt8} {l m : List α} (hl : ∀ a∈l, write a ∈ strings)
    (hm : ∀ a∈m, write a ∈ strings)
    (h : l.map (fun a => doubleHashH (write a)) = m.map (fun a => doubleHashH (write a))) :
    l.map write = m.map write := by
  rw [show (fun a => doubleHashH (write a)) = doubleHashH ∘ write from rfl,← map_map,← map_map] at h
  refine eq_of_map_eq ?_ h
  intro s hs t ht heq
  obtain ⟨a,ha,rfl⟩ := mem_map.mp hs
  obtain ⟨b,hb,rfl⟩ := mem_map.mp ht
  exact hfree _ (hl a ha) _ (hm b hb) heq

/-- A transaction's hash is no node of a tree, if it is not 64 bytes long. -/
theorem HashesApart.leaf_ne (htx : tx.bytesNoWitness∈strings)
    (hp : nodeBytes p∈strings) (h64 : tx.bytesNoWitness.length≠64) : tx.txHash ≠ hashMerkleBranches p.1 p.2 := by
  rw [txHash_eq]
  intro heq
  have hbytes : tx.bytesNoWitness = nodeBytes p := hfree _ htx _ hp heq
  rw [hbytes] at h64
  exact h64 (by simp [nodeBytes])

theorem HashesApart.stripped_eq {b : MsgBlock} (hb : Committed segwit b) (hc : Committed segwit c)
    (hbs : b.preimages ⊆ strings) (hcs : c.preimages ⊆ strings) (hroot : b.header.merkleRoot=c.header.merkleRoot)
    (hb64 : ∀ tx∈b.transactions, tx.bytesNoWitness.length ≠ 64)
    (hc64 : ∀ tx∈c.transactions, tx.bytesNoWitness.length ≠ 64) :
    b.transactions.map bytesNoWitness = c.transactions.map bytesNoWitness := by
  obtain ⟨bcoin,brest,hbtxs,-⟩ := hb.coinbase
  obtain ⟨ccoin,crest,hctxs,-⟩ := hc.coinbase
  obtain ⟨broot,hbroot,hbrooted⟩ := rooted_of_calcMerkleRoot false (hbtxs ▸ cons_ne_nil bcoin brest)
  obtain ⟨croot,hcroot,hcrooted⟩ := rooted_of_calcMerkleRoot false (hctxs ▸ cons_ne_nil ccoin crest)
  have heq : broot = croot := by
    have hb' := hb.root
    have hc' := hc.root
    rw [hbroot] at hb'
    rw [hcroot] at hc'
    exact (hb'.symm.trans hroot).trans hc'
  subst heq
  have hleaves : b.transactions.map txHash = c.transactions.map txHash := by
    refine eq_of_rooted_of_nodup (joinsApart hfree) (fun p hp => hbs (b.node_mem_preimages false hp))
      (fun p hp => hcs (c.node_mem_preimages false hp)) hb.distinct hc.distinct ?_ ?_ hbrooted hcrooted
    · intro a ha p hp
      obtain ⟨tx,htx,rfl⟩ := mem_map.mp ha
      exact hfree.leaf_ne (hbs (b.stripped_mem_preimages htx)) (hcs (c.node_mem_preimages false hp)) (hb64 tx htx)
    · intro a ha p hp
      obtain ⟨tx,htx,rfl⟩ := mem_map.mp ha
      exact hfree.leaf_ne (hcs (c.stripped_mem_preimages htx)) (hbs (b.node_mem_preimages false hp)) (hc64 tx htx)
  refine hfree.map_eq (fun tx htx => hbs (b.stripped_mem_preimages htx))
    (fun tx htx => hcs (c.stripped_mem_preimages htx)) ?_
  rwa [funext txHash_eq] at hleaves

theorem WitnessCommitted.bytes_eq {b : MsgBlock} {bcoin ccoin : MsgTx} {brest crest : List MsgTx} {j : TxIn}
    {commitment nonce nonce' : List UInt8} {root root' : Hash} (hb : WitnessCommitted b i commitment nonce root)
    (hc : WitnessCommitted c j commitment nonce' root') (hbs : b.preimages ⊆ strings) (hcs : c.preimages ⊆ strings)
    (hbtxs : b.transactions=bcoin::brest) (hctxs : c.transactions=ccoin::crest) (hi : i∈bcoin.txIn)
    (hj : j∈ccoin.txIn) (hlen : brest.length=crest.length) :
    i.witness = j.witness ∧ brest.map bytes = crest.map bytes := by
  have hpre : witnessPreimage root nonce = witnessPreimage root' nonce' := by
    refine hfree _ (hbs (b.commitment_mem_preimages hb.root hbtxs hi (by simp [hb.witness]))) _
      (hcs (c.commitment_mem_preimages hc.root hctxs hj (by simp [hc.witness]))) ?_
    exact toBytes_inj (hb.hash.trans hc.hash.symm)
  obtain ⟨hroot,hnonce⟩ := append_inj hpre (by simp)
  refine ⟨by rw [hb.witness,hc.witness,hnonce], ?_⟩
  obtain ⟨r,hr,hrooted⟩ := rooted_of_calcMerkleRoot true (hbtxs ▸ cons_ne_nil bcoin brest)
  obtain ⟨r',hr',hrooted'⟩ := rooted_of_calcMerkleRoot true (hctxs ▸ cons_ne_nil ccoin crest)
  have heq : r = r' := by
    rw [hb.root,Option.some.injEq] at hr
    rw [hc.root,Option.some.injEq] at hr'
    rw [← hr,← hr']
    exact toBytes_inj hroot
  subst heq
  have hleaves : merkleLeaves true b.transactions = merkleLeaves true c.transactions := by
    refine eq_of_rooted_of_length (joinsApart hfree) (fun p hp => hbs (b.node_mem_preimages true hp))
      (fun p hp => hcs (c.node_mem_preimages true hp)) ?_ hrooted hrooted'
    simp [merkleLeaves,hbtxs,hctxs,hlen]
  simp only [merkleLeaves,hbtxs,hctxs,if_true,take_succ_cons,take_zero,map_cons,map_nil,
    tail_cons,singleton_append,List.cons.injEq,true_and,funext witnessHash_eq] at hleaves
  refine hfree.map_eq (fun tx htx => hbs (b.bytes_mem_preimages ?_))
    (fun tx htx => hcs (c.bytes_mem_preimages ?_)) hleaves
  · rw [hbtxs]
    exact mem_cons_of_mem _ htx
  · rw [hctxs]
    exact mem_cons_of_mem _ htx

theorem HashesApart.bytes_eq {b : MsgBlock} (hb : Committed segwit b) (hc : Committed segwit c)
    (hbs : b.preimages ⊆ strings) (hcs : c.preimages ⊆ strings) (hbr : ∀ tx∈b.transactions, Readable tx)
    (hcr : ∀ tx∈c.transactions, Readable tx)
    (hstripped : b.transactions.map bytesNoWitness=c.transactions.map bytesNoWitness) :
    b.transactions.map bytes = c.transactions.map bytes := by
  cases segwit with
  | false => exact bytes_eq_of_no_witness hb.witness hc.witness hstripped
  | true =>
    obtain ⟨bcoin,brest,hbtxs,hbcoin⟩ := hb.coinbase
    obtain ⟨ccoin,crest,hctxs,hccoin⟩ := hc.coinbase
    obtain ⟨i,hi,-⟩ := isCoinbase_iff.mp hbcoin
    obtain ⟨j,hj,-⟩ := isCoinbase_iff.mp hccoin
    have hparts := hstripped
    rw [hbtxs,hctxs,map_cons,map_cons,List.cons.injEq] at hparts
    have hlen : brest.length = crest.length := by
      have hlen := congrArg List.length hparts.2
      rwa [length_map,length_map] at hlen
    -- the coinbases have the same outputs, so the same commitment
    have hstrip : bcoin.stripWitness = ccoin.stripWitness :=
      stripWitness_eq_of_bytes_eq (hbr bcoin (by simp [hbtxs])) (hcr ccoin (by simp [hctxs])) (by simp [hi])
        (by simp [hj]) hparts.1
    have hext : extractWitnessCommitment bcoin = extractWitnessCommitment ccoin := by
      rw [← extractWitnessCommitment_stripWitness,hstrip,extractWitnessCommitment_stripWitness]
    rcases validateWitnessCommitment_ok hbtxs hi hb.witness with ⟨hnone,hbw⟩ | ⟨_,_,_,hsome,hbc⟩ <;>
      rcases validateWitnessCommitment_ok hctxs hj hc.witness with ⟨hnone',hcw⟩ | ⟨_,_,_,hsome',hcc⟩
    · exact bytes_eq_of_no_witness hbw hcw hstripped
    · rw [← hext,hnone] at hsome'
      cases hsome'
    · rw [← hext,hsome] at hnone'
      cases hnone'
    · rw [← hext,hsome,Option.some.injEq] at hsome'
      subst hsome'
      obtain ⟨hw,hrest⟩ := hbc.bytes_eq hfree hcc hbs hcs hbtxs hctxs (by simp [hi]) (by simp [hj]) hlen
      rw [hbtxs,hctxs,map_cons,map_cons,hrest,eq_of_stripWitness_eq hi hj hw hstrip]

end

/-- Blocks with one identifier have the same bytes, if their bodies have been checked against their
headers. -/
theorem bytes_eq_of_committed {b : MsgBlock} (hb : Committed segwit b) (hc : Committed segwit c)
    (hfree : HashesApart (b.preimages++c.preimages)) (hbr : ∀ tx∈b.transactions, Readable tx)
    (hcr : ∀ tx∈c.transactions, Readable tx)
    (h64 : ∀ tx∈b.transactions++c.transactions, tx.bytesNoWitness.length ≠ 64)
    (hid : doubleHashH b.header.bytes=doubleHashH c.header.bytes) : b.bytes = c.bytes := by
  have hbs : b.preimages ⊆ b.preimages++c.preimages := subset_append_left ..
  have hcs : c.preimages ⊆ b.preimages++c.preimages := subset_append_right ..
  have hheader := hfree _ (hbs b.header_mem_preimages) _ (hcs c.header_mem_preimages) hid
  refine bytes_eq_of_txs_eq hheader (hfree.bytes_eq hb hc hbs hcs hbr hcr ?_)
  exact hfree.stripped_eq hb hc hbs hcs (merkleRoot_eq_of_bytes_eq hheader)
    (fun tx htx => h64 tx (mem_append_left _ htx)) (fun tx htx => h64 tx (mem_append_right _ htx))

end

end DogePeg.Node
