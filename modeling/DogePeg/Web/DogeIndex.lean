import DogePeg.Lib.Batches
import DogePeg.Lib.Checks
import DogePeg.Wire
import Mathlib.Data.List.Chain

/-!
# The wallet's index of Dogecoin addresses

The web wallet's own index (`cmd/dogevm/dogeindex.go`): the unspent outputs and the history of the
scripts it watches, and, for each of the last blocks, a record to undo it with. `sync` undoes the blocks
a reorganisation replaced and indexes the new ones. The database's keys are kept apart by kind, as two
that differ in script, outpoint or height differ as bytes.
-/

namespace DogePeg

open Batches Checks Function List

variable {height : ℕ} {go : Bool}

/-- `keyUTXO`, `keyOwner` and `keyHistory`. -/
inductive IndexKey where
  | utxo (script : Script) (op : OutPoint)
  | owner (op : OutPoint)
  | history (script : Script) (height : ℕ) (txid : Hash)
  deriving DecidableEq

inductive IndexValue where
  | utxo (value : Int64) (height : ℕ)
  | owner (script : Script)
  | history (net : Int64) (unix : ℤ)
  deriving DecidableEq

def IndexKey.txid : IndexKey → Hash
  | .utxo _ op => op.hash
  | .owner op => op.hash
  | .history _ _ txid => txid

abbrev IndexEntries := Store IndexKey IndexValue

def undoDepth : ℕ := 288

structure UndoRecord extends Undo IndexKey IndexValue where
  hash : Hash

structure BlockInfo where
  prev : Hash
  unix : ℤ
  txids : List Hash

/-- `dogeSource`, as it answers during one call. -/
structure DogeSource where
  synced : Except String Bool
  blockCount : Except String ℕ
  blockHash : ℕ → Except String Hash
  blockInfo : Hash → Except String BlockInfo
  rawTx : Hash → Except String MsgTx

structure DogeIndex where
  tip : Option (ℕ × Hash)
  entries : IndexEntries
  undos : Store ℕ UndoRecord

def DogeIndex.empty : DogeIndex := ⟨none,fun _ => none, fun _ => none⟩

/-! ## The batch of a block -/

/-- What a transaction changes of each script, `net`. -/
abbrev Nets := List (Script × Int64)

def Nets.add (nets : Nets) (script : Script) (value : Int64) : Nets :=
  match nets with
  | [] => [(script,value)]
  | (s,v)::nets => if s = script then (s,v+value)::nets else (s,v)::Nets.add nets script value

/-- The batch `apply` builds, the undo record of it, and the outputs created in the block that
later transactions of it may spend. -/
structure BlockBatch where
  writes : List (Write IndexKey IndexValue)
  undo : Undo IndexKey IndexValue
  created : List (OutPoint × Script × Int64)

namespace BlockBatch

def empty : BlockBatch := ⟨[],⟨[],[]⟩,[]⟩

def put (b : BlockBatch) (k : IndexKey) (v : IndexValue) : BlockBatch :=
  { b with writes := b.writes++[.put k v],undo := { b.undo with put := b.undo.put++[k] } }

/-- `del`, of a key that has the value `v`. -/
def del (b : BlockBatch) (k : IndexKey) (v : IndexValue) : BlockBatch :=
  { b with
    writes := b.writes++[.delete k]
    undo := { b.undo with deleted := b.undo.deleted++[(k,v)] } }

/-- An output created and spent within the block: it never exists. -/
def drop (b : BlockBatch) (op : OutPoint) (script : Script) : BlockBatch :=
  { b with
    writes := b.writes++[.delete (.utxo script op),.delete (.owner op)]
    created := b.created.filter fun c => c.1 ≠ op }

/-- One input. The database is read as it was before the block. -/
def spend (entries : IndexEntries) (acc : BlockBatch × Nets) (op : OutPoint) : BlockBatch × Nets :=
  match acc.1.created.lookup op with
  | some (script,value) => (acc.1.drop op script,acc.2.add script (-value))
  | none =>
    match entries (.owner op) with
    | some (.owner script) =>
      match entries (.utxo script op) with
      | some (.utxo value height) =>
        ((acc.1.del (.utxo script op) (.utxo value height)).del (.owner op) (.owner script),acc.2.add script (-value))
      | _ => acc
    | _ => acc

def pay (watched : Script → Bool) (height : ℕ) (txid : Hash) (acc : BlockBatch × Nets)
    (out : TxOut × ℕ) : BlockBatch × Nets :=
  if watched out.1.pkScript then
    let op : OutPoint := ⟨txid,UInt32.ofNat out.2⟩
    let b := (acc.1.put (.utxo out.1.pkScript op) (.utxo out.1.value height)).put (.owner op)
      (.owner out.1.pkScript)
    ({ b with created := (op,out.1.pkScript,out.1.value)::b.created },acc.2.add out.1.pkScript out.1.value)
  else acc

/-- One transaction of the block. The first, the coinbase, spends nothing. -/
def transaction (watched : Script → Bool) (entries : IndexEntries) (height : ℕ) (unix : ℤ)
    (b : BlockBatch) (t : (Hash × MsgTx) × ℕ) : BlockBatch :=
  let spent := if 0 < t.2 then t.1.2.spends.foldl (spend entries) (b,[]) else (b,[])
  let paid := t.1.2.txOut.zipIdx.foldl (pay watched height t.1.1) spent
  paid.2.foldl (fun b n => b.put (.history n.1 height t.1.1) (.history n.2 unix)) paid.1

def block (watched : Script → Bool) (entries : IndexEntries) (height : ℕ) (unix : ℤ)
    (txs : List (Hash × MsgTx)) : BlockBatch :=
  txs.zipIdx.foldl (transaction watched entries height unix) empty

end BlockBatch

/-! ## Following the best chain -/

open BlockBatch

namespace DogeIndex

/-- The undo records once the block at `height` has its own: the oldest goes. -/
def keepUndo (undos : Store ℕ UndoRecord) (height : ℕ) (u : UndoRecord) : Store ℕ UndoRecord :=
  let undos := update undos height (some u)
  if undoDepth < height then update undos (height-undoDepth) none else undos

def apply (watched : Script → Bool) (src : DogeSource) (x : DogeIndex) (height : ℕ) (hash : Hash)
    (unix : ℤ) (txids : List Hash) : Except String DogeIndex := do
  let txs ← txids.mapM fun txid => do return (txid,← src.rawTx txid)
  let b := block watched x.entries height unix txs
  return {
    tip := some (height,hash)
    entries := x.entries.write b.writes
    undos := keepUndo x.undos height ⟨b.undo,hash⟩ }

/-- `undo`: the block below the tip's is read from the source. -/
def undo (src : DogeSource) (x : DogeIndex) (height : ℕ) : Except String DogeIndex := do
  let u ← found (x.undos height) "reorganisation deeper than 288 blocks: rebuild the Dogecoin index"
  let prev ← src.blockHash (height-1)
  return {
    tip := some (height-1,prev)
    entries := x.entries.write u.writes
    undos := update x.undos height none }

/-- One turn of the loop of `sync`: the database after it, and whether the loop goes on. A turn
that fails has written nothing. -/
def turn (watched : Script → Bool) (src : DogeSource) (x : DogeIndex) : Except String (DogeIndex × Bool) := do
  let best ← src.blockCount
  match x.tip with
  | none =>
    let h ← src.blockHash best
    return ({ x with tip := some (best,h) },false)
  | some (height,hash) =>
    if best ≤ height then
      let h ← src.blockHash height
      if h ≠ hash then return (← x.undo src height,true)
      return (x,false)
    let next ← src.blockHash (height+1)
    let info ← src.blockInfo next
    if info.prev ≠ hash then return (← x.undo src height,true)
    return (← x.apply watched src (height+1) next info.unix info.txids,true)

/-- The loop of `sync`, of at most `fuel` turns: the database it leaves and what it returns. -/
def loop (watched : Script → Bool) (src : DogeSource) : ℕ → DogeIndex → Option (DogeIndex × Except String Unit)
  | 0, _ => none
  | fuel+1, x =>
    match x.turn watched src with
    | .error e => some (x,.error e)
    | .ok (x',true) => loop watched src fuel x'
    | .ok (x',false) => some (x',.ok ())

/-- `sync`. A node that is still syncing is waited for. -/
def sync (watched : Script → Bool) (src : DogeSource) (fuel : ℕ) (x : DogeIndex) :
    Option (DogeIndex × Except String Unit) :=
  match src.synced with
  | .error e => some (x,.error e)
  | .ok false => some (x,.ok ())
  | .ok true => loop watched src fuel x

end DogeIndex

/-! ## The blocks of Dogecoin -/

structure DogeBlock where
  hash : Hash
  prev : Hash
  unix : ℤ
  txs : List (Hash × MsgTx)
  deriving DecidableEq

def DogeBlock.txids (b : DogeBlock) : List Hash := b.txs.map Prod.fst

open DogeBlock

/-- A chain of blocks out of `U`, from the first up: each names the one below it, and no two of
its transactions share an identifier. -/
structure DogeChain (U : Set DogeBlock) (chain : List DogeBlock) : Prop where
  known : ∀ b∈chain, b∈U
  linked : chain.IsChain fun b c => c.prev = b.hash
  nodup : (chain.flatMap txids).Nodup

theorem tx_unique {chain : List DogeBlock} {b b' : DogeBlock} {j j' : ℕ} {t t' : Hash × MsgTx}
    (hchain : (chain.flatMap txids).Nodup) (hb : chain[j]? = some b)
    (hb' : chain[j']? = some b') (ht : t∈b.txs) (ht' : t'∈b'.txs) (h : t.1=t'.1) : j = j' ∧ t = t' := by
  obtain ⟨hblocks,hapart⟩ := nodup_flatMap.mp hchain
  have hne {i i' : ℕ} {c c' : DogeBlock} (hc : chain[i]? = some c) (hc' : chain[i']? = some c') (hlt : i < i')
      {u u' : Hash × MsgTx} (hu : u∈c.txs) (hu' : u'∈c'.txs) : u.1 ≠ u'.1 := by
    intro heq
    obtain ⟨hi,rfl⟩ := List.getElem?_eq_some_iff.mp hc
    obtain ⟨hi',rfl⟩ := List.getElem?_eq_some_iff.mp hc'
    exact pairwise_iff_getElem.mp hapart i i' hi hi' hlt (mem_map_of_mem hu) (heq ▸ mem_map_of_mem hu')
  rcases lt_trichotomy j j' with hlt | rfl | hlt
  · exact absurd h (hne hb hb' hlt ht ht')
  · cases hb.symm.trans hb'
    exact ⟨rfl,inj_on_of_nodup_map (hblocks b (mem_of_getElem? hb)) ht ht' h⟩
  · exact absurd h.symm (hne hb' hb hlt ht' ht)

/-- The source answers, where it does, for `chain`. -/
structure DogeSource.Serves (src : DogeSource) (chain : List DogeBlock) : Prop where
  count : ∀ n, src.blockCount = .ok n → chain.length = n+1
  hash : ∀ h x, src.blockHash h = .ok x → ∃ b, chain[h]? = some b ∧ b.hash = x
  info : ∀ b∈chain, ∀ i, src.blockInfo b.hash = .ok i → i = ⟨b.prev,b.unix,b.txids⟩
  raw : ∀ b∈chain, ∀ t∈b.txs, ∀ tx, src.rawTx t.1 = .ok tx → tx = t.2

/-- The entries after `blocks`, the first of them at `height`, on top of `entries`. -/
def indexBlocks (watched : Script → Bool) : IndexEntries → ℕ → List DogeBlock → IndexEntries
  | entries, _, [] => entries
  | entries, height, b::blocks =>
    indexBlocks watched (entries.write (block watched entries height b.unix b.txs).writes) (height+1) blocks

/-- The entries of the blocks of a chain above `start`, applied in order. -/
def indexed (watched : Script → Bool) (start : ℕ) (chain : List DogeBlock) : IndexEntries :=
  indexBlocks watched (fun _ => none) (start+1) (chain.drop (start+1))

/-! ## What a block's batch writes -/

namespace BlockBatch

variable {entries : IndexEntries} {ids : List Hash} {b : BlockBatch}

/-- A batch built for a block with the transactions `ids`: what it puts is of them, and its undo
record is of it. -/
structure Sound (entries : IndexEntries) (ids : List Hash) (b : BlockBatch) : Prop where
  undo : b.undo.Of entries b.writes
  fresh : ∀ k∈b.undo.put, k.txid∈ids
  created : ∀ c∈b.created, .utxo c.2.1 c.1 ∈ b.undo.put ∧ .owner c.1 ∈ b.undo.put

theorem Sound.empty : Sound entries ids empty where
  undo := ⟨by simp [BlockBatch.empty], by simp [BlockBatch.empty], by simp [BlockBatch.empty]⟩
  fresh := by simp [BlockBatch.empty]
  created := by simp [BlockBatch.empty]

theorem Sound.put (h : Sound entries ids b) {k : IndexKey} {v : IndexValue} (hk : k.txid∈ids) :
    Sound entries ids (b.put k v) where
  undo := by
    refine ⟨fun key value hmem => ?_, fun key hmem => ?_, h.undo.deleted⟩
    · rcases mem_append.mp hmem with hmem | hmem
      · exact mem_append_left _ (h.undo.put key value hmem)
      · cases mem_singleton.mp hmem
        exact mem_append_right _ (mem_singleton_self _)
    · rcases mem_append.mp hmem with hmem | hmem
      · exact (h.undo.delete key hmem).imp_left (mem_append_left _)
      · exact absurd (mem_singleton.mp hmem) (by simp)
  fresh := by
    intro key hmem
    rcases mem_append.mp hmem with hmem | hmem
    · exact h.fresh key hmem
    · rwa [mem_singleton.mp hmem]
  created := fun c hc => (h.created c hc).imp (mem_append_left _) (mem_append_left _)

theorem Sound.del (h : Sound entries ids b) {k : IndexKey} {v : IndexValue} (hk : entries k=some v) :
    Sound entries ids (b.del k v) where
  undo := by
    refine ⟨fun key value hmem => ?_, fun key hmem => ?_, fun e he => ?_⟩
    · rcases mem_append.mp hmem with hmem | hmem
      · exact h.undo.put key value hmem
      · exact absurd (mem_singleton.mp hmem) (by simp)
    · simp only [BlockBatch.del,map_append,mem_append]
      rcases mem_append.mp hmem with hmem | hmem
      · exact (h.undo.delete key hmem).imp_right .inl
      · cases mem_singleton.mp hmem
        exact .inr (.inr (mem_singleton_self _))
    · rcases mem_append.mp he with he | he
      · exact h.undo.deleted e he
      · rwa [mem_singleton.mp he]
  fresh := h.fresh
  created := h.created

theorem Sound.drop (h : Sound entries ids b) {op : OutPoint} {script : Script} {value : Int64}
    (hc : (op,script,value)∈b.created) : Sound entries ids (b.drop op script) where
  undo := by
    refine ⟨fun key v hmem => ?_, fun key hmem => ?_, h.undo.deleted⟩
    · rcases mem_append.mp hmem with hmem | hmem
      · exact h.undo.put key v hmem
      · simp at hmem
    · rcases mem_append.mp hmem with hmem | hmem
      · exact h.undo.delete key hmem
      · simp only [mem_cons,Write.delete.injEq,not_mem_nil,or_false] at hmem
        rcases hmem with rfl | rfl
        · exact .inl (h.created _ hc).1
        · exact .inl (h.created _ hc).2
  fresh := h.fresh
  created := fun c hmem => h.created c (mem_filter.mp hmem).1

theorem Sound.spend {acc : BlockBatch × Nets} (h : Sound entries ids acc.1) (op : OutPoint) :
    Sound entries ids (spend entries acc op).1 := by
  fun_cases BlockBatch.spend entries acc op with
  | case1 script value hlookup =>
    obtain ⟨l₁,l₂,heq,-⟩ := lookup_eq_some_iff.mp hlookup
    exact h.drop (heq ▸ mem_append_right _ (mem_cons_self ..))
  | case2 hlookup script howner value height hutxo => exact (h.del hutxo).del howner
  | case3 => exact h
  | case4 => exact h

variable {watched : Script → Bool}

theorem Sound.pay {txid : Hash} (htxid : txid∈ids)
    {acc : BlockBatch × Nets} (h : Sound entries ids acc.1) (out : TxOut × ℕ) :
    Sound entries ids (pay watched height txid acc out).1 := by
  unfold BlockBatch.pay
  split
  · let op : OutPoint := ⟨txid,UInt32.ofNat out.2⟩
    have hutxo : (IndexKey.utxo out.1.pkScript op).txid ∈ ids := htxid
    have howner : (IndexKey.owner op).txid ∈ ids := htxid
    have hput := (h.put (v := .utxo out.1.value height) hutxo).put (v := .owner out.1.pkScript) howner
    refine ⟨hput.undo,hput.fresh,fun c hc => ?_⟩
    rcases mem_cons.mp hc with rfl | hc
    · simp [BlockBatch.put]
    · exact hput.created c hc
  · exact h

theorem Sound.transaction {unix : ℤ} (h : Sound entries ids b) {t : (Hash × MsgTx) × ℕ} (ht : t.1.1∈ids) :
    Sound entries ids (transaction watched entries height unix b t) := by
  have hspent : Sound entries ids
      (if 0 < t.2 then t.1.2.spends.foldl (BlockBatch.spend entries) (b,[]) else (b,[])).1 := by
    have hfirst : Sound entries ids ((b,[]) : BlockBatch × Nets).1 := h
    split
    · exact List.foldlRecOn t.1.2.spends (BlockBatch.spend entries)
        (motive := fun acc => Sound entries ids acc.1) hfirst fun acc hacc op _ => hacc.spend op
    · exact hfirst
  have hpaid := List.foldlRecOn t.1.2.txOut.zipIdx (BlockBatch.pay watched height t.1.1)
    (motive := fun acc => Sound entries ids acc.1) hspent fun acc hacc out _ => hacc.pay ht out
  exact List.foldlRecOn _ _ (motive := fun b => Sound entries ids b) hpaid fun b hb n _ => hb.put ht

theorem sound_block (watched : Script → Bool) (entries : IndexEntries) (height : ℕ) (unix : ℤ)
    (txs : List (Hash × MsgTx)) : Sound entries (txs.map Prod.fst) (block watched entries height unix txs) := by
  refine List.foldlRecOn txs.zipIdx _ (motive := fun b => Sound entries (txs.map Prod.fst) b) .empty
    fun b hb t ht => hb.transaction ?_
  exact mem_map_of_mem (fst_mem_of_mem_zipIdx ht)

/-- Undoing a block none of whose transactions is indexed yet restores what was there. -/
theorem block_undo {unix : ℤ} {txs : List (Hash × MsgTx)}
    (hfresh : ∀ k, entries k ≠ none → k.txid ∉ txs.map Prod.fst) :
    (entries.write (block watched entries height unix txs).writes).write
      (block watched entries height unix txs).undo.writes = entries := by
  have hsound := sound_block watched entries height unix txs
  refine hsound.undo.restore fun k hk => ?_
  by_contra hne
  exact hfresh k hne (hsound.fresh k hk)

end BlockBatch

/-! ## The entries of a chain -/

section Indexed

variable {watched : Script → Bool} {U : Set DogeBlock} {start : ℕ} {chain : List DogeBlock}

theorem indexBlocks_append (entries : IndexEntries) (height : ℕ) (first rest : List DogeBlock) :
    indexBlocks watched entries height (first++rest) =
      indexBlocks watched (indexBlocks watched entries height first) (height+first.length) rest := by
  induction first generalizing entries height with
  | nil => rfl
  | cons b first ih =>
    rw [cons_append,indexBlocks,indexBlocks,ih,length_cons]
    congr 1
    omega

theorem indexed_concat (hstart : start<chain.length) (b : DogeBlock) :
    indexed watched start (chain++[b]) = (indexed watched start chain).write
      (block watched (indexed watched start chain) chain.length b.unix b.txs).writes := by
  have hheight : start+1+(chain.drop (start+1)).length = chain.length := by
    rw [length_drop]
    omega
  rw [indexed,drop_append_of_le_length (by omega),indexBlocks_append,hheight]
  rfl

theorem txid_of_indexBlocks {entries : IndexEntries} {blocks : List DogeBlock}
    {k : IndexKey} (h : indexBlocks watched entries height blocks k≠none) :
    entries k ≠ none ∨ k.txid∈blocks.flatMap txids := by
  induction blocks generalizing entries height with
  | nil => exact .inl h
  | cons b blocks ih =>
    rw [flatMap_cons]
    rcases ih h with hwrite | hmem
    · refine (Store.mem_of_write hwrite).imp_right fun ⟨v,hv⟩ => mem_append_left _ ?_
      have hsound := sound_block watched entries height b.unix b.txs
      exact hsound.fresh k (hsound.undo.put k v hv)
    · exact .inr (mem_append_right _ hmem)

theorem txid_of_indexed {k : IndexKey} (h : indexed watched start chain k≠none) : k.txid∈chain.flatMap txids := by
  rcases txid_of_indexBlocks h with habs | hmem
  · exact absurd rfl habs
  · obtain ⟨b,hb,hk⟩ := mem_flatMap.mp hmem
    exact mem_flatMap.mpr ⟨b,mem_of_mem_drop hb,hk⟩

theorem indexed_undo (watched : Script → Bool) {b : DogeBlock} (hchain : DogeChain U (chain++[b]))
    (hstart : start<chain.length) : (indexed watched start (chain++[b])).write
      (block watched (indexed watched start chain) chain.length b.unix b.txs).undo.writes =
      indexed watched start chain := by
  rw [indexed_concat hstart]
  refine block_undo fun k hk hmem => ?_
  have hnodup := hchain.nodup
  rw [flatMap_append,flatMap_singleton] at hnodup
  exact (nodup_append.mp hnodup).2.2 _ (txid_of_indexed hk) _ hmem rfl

end Indexed

/-! ## Following one chain -/

def HashesDiffer (U : Set DogeBlock) : Prop := ∀ b∈U, ∀ c∈U, b.hash = c.hash → b = c

open DogeIndex

section Follow

variable {watched : Script → Bool} {U : Set DogeBlock} {start h k : ℕ} {chain chain' : List DogeBlock}
  {x x' : DogeIndex} {src : DogeSource} {b c : DogeBlock}

theorem DogeChain.prev_eq (hchain : DogeChain U chain) (hb : chain[h]? = some b)
    (hc : chain[h+1]? = some c) : c.prev = b.hash := by
  obtain ⟨-,rfl⟩ := List.getElem?_eq_some_iff.mp hb
  obtain ⟨hlt,rfl⟩ := List.getElem?_eq_some_iff.mp hc
  exact hchain.linked.getElem h hlt

theorem DogeChain.take (hchain : DogeChain U chain) (n : ℕ) : DogeChain U (chain.take n) where
  known := fun b hb => hchain.known b (mem_of_mem_take hb)
  linked := hchain.linked.take n
  nodup := by
    have hnodup := hchain.nodup
    rw [← take_append_drop n chain,flatMap_append] at hnodup
    exact hnodup.of_append_left

theorem exists_getElem?_of_succ (h : chain[k+1]? = some b) : ∃ c, chain[k]? = some c :=
  ⟨_,List.getElem?_eq_getElem (Nat.lt_of_succ_lt (List.getElem?_eq_some_iff.mp h).1)⟩

theorem DogeChain.take_eq (hU : HashesDiffer U) (hchain : DogeChain U chain) (hchain' : DogeChain U chain')
    (hb : chain[h]? = some b) (hc : chain'[h]? = some c) (hhash : b.hash=c.hash) :
    chain.take (h+1) = chain'.take (h+1) := by
  obtain rfl := hU b (hchain.known b (mem_of_getElem? hb)) c (hchain'.known c (mem_of_getElem? hc)) hhash
  induction h generalizing b with
  | zero => rw [take_add_one,take_add_one,hb,hc,take_zero,take_zero]
  | succ h ih =>
    obtain ⟨d,hd⟩ := exists_getElem?_of_succ hb
    obtain ⟨e,he⟩ := exists_getElem?_of_succ hc
    have hhash : d.hash = e.hash := (hchain.prev_eq hd hb).symm.trans (hchain'.prev_eq he hc)
    obtain rfl := hU d (hchain.known d (mem_of_getElem? hd)) e (hchain'.known e (mem_of_getElem? he)) hhash
    rw [take_add_one,take_add_one (l := chain'),ih hd he rfl,hb,hc]

/-- The index has the blocks of `chain` above `start`, up to the one at `k`, and an undo record
takes back the block it is of. -/
structure DogeIndex.Follows (watched : Script → Bool) (start : ℕ) (chain : List DogeBlock) (k : ℕ)
    (x : DogeIndex) : Prop where
  tip : ∃ b, chain[k]? = some b ∧ x.tip = some (k,b.hash)
  start_le : start ≤ k
  entries : x.entries = indexed watched start (chain.take (k+1))
  undos : ∀ h u, x.undos h = some u → h ≤ k → start < h ∧
    (indexed watched start (chain.take (h+1))).write u.writes = indexed watched start (chain.take h)

namespace DogeIndex

theorem take_eq_of_le {n : ℕ} (h : chain.take (k+1)=chain'.take (k+1)) (hn : n≤k+1) :
    chain.take n = chain'.take n := by
  rw [← min_eq_left hn,← take_take,h,take_take]

theorem Follows.lt_length (hx : x.Follows watched start chain k) : k < chain.length := by
  obtain ⟨b,hb,-⟩ := hx.tip
  exact (List.getElem?_eq_some_iff.mp hb).1

theorem Follows.congr (hx : x.Follows watched start chain k) (h : chain.take (k+1)=chain'.take (k+1)) :
    x.Follows watched start chain' k := by
  obtain ⟨b,hb,htip⟩ := hx.tip
  refine ⟨⟨b,?_,htip⟩,hx.start_le,h ▸ hx.entries,fun n u hu hn => ?_⟩
  · rwa [← List.getElem?_take_of_lt (Nat.lt_succ_self k),h,List.getElem?_take_of_lt (Nat.lt_succ_self k)] at hb
  · rw [← take_eq_of_le h (by omega),← take_eq_of_le h (by omega)]
    exact hx.undos n u hu hn

theorem rawTxs_eq {l : List (Hash × MsgTx)} {txs : List (Hash × MsgTx)}
    (hraw : ∀ t∈l, ∀ tx, src.rawTx t.1 = .ok tx → tx = t.2)
    (h : (l.map Prod.fst).mapM (fun txid => do return (txid,← src.rawTx txid)) = .ok txs) : txs = l := by
  induction l generalizing txs with
  | nil =>
    rw [map_nil,mapM_nil,pure_eq_ok] at h
    exact h.symm
  | cons t l ih =>
    simp only [map_cons,mapM_cons,checks_ok] at h
    obtain ⟨-,⟨tx,htx,rfl⟩,rest,hrest,rfl⟩ := h
    rw [ih (fun t ht => hraw t (mem_cons_of_mem _ ht)) hrest,hraw t (mem_cons_self ..) tx htx]

theorem keepUndo_cases {undos : Store ℕ UndoRecord} {u v : UndoRecord}
    (hv : keepUndo undos h u k=some v) : k = h ∧ v = u ∨ k ≠ h ∧ undos k = some v := by
  have hput : update undos h (some u) k = some v := by
    unfold keepUndo at hv
    split at hv
    · by_cases hk : k = h-undoDepth
      · rw [hk,update_self] at hv
        cases hv
      · rwa [update_of_ne hk] at hv
    · exact hv
  by_cases hk : k = h
  · rw [hk,update_self] at hput
    exact .inl ⟨hk,(Option.some.inj hput).symm⟩
  · rw [update_of_ne hk] at hput
    exact .inr ⟨hk,hput⟩

theorem Follows.apply (hx : x.Follows watched start chain k) (hchain : DogeChain U chain)
    (hserves : src.Serves chain) (hb : chain[k+1]? = some b)
    (h : x.apply watched src (k+1) b.hash b.unix b.txids = .ok x') : x'.Follows watched start chain (k+1) := by
  simp only [DogeIndex.apply,checks_ok] at h
  obtain ⟨txs,htxs,rfl⟩ := h
  obtain rfl := rawTxs_eq (hserves.raw b (mem_of_getElem? hb)) htxs
  have hlen : (chain.take (k+1)).length = k+1 := by
    have := hx.lt_length
    rw [length_take]
    omega
  have htake : chain.take (k+1+1) = chain.take (k+1)++[b] := by
    rw [take_add_one,hb,Option.toList_some]
  have hstart : start < (chain.take (k+1)).length := by
    have := hx.start_le
    omega
  refine ⟨⟨b,hb,rfl⟩,hx.start_le.trans (Nat.le_succ k),?_,fun n u hu hn => ?_⟩
  · rw [htake,indexed_concat hstart,hlen,hx.entries]
  · rcases keepUndo_cases hu with ⟨rfl,rfl⟩ | ⟨hne,hold⟩
    · refine ⟨by omega, ?_⟩
      have hundo := indexed_undo watched (htake ▸ hchain.take (k+1+1)) hstart
      rw [htake,hx.entries]
      rwa [hlen] at hundo
    · exact hx.undos n u hold (by omega)

theorem Follows.undo (hx : x.Follows watched start chain k) (h : x.undo src k = .ok x')
    (hprev : ∀ b, chain[k-1]? = some b → ∀ p, src.blockHash (k-1) = .ok p → p = b.hash) :
    x'.Follows watched start chain (k-1) := by
  simp only [DogeIndex.undo,checks_ok] at h
  obtain ⟨u,hu,p,hp,rfl⟩ := h
  obtain ⟨hstart,hwrites⟩ := hx.undos k u hu le_rfl
  have hlt := hx.lt_length
  have hk : k-1+1 = k := by omega
  obtain ⟨b,hb⟩ : ∃ b, chain[k-1]? = some b := ⟨_,List.getElem?_eq_getElem (by omega)⟩
  refine ⟨⟨b,hb,by rw [hprev b hb p hp]⟩,by omega, ?_, fun n v hv hn => ?_⟩
  · rw [hk,hx.entries,hwrites]
  · have hold : update x.undos k none n = some v := hv
    rw [update_of_ne (by omega)] at hold
    exact hx.undos n v hold (by omega)

/-- A turn undoes a tip that is not on the source's chain. From one that is, it applies the next block,
or ends at the last. -/
theorem turn_ok {hash : Hash} (hchain : DogeChain U chain) (hserves : src.Serves chain)
    (htip : x.tip=some (k,hash)) (h : x.turn watched src = .ok (x',go)) : (∃ b, chain[k]? = some b ∧ b.hash = hash ∧
      ((go = true ∧ ∃ c, chain[k+1]? = some c ∧ x.apply watched src (k+1) c.hash c.unix c.txids = .ok x') ∨
        go = false ∧ x' = x ∧ k+1 = chain.length)) ∨
      (¬∃ b, chain[k]? = some b ∧ b.hash = hash) ∧ go = true ∧ x.undo src k = .ok x' := by
  have hoff {b : DogeBlock} (hb : chain[k]? = some b) (hne : b.hash≠hash) :
      ¬∃ b, chain[k]? = some b ∧ b.hash = hash := by
    rintro ⟨c,hc,rfl⟩
    cases hb.symm.trans hc
    exact hne rfl
  simp only [turn,htip,bind_eq_ok] at h
  obtain ⟨best,hbest,h⟩ := h
  have hlength := hserves.count best hbest
  split at h
  · simp only [bind_eq_ok] at h
    obtain ⟨p,hp,h⟩ := h
    obtain ⟨b,hb,rfl⟩ := hserves.hash k p hp
    by_cases heq : b.hash = hash
    · simp only [heq,ne_eq,not_true_eq_false,if_false,pure_eq_ok,Prod.mk.injEq] at h
      have := (List.getElem?_eq_some_iff.mp hb).1
      exact .inl ⟨b,hb,heq,.inr ⟨h.2.symm,h.1.symm,by omega⟩⟩
    · simp only [heq,ne_eq,not_false_eq_true,if_true,checks_ok,Prod.mk.injEq] at h
      obtain ⟨y,hy,rfl,rfl⟩ := h
      exact .inr ⟨hoff hb heq,rfl,hy⟩
  · simp only [bind_eq_ok] at h
    obtain ⟨next,hnext,info,hinfo,h⟩ := h
    obtain ⟨c,hc,rfl⟩ := hserves.hash (k+1) next hnext
    obtain rfl := hserves.info c (mem_of_getElem? hc) info hinfo
    obtain ⟨b,hb⟩ := exists_getElem?_of_succ hc
    by_cases heq : b.hash = hash
    · simp only [hchain.prev_eq hb hc,heq,ne_eq,not_true_eq_false,if_false,checks_ok,Prod.mk.injEq] at h
      obtain ⟨y,hy,rfl,rfl⟩ := h
      exact .inl ⟨b,hb,heq,.inl ⟨rfl,c,hc,hy⟩⟩
    · simp only [hchain.prev_eq hb hc,heq,ne_eq,not_false_eq_true,if_true,checks_ok,Prod.mk.injEq] at h
      obtain ⟨y,hy,rfl,rfl⟩ := h
      exact .inr ⟨hoff hb heq,rfl,hy⟩

theorem Follows.turn (hx : x.Follows watched start chain k) (hchain : DogeChain U chain)
    (hserves : src.Serves chain) (h : x.turn watched src = .ok (x',go)) :
    go = true ∧ x'.Follows watched start chain (k+1) ∨ go = false ∧ x' = x ∧ k+1 = chain.length := by
  obtain ⟨b,hb,htip⟩ := hx.tip
  rcases turn_ok hchain hserves htip h with ⟨-,-,-,⟨hgo,c,hc,happly⟩ | hend⟩ | ⟨hoff,-⟩
  · exact .inl ⟨hgo,hx.apply hchain hserves hc happly⟩
  · exact .inr hend
  · exact absurd ⟨b,hb,rfl⟩ hoff

theorem loop_of_pos {fuel : ℕ} (hfuel : 0<fuel) : loop watched src fuel x =
    match x.turn watched src with
    | .error e => some (x,.error e)
    | .ok (x',true) => loop watched src (fuel-1) x'
    | .ok (x',false) => some (x',.ok ()) := by
  obtain ⟨n,rfl⟩ := Nat.exists_eq_succ_of_ne_zero hfuel.ne'
  rfl

/-- The loop of an index on the source's chain returns, and leaves it on that chain: at its end
where the loop returns without an error. -/
theorem Follows.loop (hx : x.Follows watched start chain k) (hchain : DogeChain U chain)
    (hserves : src.Serves chain) : ∃ x' r, (∀ fuel, chain.length-k ≤ fuel → loop watched src fuel x = some (x',r)) ∧
      ∃ m, x'.Follows watched start chain m ∧ (r = .ok () → m+1 = chain.length) := by
  induction hd : chain.length-k generalizing x k with
  | zero => exact absurd hx.lt_length (by omega)
  | succ d ih =>
    rcases hturn : x.turn watched src with e | ⟨y,go⟩
    · refine ⟨x,.error e,fun fuel hfuel => ?_, k, hx, by simp⟩
      rw [loop_of_pos (by omega),hturn]
    · rcases hx.turn hchain hserves hturn with ⟨rfl,hy⟩ | ⟨rfl,rfl,hend⟩
      · obtain ⟨x',r,hloop,hm⟩ := ih hy (by omega)
        refine ⟨x',r,fun fuel hfuel => ?_, hm⟩
        rw [loop_of_pos (by omega),hturn]
        exact hloop _ (by omega)
      · refine ⟨y,.ok (),fun fuel hfuel => ?_, k, hx, fun _ => hend⟩
        rw [loop_of_pos (by omega),hturn]

/-- At most the block at the tip is not on `chain`: the one it names as its parent is. -/
def Near (U : Set DogeBlock) (chain : List DogeBlock) (x : DogeIndex) : Prop :=
  ∀ k hash, x.tip = some (k+1,hash) → ∀ b∈U, b.hash = hash → ∀ p, chain[k]? = some p → p.hash = b.prev

/-- Where the tip is undone the block below it is on both chains. -/
theorem Near.undone (hU : HashesDiffer U) (hchain : DogeChain U chain) (hchain' : DogeChain U chain')
    (hserves : src.Serves chain') (hnear : x.Near U chain') {t : DogeBlock} (ht : chain[k]? = some t)
    (htip : x.tip=some (k,t.hash)) (hpos : 0<k) (h : x.undo src k = .ok x') :
    chain.take (k-1+1) = chain'.take (k-1+1) ∧
      ∀ b, chain[k-1]? = some b → ∀ p, src.blockHash (k-1) = .ok p → p = b.hash := by
  simp only [undo,checks_ok] at h
  obtain ⟨u,-,p,hp,-⟩ := h
  obtain ⟨k,rfl⟩ := Nat.exists_eq_succ_of_ne_zero hpos.ne'
  simp only [Nat.succ_eq_add_one,Nat.add_sub_cancel] at hp ⊢
  obtain ⟨c,hc,rfl⟩ := hserves.hash k p hp
  obtain ⟨b,hb⟩ := exists_getElem?_of_succ ht
  have hhash : b.hash = c.hash := by
    rw [← hchain.prev_eq hb ht,hnear k t.hash htip t (hchain.known t (mem_of_getElem? ht)) rfl c hc]
  refine ⟨hchain.take_eq hU hchain' hb hc hhash,fun b' hb' p hp' => ?_⟩
  cases hb.symm.trans hb'
  rw [hhash,Except.ok.inj (hp'.symm.trans hp)]

theorem Follows.undo_near (hU : HashesDiffer U) (hx : x.Follows watched start chain k)
    (hchain : DogeChain U chain) (hchain' : DogeChain U chain') (hserves : src.Serves chain')
    (hnear : x.Near U chain') (h : x.undo src k = .ok x') : x'.Follows watched start chain' (k-1) := by
  obtain ⟨t,ht,htip⟩ := hx.tip
  have hpos : 0 < k := by
    simp only [DogeIndex.undo,checks_ok] at h
    obtain ⟨u,hu,-⟩ := h
    exact Nat.zero_lt_of_lt (hx.undos k u hu le_rfl).1
  obtain ⟨htake,hprev⟩ := hnear.undone hU hchain hchain' hserves ht htip hpos h
  exact (hx.undo h hprev).congr htake

theorem Follows.loop_near (hU : HashesDiffer U) (hx : x.Follows watched start chain k)
    (hchain : DogeChain U chain) (hchain' : DogeChain U chain') (hserves : src.Serves chain')
    (hnear : x.Near U chain') : ∃ x' r, (∀ fuel, chain'.length+2 ≤ fuel →
      DogeIndex.loop watched src fuel x = some (x',r)) ∧ ((x' = x ∧ ∃ e, r = .error e) ∨
        ∃ m, x'.Follows watched start chain' m ∧ (r = .ok () → m+1 = chain'.length)) := by
  obtain ⟨b,hb,htip⟩ := hx.tip
  by_cases hon : ∃ c, chain'[k]? = some c ∧ c.hash = b.hash
  · obtain ⟨c,hc,hhash⟩ := hon
    have hx' := hx.congr (hchain.take_eq hU hchain' hb hc hhash.symm)
    obtain ⟨x',r,hloop,hm⟩ := hx'.loop hchain' hserves
    exact ⟨x',r,fun fuel hfuel => hloop fuel (by omega), .inr hm⟩
  · rcases hturn : x.turn watched src with e | ⟨y,go⟩
    · refine ⟨x,.error e,fun fuel hfuel => ?_, .inl ⟨rfl,e,rfl⟩⟩
      rw [loop_of_pos (by omega),hturn]
    · obtain ⟨c,hc,hhash,-⟩ | ⟨-,rfl,hundo⟩ := turn_ok hchain' hserves htip hturn
      · exact absurd ⟨c,hc,hhash⟩ hon
      obtain ⟨x',r,hloop,hm⟩ := (hx.undo_near hU hchain hchain' hserves hnear hundo).loop hchain' hserves
      refine ⟨x',r,fun fuel hfuel => ?_, .inr hm⟩
      rw [loop_of_pos (by omega),hturn]
      exact hloop _ (by omega)

/-! ## Every state `sync` reaches -/

/-- What `sync` leaves, run after run, of an empty database: the height the index starts at, once
it has, and the database. No reorganisation replaced more than the block at the tip. -/
inductive Reached (watched : Script → Bool) (U : Set DogeBlock) : Option ℕ → DogeIndex → Prop where
  | empty : Reached watched U none .empty
  | sync {start x x' src chain fuel r} (reached : Reached watched U start x) (blocks : DogeChain U chain)
      (serves : src.Serves chain) (near : x.Near U chain)
      (run : x.sync watched src fuel=some (x',r)) :
      Reached watched U (start <|> x'.tip.map Prod.fst) x'

theorem turn_empty (hserves : src.Serves chain) (h : empty.turn watched src = .ok (x',go)) :
    go = false ∧ ∃ m, m+1 = chain.length ∧ x'.Follows watched m chain m := by
  simp only [turn,empty,checks_ok,Prod.mk.injEq] at h
  obtain ⟨best,hbest,p,hp,rfl,rfl⟩ := h
  obtain ⟨b,hb,rfl⟩ := hserves.hash best p hp
  refine ⟨rfl,best,(hserves.count best hbest).symm,⟨b,hb,rfl⟩,le_rfl,?_,fun h u hu => by cases hu⟩
  have hnone : (chain.take (best+1)).drop (best+1) = [] := by
    rw [drop_eq_nil_iff,length_take]
    omega
  rw [indexed,hnone]
  rfl

theorem sync_cases (hU : HashesDiffer U) (hchain' : DogeChain U chain') (hserves : src.Serves chain')
    (hnear : x.Near U chain') {st : Option ℕ}
    (hx : (st = none ∧ x = empty) ∨ ∃ s chain k, st = some s ∧ DogeChain U chain ∧ x.Follows watched s chain k) :
    ∃ x' r, (∀ fuel, chain'.length+2 ≤ fuel → loop watched src fuel x = some (x',r)) ∧
      ((x' = x ∧ ∃ e, r = .error e) ∨ ∃ s m, (st <|> x'.tip.map Prod.fst) = some s ∧
        x'.Follows watched s chain' m ∧ (r = .ok () → m+1 = chain'.length)) := by
  rcases hx with ⟨rfl,rfl⟩ | ⟨s,chain,k,rfl,hchain,hx⟩
  · rcases hturn : empty.turn watched src with e | ⟨y,go⟩
    · refine ⟨empty,.error e,fun fuel hfuel => ?_, .inl ⟨rfl,e,rfl⟩⟩
      rw [loop_of_pos (by omega),hturn]
    · obtain ⟨rfl,m,hm,hy⟩ := turn_empty hserves hturn
      refine ⟨y,.ok (),fun fuel hfuel => ?_, .inr ⟨m,m,?_,hy,fun _ => hm⟩⟩
      · rw [loop_of_pos (by omega),hturn]
      · obtain ⟨b,-,htip⟩ := hy.tip
        rw [htip]
        rfl
  · obtain ⟨x',r,hloop,herr | ⟨m,hm,hend⟩⟩ := hx.loop_near hU hchain hchain' hserves hnear
    · exact ⟨x',r,hloop,.inl herr⟩
    · exact ⟨x',r,hloop,.inr ⟨s,m,rfl,hm,hend⟩⟩

theorem loop_add {fuel n : ℕ} {out : DogeIndex × Except String Unit}
    (h : loop watched src fuel x=some out) : loop watched src (fuel+n) x = some out := by
  induction fuel generalizing x with
  | zero => cases h
  | succ fuel ih =>
    rw [Nat.succ_add]
    rw [loop] at h ⊢
    rcases hturn : x.turn watched src with e | ⟨y,_ | _⟩ <;> rw [hturn] at h
    · exact h
    · exact h
    · exact ih h

theorem Reached.follows (hU : HashesDiffer U) {st : Option ℕ} (h : Reached watched U st x) :
    (st = none ∧ x = .empty) ∨ ∃ s chain k, st = some s ∧ DogeChain U chain ∧ x.Follows watched s chain k := by
  induction h with
  | empty => exact .inl ⟨rfl,rfl⟩
  | @sync st x x' src chain fuel r _ hchain serves near run ih =>
    -- a run that wrote nothing leaves the start as it was
    have hsame : (st <|> x.tip.map Prod.fst) = st := by
      rcases ih with ⟨rfl,rfl⟩ | ⟨s,-,-,rfl,-⟩ <;> rfl
    rw [DogeIndex.sync] at run
    split at run
    · cases run
      rwa [hsame]
    · cases run
      rwa [hsame]
    · obtain ⟨y,r',hloop,hy⟩ := sync_cases hU hchain serves near ih
      have hout := (hloop _ (Nat.le_add_left _ fuel)).symm.trans (loop_add run)
      cases hout
      rcases hy with ⟨rfl,-⟩ | ⟨s,m,hs,hm,-⟩
      · rwa [hsame]
      · exact .inr ⟨s,chain,m,hs,hchain,hm⟩

end DogeIndex

end Follow

/-- Where no reorganisation replaces more than the block at the index's tip, `sync` of a synced
node returns, and where it returns without an error the tip is the source's best block and the
entries are those of the best chain's blocks above the start, applied in order. -/
theorem dogeIndex_sync_follows {watched : Script → Bool} {U : Set DogeBlock} (hU : HashesDiffer U)
    {start : Option ℕ} {x : DogeIndex} (hx : DogeIndex.Reached watched U start x) {src : DogeSource}
    {chain : List DogeBlock} (hchain : DogeChain U chain) (hserves : src.Serves chain)
    (hsynced : src.synced = .ok true) (hnear : x.Near U chain) :
    ∃ x' r, (∀ fuel, chain.length+2 ≤ fuel → x.sync watched src fuel = some (x',r)) ∧
      (r = .ok () → ∃ s b, (start <|> x'.tip.map Prod.fst) = some s ∧
        chain[chain.length-1]? = some b ∧ x'.tip = some (chain.length-1,b.hash) ∧
        x'.entries = indexed watched s chain) := by
  obtain ⟨x',r,hloop,hcases⟩ := sync_cases hU hchain hserves hnear (hx.follows hU)
  refine ⟨x',r,fun fuel hfuel => ?_, ?_⟩
  · rw [sync,hsynced]
    exact hloop fuel hfuel
  · rintro rfl
    rcases hcases with ⟨-,e,he⟩ | ⟨s,m,hs,hm,hend⟩
    · cases he
    · have hlast := hend rfl
      obtain ⟨b,hb,htip⟩ := hm.tip
      obtain rfl : m = chain.length-1 := by omega
      refine ⟨s,b,hs,hb,htip,?_⟩
      rw [hm.entries,hlast,take_length]

/-! ## A reorganisation two blocks deep -/

/-- A synced node with the blocks of `chain`. -/
def DogeSource.ofChain (chain : List DogeBlock) : DogeSource where
  synced := .ok true
  blockCount := .ok (chain.length-1)
  blockHash h := found (chain[h]?.map hash) "no such block"
  blockInfo hash := found ((chain.find? (·.hash = hash)).map fun b => ⟨b.prev,b.unix,b.txids⟩) "no such block"
  rawTx txid := found ((chain.flatMap txs).lookup txid) "no such transaction"

section OfChain

variable {chain : List DogeBlock}

theorem DogeSource.serves_ofChain (hne : chain≠[]) (hhashes : (chain.map hash).Nodup)
    (htxids : (chain.flatMap txids).Nodup) : (DogeSource.ofChain chain).Serves chain where
  count := by
    intro n hn
    cases hn
    have := length_pos_of_ne_nil hne
    omega
  hash := by
    intro h x hx
    simpa only [ofChain,found_eq_ok,Option.map_eq_some_iff] using hx
  info := by
    intro b hb i hi
    simp only [ofChain,found_eq_ok,Option.map_eq_some_iff] at hi
    obtain ⟨c,hc,rfl⟩ := hi
    have hhash := List.find?_some hc
    rw [inj_on_of_nodup_map hhashes (mem_of_find?_eq_some hc) hb (of_decide_eq_true hhash)]
  raw := by
    intro b hb t ht tx htx
    simp only [ofChain,found_eq_ok] at htx
    obtain ⟨l₁,l₂,heq,-⟩ := lookup_eq_some_iff.mp htx
    have hmem : (t.1,tx)∈chain.flatMap txs := heq ▸ mem_append_right _ (mem_cons_self ..)
    have hnodup : ((chain.flatMap txs).map Prod.fst).Nodup := by
      rwa [map_flatMap]
    have hsame := inj_on_of_nodup_map hnodup hmem (mem_flatMap.mpr ⟨b,hb,ht⟩) rfl
    exact congrArg Prod.snd hsame

end OfChain

section Sample

def watchesOne (script : Script) : Bool := script = [1]

def paidBlock (hash prev : Hash) (script : Script) : DogeBlock :=
  ⟨hash,prev,0,[(hash,⟨1,[],[⟨5,script⟩],0,one_le_maxTxOut⟩)]⟩

/-- Two blocks on the first one, the lower of which pays a watched script. -/
def replacedChain : List DogeBlock := [paidBlock 1 0 [],paidBlock 11 1 [1],paidBlock 12 11 []]

/-- Three blocks on the first one, none of which does. -/
def longerChain : List DogeBlock :=
  [paidBlock 1 0 [],paidBlock 21 1 [],paidBlock 22 21 [],paidBlock 23 22 []]

/-- The index after the first block, then `old` and then `longerChain`. -/
def reorganised (old : List DogeBlock) : Option (DogeIndex × Except String Unit) := do
  let first ← empty.sync watchesOne (.ofChain (old.take 1)) 10
  let second ← first.1.sync watchesOne (.ofChain old) 10
  second.1.sync watchesOne (.ofChain longerChain) 10

/-- The upper of the two replaced blocks is undone, and the tip moved to the new chain's block
below it: the payment in the lower one stays, and the block in its place is never applied. -/
theorem deep_reorganisation_keeps_replaced_block :
    (reorganised replacedChain).map (fun r => (r.2.isOk,r.1.tip,r.1.entries (.utxo [1] ⟨11,0⟩))) =
      some (true,some (3,23),some (.utxo 5 1)) ∧ indexed watchesOne 0 longerChain (.utxo [1] ⟨11,0⟩) = none := by
  decide +kernel

def sampleBlocks : Set DogeBlock := {b | b ∈ replacedChain++longerChain}

theorem sampleBlocks_hashesDiffer : HashesDiffer sampleBlocks := by
  change ∀ b∈replacedChain++longerChain, ∀ c∈replacedChain++longerChain, b.hash = c.hash → b = c
  decide +kernel

/-- A replaced block that is alone is undone, and the new chain is indexed. -/
theorem shallow_reorganisation_follows : ∃ x x' r,
    DogeIndex.Reached watchesOne sampleBlocks (some 0) x ∧ x.tip = some (1,11) ∧
      (∀ fuel, 6 ≤ fuel → x.sync watchesOne (.ofChain longerChain) fuel = some (x',r)) ∧
      (r = .ok () → x'.tip = some (3,23) ∧ x'.entries = indexed watchesOne 0 longerChain) := by
  have hold (n : ℕ) : DogeChain sampleBlocks (replacedChain.take n) := by
    refine DogeChain.take ⟨fun b hb => mem_append_left _ hb, ?_, ?_⟩ n <;> decide +kernel
  have hnew : DogeChain sampleBlocks longerChain := by
    refine ⟨fun b hb => mem_append_right _ hb, ?_, ?_⟩ <;> decide +kernel
  have hserves (chain : List DogeBlock) (h : chain ≠ [] ∧ (chain.map hash).Nodup ∧
      (chain.flatMap txids).Nodup) : (DogeSource.ofChain chain).Serves chain :=
    DogeSource.serves_ofChain h.1 h.2.1 h.2.2
  have hfirst : DogeIndex.Reached watchesOne sampleBlocks (some 0) ⟨some (0,1),fun _ => none, fun _ => none⟩ :=
    .sync .empty (hold 1) (hserves _ (by decide +kernel)) (fun k hash h => by cases h)
      (show sync watchesOne (.ofChain (replacedChain.take 1)) 1 .empty = some (_,.ok ()) from rfl)
  obtain ⟨x,hx,htip⟩ : ∃ x, sync watchesOne (.ofChain (replacedChain.take 2)) 3
      ⟨some (0,1),fun _ => none, fun _ => none⟩ = some (x,.ok ()) ∧ x.tip = some (1,11) := ⟨_,rfl,rfl⟩
  have hreached : DogeIndex.Reached watchesOne sampleBlocks (some 0) x :=
    .sync hfirst (hold 2) (hserves _ (by decide +kernel)) (fun k hash h => by cases h) hx
  have hnear : x.Near sampleBlocks longerChain := by
    intro k hash h b hb hhash p hp
    obtain ⟨hk,rfl⟩ := Prod.mk.inj (Option.some.inj (htip.symm.trans h))
    obtain rfl : k = 0 := by omega
    cases hp
    have hparent : ∀ b∈replacedChain++longerChain, b.hash = 11 → 1 = b.prev := by decide +kernel
    exact hparent b hb hhash
  obtain ⟨x',r,hsync,hok⟩ := dogeIndex_sync_follows sampleBlocks_hashesDiffer hreached hnew
    (hserves _ (by decide +kernel)) rfl hnear
  refine ⟨x,x',r,hreached,htip,hsync,fun hr => ?_⟩
  obtain ⟨s,b,hs,hb,htip',hentries⟩ := hok hr
  cases hs
  cases hb
  exact ⟨htip',hentries⟩

end Sample

end DogePeg
