import DogePeg.Web.Unspent

/-!
# Imported payments

`importTx` writes entries outside the blocks' undo records. Called with the index at the transaction's
block or above, for a transaction that is not in the script's history yet, and while no reorganisation
takes that block back, it leaves the index as if the payment had been stored since its block.
-/

namespace DogePeg

open Amounts Batches Checks List BlockBatch WalletIndex Store DogeIndex IndexKey DogeBlock

variable {j : ℕ}
open Function (update update_of_ne update_self)

/-! ## The keys a block writes -/

/-- An undo record of a block: it put entries of the block's transactions, and deleted entries of
outputs they spend. -/
structure RecordOf (b : DogeBlock) (u : Undo IndexKey IndexValue) : Prop where
  put : ∀ k∈u.put, k.txid∈b.txids
  deleted : ∀ e∈u.deleted, ∃ op∈b.txs.zipIdx.flatMap blockSpends, e.1 = .owner op ∨ ∃ s, e.1 = .utxo s op

section Records

variable {watched : Script → Bool} {entries : IndexEntries} {height : ℕ} {unix : ℤ} {b : DogeBlock}

/-- What a batch has deleted is of outputs spent. -/
def DeletesSpent (ops : List OutPoint) (b : BlockBatch) : Prop :=
  ∀ e∈b.undo.deleted, ∃ op∈ops, e.1 = .owner op ∨ ∃ s, e.1 = .utxo s op

theorem DeletesSpent.spend {ops : List OutPoint} {acc : BlockBatch × Nets} (h : DeletesSpent ops acc.1)
    {op : OutPoint} (hop : op∈ops) : DeletesSpent ops (spend entries acc op).1 := by
  fun_cases BlockBatch.spend entries acc op with
  | case1 => exact h
  | case2 _ script _ value height' _ =>
    intro e he
    simp only [del,mem_append,mem_singleton] at he
    rcases he with (he | rfl) | rfl
    · exact h e he
    · exact ⟨op,hop,.inr ⟨script,rfl⟩⟩
    · exact ⟨op,hop,.inl rfl⟩
  | case3 => exact h
  | case4 => exact h

theorem DeletesSpent.transaction {ops : List OutPoint} {b : BlockBatch} {t : (Hash × MsgTx) × ℕ}
    (h : DeletesSpent ops b) (ht : ∀ op∈blockSpends t, op∈ops) :
    DeletesSpent ops (b.transaction watched entries height unix t) := by
  have hspent : DeletesSpent ops
      (if 0 < t.2 then t.1.2.spends.foldl (BlockBatch.spend entries) (b,[]) else (b,[])).1 := by
    split
    · next hpos =>
      rw [blockSpends,if_pos hpos] at ht
      exact List.foldlRecOn t.1.2.spends _ (motive := fun acc : BlockBatch × Nets => DeletesSpent ops acc.1) h
        fun acc hacc op hop => hacc.spend (ht op hop)
    · exact h
  have hpaid := List.foldlRecOn t.1.2.txOut.zipIdx (pay watched height t.1.1)
    (motive := fun acc : BlockBatch × Nets => DeletesSpent ops acc.1) hspent fun acc hacc out _ => by
      unfold pay
      split
      · exact hacc
      · exact hacc
  exact List.foldlRecOn _ _ (motive := fun b => DeletesSpent ops b) hpaid fun b hb n _ => hb

theorem recordOf_block (watched : Script → Bool) (entries : IndexEntries) (height : ℕ) (b : DogeBlock) :
    RecordOf b (BlockBatch.block watched entries height b.unix b.txs).undo where
  put := (sound_block watched entries height b.unix b.txs).fresh
  deleted := List.foldlRecOn b.txs.zipIdx _
    (motive := fun batch => DeletesSpent (b.txs.zipIdx.flatMap blockSpends) batch)
    (fun e he => by simp [BlockBatch.empty] at he)
    fun batch hbatch t ht => hbatch.transaction fun op hop => mem_flatMap.mpr ⟨t,ht,hop⟩

theorem write_block_of_other {k : IndexKey} (hk : k.txid∉b.txids)
    (hspent : ∀ op∈b.txs.zipIdx.flatMap blockSpends, k ≠ .owner op ∧ ∀ s, k ≠ .utxo s op) :
    entries.write (block watched entries height b.unix b.txs).writes k = entries k := by
  have hsound := sound_block watched entries height b.unix b.txs
  have hrecord := recordOf_block watched entries height b
  refine write_of_ne fun w hw => ?_
  rintro rfl
  cases w with
  | put key v => exact hk (hrecord.put key (hsound.undo.put key v hw))
  | delete key =>
    rcases hsound.undo.delete key hw with hput | hdel
    · exact hk (hrecord.put key hput)
    · obtain ⟨e,he,rfl⟩ := mem_map.mp hdel
      obtain ⟨op,hop,howner | ⟨s,hutxo⟩⟩ := hrecord.deleted e he
      · exact (hspent op hop).1 howner
      · exact (hspent op hop).2 s hutxo

theorem history_write_block {s : Script} {txid : Hash}
    (hfresh : ∀ k, entries k ≠ none → k.txid ∉ b.txs.map Prod.fst) (h : entries (.history s j txid)≠none) :
    entries.write (block watched entries height b.unix b.txs).writes (.history s j txid) ≠ none := by
  have hsound := sound_block watched entries height b.unix b.txs
  have hrecord := recordOf_block watched entries height b
  rcases write_cases entries (block watched entries height b.unix b.txs).writes (.history s j txid)
    with ⟨-,heq⟩ | ⟨w,hw,hkey,heq⟩
  · rwa [heq]
  · rw [heq]
    cases w with
    | put key v => exact Option.some_ne_none v
    | delete key =>
      obtain rfl : key = _ := hkey
      rcases hsound.undo.delete _ hw with hput | hdel
      · exact absurd (hrecord.put _ hput) (hfresh _ h)
      · obtain ⟨e,he,hkey⟩ := mem_map.mp hdel
        obtain ⟨op,-,howner | ⟨s',hutxo⟩⟩ := hrecord.deleted e he
        · cases hkey.symm.trans howner
        · cases hkey.symm.trans hutxo

end Records

variable {chain : List DogeBlock} {body : Hash → MsgTx} {imports : List Import}

theorem unspents_at {U : Set DogeBlock} {op : OutPoint} {out : TxOut} {m : ℕ}
    (hchain : DogeChain U chain) (h : unspents chain op=some (out,j)) (hjm : j ≤ m) (hm : m<chain.length) :
    unspents (chain.take (m+1)) op = some (out,j) ∧
      ∀ i b, m < i → chain[i]? = some b → op ∉ b.txs.zipIdx.flatMap blockSpends := by
  obtain ⟨n,hn⟩ : ∃ n, chain.length = n+1 := ⟨chain.length-1,by omega⟩
  rw [← chain.take_length,hn] at h
  obtain ⟨hunspent,hfree⟩ := unspents_since hchain h (by omega) hjm (by omega)
  refine ⟨hunspent,fun i b hi hb => hfree i b hi ?_ hb⟩
  have := (List.getElem?_eq_some_iff.mp hb).1
  omega

/-! ## The levels of an index -/

/-- A payment imported: the transaction's block, and the outputs to the script that were unspent. -/
structure Import where
  script : Script
  txid : Hash
  height : ℕ
  unix : ℤ
  payments : List (OutPoint × Int64)

/-- Where the imported transaction is: in the chain, up to `floor`. -/
structure Import.Located (body : Hash → MsgTx) (chain : List DogeBlock) (floor : ℕ) (i : Import) : Prop where
  block : ∃ b, chain[i.height]? = some b ∧ (i.txid,body i.txid)∈b.txs ∧ i.unix = b.unix
  height_le : i.height ≤ floor
  ops : ∀ p∈i.payments, p.1.hash = i.txid

/-- The entries at the block of height `h`: those of the chain up to it, with the imports as if they
had been there since their blocks. -/
structure Level (body : Hash → MsgTx) (chain : List DogeBlock) (imports : List Import) (h : ℕ)
    (e : IndexEntries) : Prop extends Mirrors body (unspents (chain.take (h+1))) e where
  known : ∀ k, e k ≠ none → k.txid∈(chain.take (h+1)).flatMap txids
  imported : ∀ i∈imports, ∀ p∈i.payments, unspents (chain.take (h+1)) p.1 ≠ none →
    e (.utxo i.script p.1) = some (.utxo p.2 i.height) ∧ e (.owner p.1) = some (.owner i.script)
  entered : ∀ i∈imports, e (.history i.script i.height i.txid) =
    some (.history (total (i.payments.map Prod.snd)) i.unix)

/-- The index has indexed `chain` from the block after `start` up to `k`. `E` are the entries at each
block from `floor` on, which the undo records lead back to. -/
structure Levels (body : Hash → MsgTx) (imports : List Import) (floor start : ℕ) (E : ℕ → IndexEntries)
    (chain : List DogeBlock) (k : ℕ) (x : DogeIndex) : Prop where
  tip : ∃ b, chain[k]? = some b ∧ x.tip = some (k,b.hash)
  floor_le : floor ≤ k
  start_le : start ≤ k
  entries : x.entries = E k
  levels : ∀ h, floor ≤ h → start ≤ h → h ≤ k → Level body chain imports h (E h)
  grows : ∀ h, floor ≤ h → start ≤ h → h < k → ∀ s j txid, E h (.history s j txid) ≠ none →
    E (h+1) (.history s j txid) ≠ none
  undos : ∀ h u, x.undos h = some u → h ≤ k → start < h ∧ (floor < h →
    (∃ b, chain[h]? = some b ∧ RecordOf b u.toUndo) ∧ (E h).write u.writes = E (h-1))
  located : ∀ i∈imports, i.Located body chain floor

section Levels

variable {body : Hash → MsgTx} {imports : List Import} {floor start k : ℕ} {E : ℕ → IndexEntries}
  {U : Set DogeBlock} {chain chain' : List DogeBlock} {x x' : DogeIndex} {b c : DogeBlock} {src : DogeSource}
  {watched : Script → Bool}

namespace Levels

variable (hx : Levels body imports floor start E chain k x)

include hx

theorem lt_length : k < chain.length := by
  obtain ⟨b,hb,-⟩ := hx.tip
  exact (List.getElem?_eq_some_iff.mp hb).1

theorem congr (h : chain.take (k+1)=chain'.take (k+1)) : Levels body imports floor start E chain' k x := by
  have hget {n : ℕ} (hn : n≤k) : chain[n]? = chain'[n]? := by
    rw [← List.getElem?_take_of_lt (Nat.lt_succ_of_le hn),h,List.getElem?_take_of_lt (Nat.lt_succ_of_le hn)]
  refine ⟨hget le_rfl ▸ hx.tip,hx.floor_le,hx.start_le,hx.entries,fun n hfloor hstart hn => ?_, hx.grows,
    fun n u hu hn => ?_, fun i hi => ?_⟩
  · have hlevel := hx.levels n hfloor hstart hn
    have hsame := take_eq_of_le h (Nat.succ_le_succ hn)
    exact ⟨hsame ▸ hlevel.toMirrors,hsame ▸ hlevel.known,hsame ▸ hlevel.imported,hlevel.entered⟩
  · rw [← hget hn]
    exact hx.undos n u hu hn
  · obtain ⟨hblock,hle,hops⟩ := hx.located i hi
    exact ⟨hget (hle.trans hx.floor_le) ▸ hblock,hle,hops⟩

theorem undo (hfloor : floor<k) (h : x.undo src k = .ok x')
    (hprev : ∀ b, chain[k-1]? = some b → ∀ p, src.blockHash (k-1) = .ok p → p = b.hash) :
    Levels body imports floor start E chain (k-1) x' := by
  simp only [DogeIndex.undo,checks_ok] at h
  obtain ⟨u,hu,p,hp,rfl⟩ := h
  obtain ⟨hstart,hrecord⟩ := hx.undos k u hu le_rfl
  have hlt := hx.lt_length
  obtain ⟨b,hb⟩ : ∃ b, chain[k-1]? = some b := ⟨_,List.getElem?_eq_getElem (by omega)⟩
  refine ⟨⟨b,hb,by rw [hprev b hb p hp]⟩,by omega, by omega, ?_, fun n hn hn' hle => ?_, fun n hn hn' hle => ?_,
    fun n v hv hle => ?_, hx.located⟩
  · rw [hx.entries,(hrecord hfloor).2]
  · exact hx.levels n hn hn' (by omega)
  · exact hx.grows n hn hn' (by omega)
  · have hold : update x.undos k none n = some v := hv
    rw [update_of_ne (by omega)] at hold
    exact hx.undos n v hold (by omega)

variable (hbody : ∀ b∈U, ∀ t∈b.txs, t.2 = body t.1) (hspends : ∀ b∈U, (b.txs.zipIdx.flatMap blockSpends).Nodup)

include hbody hspends

theorem apply (hchain : DogeChain U chain) (hserves : src.Serves chain) (hc : chain[k+1]? = some c)
    (h : x.apply watched src (k+1) c.hash c.unix c.txids = .ok x') :
    Levels body imports floor start (update E (k+1) x'.entries) chain (k+1) x' := by
  simp only [DogeIndex.apply,checks_ok] at h
  obtain ⟨txs,htxs,rfl⟩ := h
  obtain rfl := rawTxs_eq (hserves.raw c (mem_of_getElem? hc)) htxs
  have hmem := hchain.known c (mem_of_getElem? hc)
  have hlt := hx.lt_length
  have htake : chain.take (k+1+1) = chain.take (k+1)++[c] := by
    rw [take_add_one,hc,Option.toList_some]
  have hlength : (chain.take (k+1)).length = k+1 := by
    rw [length_take]
    omega
  have hnodup := (htake ▸ hchain.take (k+1+1)).nodup
  rw [flatMap_append,flatMap_singleton,nodup_append] at hnodup
  obtain ⟨-,hids,hapart⟩ := hnodup
  have hlevel := hx.levels k hx.floor_le hx.start_le le_rfl
  rw [← hx.entries] at hlevel
  have hfresh : ∀ key, x.entries key ≠ none → key.txid ∉ c.txs.map Prod.fst :=
    fun key hkey hin => hapart _ (hlevel.known key hkey) _ hin rfl
  have hunspents : unspents (chain.take (k+1+1)) = Unspents.block (k+1) (unspents (chain.take (k+1))) c.txs := by
    rw [htake,unspents_concat,hlength]
  -- an imported transaction is in a block below
  have hbelow : ∀ i∈imports, i.txid ∉ c.txids := by
    intro i hi hin
    obtain ⟨⟨b,hb,ht,-⟩,hle,-⟩ := hx.located i hi
    refine hapart i.txid (mem_flatMap.mpr ⟨b,?_,mem_map_of_mem ht⟩) i.txid hin rfl
    have := hx.floor_le
    exact mem_of_getElem? ((List.getElem?_take_of_lt (by omega)).trans hb)
  have hnew : Level body chain imports (k+1) (x.entries.write
      (block watched x.entries (k+1) c.unix c.txs).writes) := by
    refine ⟨?_,fun key hkey => ?_, fun i hi p hp hp' => ?_, fun i hi => ?_⟩
    · rw [hunspents,write_block watched (k+1) c.unix (hspends c hmem)]
      exact hlevel.toMirrors.block (hbody c hmem) hids hfresh
    · rw [htake,flatMap_append,flatMap_singleton,mem_append]
      refine (mem_of_write hkey).imp (hlevel.known key) fun ⟨v,hv⟩ => ?_
      have hsound := sound_block watched x.entries (k+1) c.unix c.txs
      exact hsound.fresh key (hsound.undo.put key v hv)
    · have hhash := (hx.located i hi).ops p hp
      have hnot : p.1.hash ∉ c.txids := hhash ▸ hbelow i hi
      rw [hunspents,block_of_not_mem hnot] at hp'
      split at hp'
      · exact absurd rfl hp'
      · next hspent =>
        have hother (key : IndexKey) (hkey : key.txid=p.1.hash)
            (hop : ∀ op, key = .owner op ∨ (∃ s, key = .utxo s op) → op = p.1) :
            x.entries.write (block watched x.entries (k+1) c.unix c.txs).writes key = x.entries key := by
          refine write_block_of_other (hkey ▸ hnot) fun op hin => ⟨fun heq => ?_, fun s heq => ?_⟩
          · exact hspent (hop op (.inl heq) ▸ hin)
          · exact hspent (hop op (.inr ⟨s,heq⟩) ▸ hin)
        obtain ⟨hutxo,howner⟩ := hlevel.imported i hi p hp hp'
        rw [hother _ rfl (by rintro op (h | ⟨s,h⟩) <;> cases h; rfl),
          hother _ rfl (by rintro op (h | ⟨s,h⟩) <;> cases h; rfl)]
        exact ⟨hutxo,howner⟩
    · rw [write_block_of_other (hbelow i hi) (by simp)]
      exact hlevel.entered i hi
  have hE {h : ℕ} (hh : h≤k) {e : IndexEntries} : update E (k+1) e h = E h := update_of_ne (by omega) ..
  refine ⟨⟨c,hc,rfl⟩,by have := hx.floor_le; omega, by have := hx.start_le; omega, ?_, fun h hfloor hstart hle => ?_,
    fun h hfloor hstart hle s j txid => ?_, fun h u hu hle => ?_, hx.located⟩
  · rw [update_self]
  · rcases Nat.eq_or_lt_of_le hle with rfl | hlt
    · rw [update_self]
      exact hnew
    · rw [hE (by omega)]
      exact hx.levels h hfloor hstart (by omega)
  · rw [hE (by omega)]
    rcases Nat.eq_or_lt_of_le (Nat.lt_succ_iff.mp hle) with rfl | hlt
    · rw [update_self,← hx.entries]
      exact history_write_block hfresh
    · rw [hE (by omega)]
      exact hx.grows h hfloor hstart hlt s j txid
  · rcases keepUndo_cases hu with ⟨rfl,rfl⟩ | ⟨hne,hold⟩
    · refine ⟨by have := hx.start_le; omega, fun _ => ⟨⟨c,hc,recordOf_block watched x.entries (k+1) c⟩,?_⟩⟩
      rw [update_self,Nat.add_sub_cancel,hE le_rfl,← hx.entries]
      exact block_undo hfresh
    · have hle : h ≤ k := by omega
      rw [hE hle,hE (by omega)]
      exact hx.undos h u hold hle

theorem turn (hchain : DogeChain U chain) (hserves : src.Serves chain)
    {go : Bool} (h : x.turn watched src = .ok (x',go)) : ∃ E k, Levels body imports floor start E chain k x' := by
  obtain ⟨b,hb,htip⟩ := hx.tip
  rcases turn_ok hchain hserves htip h with ⟨-,-,-,⟨-,c,hc,happly⟩ | ⟨-,rfl,-⟩⟩ | ⟨hoff,-⟩
  · exact ⟨_,_,hx.apply hbody hspends hchain hserves hc happly⟩
  · exact ⟨_,_,hx⟩
  · exact absurd ⟨b,hb,rfl⟩ hoff

/-- A run of `sync`, on a chain without the block at the tip at most, and with that one where the
last of the imports is in it. -/
theorem sync (hU : HashesDiffer U) (hchain : DogeChain U chain) (hchain' : DogeChain U chain')
    (hserves : src.Serves chain') (hnear : x.Near U chain')
    (hkeeps : ∀ height hash, x.tip = some (height,hash) → height ≤ floor →
      ∃ b, chain'[height]? = some b ∧ b.hash = hash) {fuel : ℕ} {r : Except String Unit}
    (h : x.sync watched src fuel=some (x',r)) :
    ∃ E chain k, DogeChain U chain ∧ Levels body imports floor start E chain k x' := by
  -- until the first turn the index may be off the source's chain
  have hrun : x' = x ∨ ∃ E k, Levels body imports floor start E chain' k x' := by
    refine sync_keeps (P := fun y => y = x ∨ ∃ E k, Levels body imports floor start E chain' k y) ?_ (.inl rfl) h
    rintro y y' go (rfl | ⟨E,k,hy⟩) hturn
    · obtain ⟨b,hb,htip⟩ := hx.tip
      rcases turn_ok hchain' hserves htip hturn with ⟨c,hc,hhash,-⟩ | ⟨hoff,-,hundo⟩
      · have hx' := hx.congr (hchain.take_eq hU hchain' hb hc hhash.symm)
        exact .inr (hx'.turn hbody hspends hchain' hserves hturn)
      · have hfloor : floor < k := by
          by_contra hle
          exact hoff (hkeeps k b.hash htip (by omega))
        obtain ⟨htake,hprev⟩ := hnear.undone hU hchain hchain' hserves hb htip (Nat.zero_lt_of_lt hfloor) hundo
        exact .inr ⟨E,k-1,(hx.undo hfloor hundo hprev).congr htake⟩
    · exact .inr (hy.turn hbody hspends hchain' hserves hturn)
  rcases hrun with rfl | ⟨E',k',hx'⟩
  · exact ⟨E,chain,k,hchain,hx⟩
  · exact ⟨E',chain',k',hchain',hx'⟩

end Levels

end Levels

/-! ## The batch of an import -/

/-- The batch of an import. -/
def Import.writes (i : Import) : List (Write IndexKey IndexValue) :=
  importWrites i.script i.txid i.height i.unix i.payments

section Batch

variable (e : IndexEntries) (i : Import)

theorem Import.mem_writes {i : Import} {w : Write IndexKey IndexValue} : w∈i.writes ↔
    (∃ p∈i.payments, w = .put (.utxo i.script p.1) (.utxo p.2 i.height) ∨ w = .put (.owner p.1) (.owner i.script)) ∨
      w = .put (.history i.script i.height i.txid) (.history (total (i.payments.map Prod.snd)) i.unix) := by
  simp [Import.writes,importWrites,mem_flatMap]

theorem Import.utxo_cases (s : Script) (op : OutPoint) :
    (e.write i.writes (.utxo s op) = e (.utxo s op) ∧ ∀ p∈i.payments, i.script = s → p.1 ≠ op) ∨
      ∃ p∈i.payments, i.script = s ∧ p.1 = op ∧ e.write i.writes (.utxo s op) = some (.utxo p.2 i.height) := by
  rcases write_cases e i.writes (.utxo s op) with ⟨hne,heq⟩ | ⟨w,hw,hkey,heq⟩
  · refine .inl ⟨heq,?_⟩
    rintro p hp rfl rfl
    exact hne _ (mem_writes.mpr (.inl ⟨p,hp,.inl rfl⟩)) rfl
  · rcases mem_writes.mp hw with ⟨p,hp,rfl | rfl⟩ | rfl
    · obtain ⟨hscript,hop⟩ := utxo.inj hkey
      exact .inr ⟨p,hp,hscript,hop,heq⟩
    · cases hkey
    · cases hkey

theorem Import.owner_cases (op : OutPoint) :
    (e.write i.writes (.owner op) = e (.owner op) ∧ ∀ p∈i.payments, p.1 ≠ op) ∨
      e.write i.writes (.owner op) = some (.owner i.script) ∧ ∃ p∈i.payments, p.1 = op := by
  rcases write_cases e i.writes (.owner op) with ⟨hne,heq⟩ | ⟨w,hw,hkey,heq⟩
  · refine .inl ⟨heq,?_⟩
    rintro p hp rfl
    exact hne _ (mem_writes.mpr (.inl ⟨p,hp,.inr rfl⟩)) rfl
  · rcases mem_writes.mp hw with ⟨p,hp,rfl | rfl⟩ | rfl
    · cases hkey
    · exact .inr ⟨heq,p,hp,owner.inj hkey⟩
    · cases hkey

theorem Import.history_self : e.write i.writes (.history i.script i.height i.txid) =
    some (.history (total (i.payments.map Prod.snd)) i.unix) := by
  rw [Import.writes,importWrites,write_append]
  exact update_self ..

theorem Import.history_of_ne {s : Script} {txid : Hash} (h : ¬(i.script = s ∧ i.height = j ∧ i.txid = txid)) :
    e.write i.writes (.history s j txid) = e (.history s j txid) := by
  refine write_of_ne fun w hw hkey => ?_
  rcases mem_writes.mp hw with ⟨p,hp,rfl | rfl⟩ | rfl
  · cases hkey
  · cases hkey
  · exact h (history.inj hkey)

variable {e}

theorem Import.write_ne_none {k : IndexKey} (hk : e k≠none) : e.write i.writes k ≠ none := by
  rcases write_cases e i.writes k with ⟨-,heq⟩ | ⟨w,hw,-,heq⟩
  · rwa [heq]
  · rw [heq]
    rcases mem_writes.mp hw with ⟨p,-,rfl | rfl⟩ | rfl
    all_goals exact Option.some_ne_none _

theorem storedValue_payments {script : Script} {height : ℕ} {payments : List (OutPoint × Int64)} (he : e.IsFinite)
    (hnodup : (payments.map Prod.fst).Nodup) (hnew : ∀ p∈payments, e (.utxo script p.1) = none) (s : Script) :
    storedValue s (e.write (payments.flatMap fun p =>
        [.put (.utxo script p.1) (.utxo p.2 height),.put (.owner p.1) (.owner script)])) =
      storedValue s e+if script = s then (payments.map Prod.snd).sum else 0 := by
  induction payments generalizing e with
  | nil => simp
  | cons p payments ih =>
    rw [map_cons,nodup_cons] at hnodup
    have hrest : ∀ q∈payments, update (update e (.utxo script p.1) (some (.utxo p.2 height)))
        (.owner p.1) (some (.owner script)) (.utxo script q.1) = none := by
      intro q hq
      have hne : q.1 ≠ p.1 := fun heq => hnodup.1 (heq ▸ mem_map_of_mem hq)
      rw [update_of_ne (by simp),update_of_ne (by simp [hne])]
      exact hnew q (mem_cons_of_mem _ hq)
    rw [flatMap_cons,write_append]
    refine (ih ((he.update _ _).update _ _) hnodup.2 hrest).trans ?_
    have hfirst := hnew p (mem_cons_self ..)
    rw [storedValue_update he,hfirst,map_cons,sum_cons]
    simp only [Option.elim_some,Option.elim_none,utxoWeight,sub_zero]
    split
    · rw [add_assoc]
    · rw [add_zero,add_zero]

theorem Import.balance (he : e.IsFinite) (hnodup : (i.payments.map Prod.fst).Nodup)
    (hnew : ∀ p∈i.payments, e (.utxo i.script p.1) = none) (hhistory : e (.history i.script i.height i.txid)=none)
    (s : Script) :
    storedValue s (e.write i.writes) = storedValue s e+(if i.script = s then (i.payments.map Prod.snd).sum else 0) ∧
      historyNet s (e.write i.writes) = historyNet s e+if i.script = s then (i.payments.map Prod.snd).sum else 0 := by
  rw [Import.writes,importWrites,write_append]
  generalize houts : i.payments.flatMap _ = outs
  have hsame (t : Script) (j : ℕ) (id : Hash) : e.write outs (.history t j id) = e (.history t j id) := by
    refine write_of_ne fun w hw => ?_
    rw [← houts] at hw
    obtain ⟨p,-,hw⟩ := mem_flatMap.mp hw
    simp only [mem_cons,not_mem_nil,or_false] at hw
    rcases hw with rfl | rfl
    · exact IndexKey.noConfusion
    · exact IndexKey.noConfusion
  have hhist : historyNet s (e.write outs) = historyNet s e := by
    refine total_congr fun k => ?_
    cases k with
    | utxo t op => exact .inr fun _ => rfl
    | owner op => exact .inr fun _ => rfl
    | history t j id => exact .inl (hsame t j id)
  constructor
  · refine (total_update_of_zero (he.write outs) (fun _ => rfl) _).trans ?_
    rw [← houts]
    exact storedValue_payments he hnodup hnew s
  · refine (total_update _ (he.write outs) _ _).trans ?_
    simp only [Write.key,Write.value]
    rw [hsame,hhistory,Option.elim_none,sub_zero]
    exact congrArg₂ (· + ·) hhist (congrArg (fun v => if i.script = s then v else 0) (total_eq_sum _))

end Batch

section Node

variable {node : DogeNode} {body : Hash → MsgTx} {script : Script} {txid : Hash} {tx : MsgTx}
  {payments : List (OutPoint × Int64)}

theorem nodup_unspentPayments (h : unspentPayments node script txid tx = .ok payments) :
    (payments.map Prod.fst).Nodup := by
  simp only [unspentPayments,checks_ok] at h
  obtain ⟨asked,hasked,rfl⟩ := h
  have hops {outs : List (TxOut × ℕ)} {asked : List ((OutPoint × Int64) × Bool)} (hall : List.Forall₂ (fun out a => (do
        return ((⟨txid,UInt32.ofNat out.2⟩,out.1.value),← node.unspentOutput ⟨txid,UInt32.ofNat out.2⟩) :
          Except String ((OutPoint × Int64) × Bool)) = .ok a) outs asked) :
      asked.map (fun a => a.1.1) = outs.map fun out => (⟨txid,UInt32.ofNat out.2⟩ : OutPoint) := by
    induction hall with
    | nil => rfl
    | cons hread _ ih =>
      simp only [checks_ok] at hread
      obtain ⟨unspent,-,rfl⟩ := hread
      rw [map_cons,map_cons,ih]
  have hnodup : (asked.map fun a => a.1.1).Nodup := by
    rw [hops (forall₂_of_mapM_ok hasked)]
    refine List.Nodup.of_map OutPoint.index ?_
    rw [map_map]
    exact (nodup_indices tx).sublist (filter_sublist.map _)
  rw [map_map]
  exact hnodup.sublist (filter_sublist.map _)

/-- What a node answers for a chain: the transactions themselves, their blocks, and unspent for no
output that is spent. An output an unconfirmed transaction spends it may call spent. -/
structure DogeNode.Answers (body : Hash → MsgTx) (node : DogeNode) (chain : List DogeBlock) : Prop where
  gives : node.Gives body
  serves : node.Serves chain
  block : ∀ txid height unix, node.txBlock txid = .ok (height,unix) → 0 < height →
    ∃ b, chain[height.toNat]? = some b ∧ txid∈b.txids ∧ unix = b.unix
  unspent : ∀ op, node.unspentOutput op = .ok true → unspents chain op ≠ none

/-- The payments a node lists for a transaction in the chain are unspent outputs of it. -/
theorem DogeNode.Answers.payment {U : Set DogeBlock} {chain : List DogeBlock} {b : DogeBlock}
    (hbody : ∀ b∈U, ∀ t∈b.txs, t.2 = body t.1) (hchain : DogeChain U chain) (h : node.Answers body chain)
    (hb : chain[j]? = some b) (hid : txid∈b.txids)
    (hpayments : unspentPayments node script txid (body txid) = .ok payments)
    {p : OutPoint × Int64} (hp : p∈payments) :
    p.1.hash = txid ∧ payee body p.1 = some script ∧ unspents chain p.1 = some (⟨p.2,script⟩,j) := by
  obtain ⟨out,hout,rfl,rfl,hanswer⟩ := mem_unspentPayments hpayments hp
  refine ⟨rfl,payee_of_mem hout,?_⟩
  obtain ⟨⟨o,j'⟩,hunspent⟩ := Option.ne_none_iff_exists'.mp (h.unspent _ hanswer)
  obtain ⟨b',t',hb',ht',hout'⟩ := mem_unspents hunspent
  obtain ⟨t,ht,htid⟩ := mem_map.mp hid
  have hsame := tx_unique hchain.nodup hb hb' ht ht' (htid.trans (outputOf_hash hout'))
  obtain ⟨rfl,rfl⟩ := hsame
  -- the transaction there is the one of the identifier
  have hbodyt : t = (txid,body txid) := by
    rw [← htid,← hbody b (hchain.known b (mem_of_getElem? hb)) t ht]
  subst hbodyt
  rw [hunspent,← Option.some.inj ((outputOf_of_mem hout).symm.trans hout')]

end Node

theorem Level.add {h : ℕ} {e : IndexEntries} (hlevel : Level body chain imports h e) (i : Import)
    (hhistory : e (.history i.script i.height i.txid)=none) (hnodup : (i.payments.map Prod.fst).Nodup)
    (hpay : ∀ p∈i.payments, p.1.hash = i.txid ∧ payee body p.1 = some i.script ∧
      unspents (chain.take (h+1)) p.1 = some (⟨p.2,i.script⟩,i.height))
    (hid : i.txid∈(chain.take (h+1)).flatMap txids) (hops : ∀ i'∈imports, ∀ p∈i'.payments, p.1.hash = i'.txid)
    (hother : ∀ i'∈imports, ¬(i'.script = i.script ∧ i'.txid = i.txid)) :
    Level body chain (i::imports) h (e.write i.writes) := by
  have hnew : ∀ p∈i.payments, e (.utxo i.script p.1) = none := by
    intro p hp
    by_contra hne
    obtain ⟨w,hw⟩ := Option.ne_none_iff_exists'.mp hne
    obtain ⟨v,j,rfl⟩ := hlevel.paired.utxo_value hw
    obtain ⟨hhash,-,hunspent⟩ := hpay p hp
    have hj := congrArg Prod.snd (Option.some.inj (hunspent.symm.trans (hlevel.unspent _ _ v j hw)))
    obtain rfl : i.height = j := hj
    exact hlevel.recorded _ _ v _ hw (hhash ▸ hhistory)
  refine ⟨⟨hlevel.paired.write (pairedWrites_import _ _ fun p hp => (hpay p hp).2.1),
    hlevel.finite.write _,fun s op v j hv => ?_, fun s op v j hv => ?_, fun s => ?_⟩,fun k hk => ?_,
    fun i' hi' p hp hunspent => ?_, fun i' hi' => ?_⟩
  · rcases i.utxo_cases e s op with ⟨heq,-⟩ | ⟨p,hp,rfl,rfl,heq⟩
    · exact hlevel.unspent s op v j (heq ▸ hv)
    · cases hv.symm.trans heq
      exact (hpay p hp).2.2
  · rcases i.utxo_cases e s op with ⟨heq,-⟩ | ⟨p,hp,rfl,rfl,heq⟩
    · exact i.write_ne_none (hlevel.recorded s op v j (heq ▸ hv))
    · cases hv.symm.trans heq
      rw [(hpay p hp).1,i.history_self]
      exact Option.some_ne_none _
  · obtain ⟨hvalue,hnet⟩ := i.balance hlevel.finite hnodup hnew hhistory s
    rw [hvalue,hnet,hlevel.balance]
  · rcases mem_of_write hk with hk | ⟨v,hv⟩
    · exact hlevel.known k hk
    · rcases Import.mem_writes.mp hv with ⟨p,hp,hkey | hkey⟩ | hkey
      · cases hkey
        rwa [← (hpay p hp).1] at hid
      · cases hkey
        rwa [← (hpay p hp).1] at hid
      · cases hkey
        exact hid
  · rcases mem_cons.mp hi' with rfl | hi'
    · constructor
      · rcases i'.utxo_cases e i'.script p.1 with ⟨-,hne⟩ | ⟨q,hq,-,hop,heq⟩
        · exact absurd rfl (hne p hp rfl)
        · rw [heq,inj_on_of_nodup_map hnodup hq hp hop]
      · rcases i'.owner_cases e p.1 with ⟨-,hne⟩ | ⟨heq,-⟩
        · exact absurd rfl (hne p hp)
        · exact heq
    · obtain ⟨hutxo,howner⟩ := hlevel.imported i' hi' p hp hunspent
      have hpays := (hlevel.paired.utxo _ _ (hutxo ▸ Option.some_ne_none _)).1
      -- an output of both imports would make them one
      have hapart : ∀ q∈i.payments, q.1 ≠ p.1 := by
        intro q hq hop
        obtain ⟨hhash,hpays',-⟩ := hpay q hq
        refine hother i' hi' ⟨?_,?_⟩
        · exact Option.some.inj (hpays.symm.trans (hop ▸ hpays'))
        · rw [← hops i' hi' p hp,← hop,hhash]
      constructor
      · rcases i.utxo_cases e i'.script p.1 with ⟨heq,-⟩ | ⟨q,hq,-,hop,-⟩
        · rw [heq,hutxo]
        · exact absurd hop (hapart q hq)
      · rcases i.owner_cases e p.1 with ⟨heq,-⟩ | ⟨-,q,hq,hop⟩
        · rw [heq,howner]
        · exact absurd hop (hapart q hq)
  · rcases mem_cons.mp hi' with rfl | hi'
    · exact i'.history_self e
    · rw [i.history_of_ne e fun ⟨hscript,_,htxid⟩ => hother i' hi' ⟨hscript.symm,htxid.symm⟩, hlevel.entered i' hi']

theorem Level.add_again {h : ℕ}
    {e : IndexEntries} (hlevel : Level body chain imports h e) {i : Import} (hi : i∈imports)
    (hunspent : ∀ p∈i.payments, unspents (chain.take (h+1)) p.1 ≠ none) : e.write i.writes = e := by
  funext k
  rcases write_cases e i.writes k with ⟨-,heq⟩ | ⟨w,hw,rfl,heq⟩
  · exact heq
  · rcases Import.mem_writes.mp hw with ⟨p,hp,rfl | rfl⟩ | rfl
    · exact heq.trans (hlevel.imported i hi p hp (hunspent p hp)).1.symm
    · exact heq.trans (hlevel.imported i hi p hp (hunspent p hp)).2.symm
    · exact heq.trans (hlevel.entered i hi).symm

section Runs

variable {body : Hash → MsgTx} {imports : List Import} {floor start k : ℕ} {E : ℕ → IndexEntries}
  {U : Set DogeBlock} {chain chain' : List DogeBlock} {x : DogeIndex}

def DogeIndex.On (chain : List DogeBlock) (k : ℕ) (x : DogeIndex) : Prop :=
  ∃ b, chain[k]? = some b ∧ x.tip = some (k,b.hash)

theorem Levels.on (hU : HashesDiffer U) (hx : Levels body imports floor start E chain k x)
    (hchain : DogeChain U chain) (hchain' : DogeChain U chain') {n : ℕ} (hon : x.On chain' n) :
    k = n ∧ Levels body imports floor start E chain' n x := by
  obtain ⟨b,hb,htip⟩ := hon
  obtain ⟨c,hc,htip'⟩ := hx.tip
  obtain ⟨rfl,hhash⟩ := Prod.mk.inj (Option.some.inj (htip'.symm.trans htip))
  exact ⟨rfl,hx.congr (hchain.take_eq hU hchain' hc hb hhash)⟩

theorem Levels.add (hx : Levels body imports floor start E chain k x) (hchain : DogeChain U chain)
    (hbody : ∀ b∈U, ∀ t∈b.txs, t.2 = body t.1) (i : Import) {b : DogeBlock} (hheight : i.height≤k)
    (hb : chain[i.height]? = some b) (hid : i.txid∈b.txids) (hunix : i.unix=b.unix)
    (hhistory : ∀ j, x.entries (.history i.script j i.txid) = none) (hnodup : (i.payments.map Prod.fst).Nodup)
    (hpay : ∀ p∈i.payments, p.1.hash = i.txid ∧ payee body p.1 = some i.script ∧
      unspents chain p.1 = some (⟨p.2,i.script⟩,i.height)) :
    Levels body (i::imports) (max floor i.height) start
      (fun h => (E h).write i.writes) chain k { x with entries := x.entries.write i.writes } := by
  have hsince {p : OutPoint × Int64} (hp : p∈i.payments) {h : ℕ} (hlo : i.height≤h) (hhi : h≤k) :=
    unspents_at hchain (hpay p hp).2.2 hlo (hhi.trans_lt hx.lt_length)
  -- history only grows, so it is not in the entries below either
  have hbelow : ∀ h, floor ≤ h → start ≤ h → h ≤ k → ∀ j, E h (.history i.script j i.txid) = none := by
    intro h hfloor hstart hle j
    by_contra hne
    have hup : ∀ n, h ≤ n → n ≤ k → E n (.history i.script j i.txid) ≠ none := by
      intro n hn
      induction n, hn using Nat.le_induction with
      | base => exact fun _ => hne
      | succ n hn ih => exact fun hle => hx.grows n (by omega) (by omega) (by omega) _ _ _ (ih (by omega))
    exact hup k hle le_rfl (hx.entries ▸ hhistory j)
  have hother : ∀ i'∈imports, ¬(i'.script = i.script ∧ i'.txid = i.txid) := by
    rintro i' hi' ⟨hscript,htxid⟩
    have hentered := (hx.levels k hx.floor_le hx.start_le le_rfl).entered i' hi'
    rw [hscript,htxid,hbelow k hx.floor_le hx.start_le le_rfl] at hentered
    cases hentered
  have htx : (i.txid,body i.txid)∈b.txs := by
    obtain ⟨t,ht,htid⟩ := mem_map.mp hid
    rw [← htid,← hbody b (hchain.known b (mem_of_getElem? hb)) t ht]
    exact ht
  refine ⟨hx.tip,max_le hx.floor_le hheight,hx.start_le,by rw [hx.entries], fun h hfloor hstart hle => ?_,
    fun h hfloor hstart hle s j txid hne => ?_, fun h u hu hle => ?_, fun i' hi' => ?_⟩
  · rw [max_le_iff] at hfloor
    refine (hx.levels h hfloor.1 hstart hle).add i (hbelow h hfloor.1 hstart hle _) hnodup (fun p hp => ?_) ?_
      (fun i' hi' => (hx.located i' hi').ops) hother
    · exact ⟨(hpay p hp).1,(hpay p hp).2.1,(hsince hp hfloor.2 hle).1⟩
    · have hmem : (chain.take (h+1))[i.height]? = some b := by
        rw [List.getElem?_take_of_lt (by omega),hb]
      exact mem_flatMap.mpr ⟨b,mem_of_getElem? hmem,hid⟩
  · rw [max_le_iff] at hfloor
    by_cases hkey : i.script = s ∧ i.height = j ∧ i.txid = txid
    · obtain ⟨rfl,rfl,rfl⟩ := hkey
      rw [i.history_self]
      exact Option.some_ne_none _
    · rw [i.history_of_ne _ hkey] at hne
      exact i.write_ne_none (hx.grows h hfloor.1 hstart hle s j txid hne)
  · obtain ⟨hstart,hrecord⟩ := hx.undos h u hu hle
    refine ⟨hstart,fun hfloor => ?_⟩
    rw [max_lt_iff] at hfloor
    obtain ⟨⟨b',hb',hrecord⟩,hwrites⟩ := hrecord hfloor.1
    refine ⟨⟨b',hb',hrecord⟩,?_⟩
    rw [write_comm,hwrites]
    -- the record is of a later block, which spends none of the outputs imported
    have hnot : i.txid ∉ b'.txids := by
      intro hin
      obtain ⟨t,ht,htid⟩ := mem_map.mp hin
      have := (tx_unique hchain.nodup hb hb' htx ht htid.symm).1
      omega
    intro w hw w' hw' heq
    have hwid : w.key.txid = i.txid := by
      rcases Import.mem_writes.mp hw with ⟨p,hp,rfl | rfl⟩ | rfl
      · exact (hpay p hp).1
      · exact (hpay p hp).1
      · rfl
    rcases mem_append.mp hw' with hput | hdel
    · obtain ⟨key,hkey,rfl⟩ := mem_map.mp hput
      obtain rfl : w.key = key := heq
      exact hnot (hwid ▸ hrecord.put _ hkey)
    · obtain ⟨d,hd,rfl⟩ := mem_map.mp hdel
      have hkey : w.key = d.1 := heq
      obtain ⟨op,hop,hspent⟩ := hrecord.deleted d hd
      rw [← hkey] at hspent
      have hfree {p : OutPoint × Int64} (hp : p∈i.payments) : p.1 ≠ op := by
        rintro rfl
        exact (hsince hp (show i.height ≤ h-1 by omega) (by omega)).2 h b' (by omega) hb' hop
      rcases Import.mem_writes.mp hw with ⟨p,hp,rfl | rfl⟩ | rfl
      · rcases hspent with hspent | ⟨s,hspent⟩
        · cases hspent
        · exact hfree hp (utxo.inj hspent).2
      · rcases hspent with hspent | ⟨s,hspent⟩
        · exact hfree hp (owner.inj hspent)
        · cases hspent
      · rcases hspent with hspent | ⟨s,hspent⟩ <;> cases hspent
  · rcases mem_cons.mp hi' with rfl | hi'
    · exact ⟨⟨b,hb,htx,hunix⟩,le_max_right ..,fun p hp => (hpay p hp).1⟩
    · obtain ⟨hblock,hle,hops⟩ := hx.located i' hi'
      exact ⟨hblock,hle.trans (le_max_left ..),hops⟩

theorem Levels.first {b : DogeBlock} (hb : chain[k]? = some b) :
    Levels body [] 0 k (fun _ _ => none) chain k ⟨some (k,b.hash),fun _ => none, fun _ => none⟩ where
  tip := ⟨b,hb,rfl⟩
  floor_le := Nat.zero_le k
  start_le := le_rfl
  entries := rfl
  levels := fun h _ _ _ => ⟨.empty _,fun _ hne => absurd rfl hne, by simp, by simp⟩
  grows := fun _ _ _ _ _ _ _ hne => absurd rfl hne
  undos := fun _ _ hu => by cases hu
  located := by simp

end Runs

/-! ## Runs with imports -/

/-- What `watch`, `sync` and `importTx` leave of an empty database, with the payments imported and the
highest of their blocks. Reorganisations replace the block at the tip at most, and none in which or
below which an imported transaction is. A payment is imported while the index is on the node's chain,
at its block or above, and its transaction not in the script's history; and once more only while the
node calls the same outputs unspent. -/
inductive WalletIndex.Imported (U : Set DogeBlock) (body : Hash → MsgTx) : ℕ → List Import → WalletIndex → Prop where
  | empty : Imported U body 0 [] .empty
  | watch {floor imports x x' script height}
      (reached : Imported U body floor imports x) (run : x.watch script = .ok (height,x')) :
      Imported U body floor imports x'
  | sync {floor imports x x' node chain fuel r} (reached : Imported U body floor imports x) (blocks : DogeChain U chain)
      (answers : node.Answers body chain) (near : x.db.Near U chain)
      (keeps : ∀ height hash, x.db.tip = some (height,hash) → height ≤ floor →
        ∃ b, chain[height]? = some b ∧ b.hash = hash)
      (run : x.sync node fuel=some (x',r)) : Imported U body floor imports x'
  | importTx {floor imports x x' node chain k added i height} (reached : Imported U body floor imports x)
      (blocks : DogeChain U chain) (answers : node.Answers body chain) (on : x.db.On chain k)
      (block : node.txBlock i.txid = .ok (height,i.unix)) (height_eq : height.toNat=i.height)
      (height_le : i.height≤k)
      (payments : unspentPayments node i.script i.txid (body i.txid) = .ok i.payments)
      (unknown : ∀ j, x.db.entries (.history i.script j i.txid) = none)
      (run : x.importTx node i.script i.txid = .ok (added,x')) :
      Imported U body (max floor i.height) (i::imports) x'
  | again {floor imports x x' node chain k added i} (reached : Imported U body floor imports x) (mem : i∈imports)
      (blocks : DogeChain U chain) (answers : node.Answers body chain) (on : x.db.On chain k)
      (payments : unspentPayments node i.script i.txid (body i.txid) = .ok i.payments)
      (run : x.importTx node i.script i.txid = .ok (added,x')) : Imported U body floor imports x'

section Runs

variable {body : Hash → MsgTx} {imports : List Import} {floor start k : ℕ} {E : ℕ → IndexEntries}
  {U : Set DogeBlock} {chain : List DogeBlock} {x x' : WalletIndex} {node : DogeNode}

theorem Levels.importTx_again (hbody : ∀ b∈U, ∀ t∈b.txs, t.2 = body t.1)
    (hx : Levels body imports floor start E chain k x.db) (hchain : DogeChain U chain)
    (hanswers : node.Answers body chain) {i : Import} (hi : i∈imports)
    (hpayments : unspentPayments node i.script i.txid (body i.txid) = .ok i.payments) {added : ℕ}
    (h : x.importTx node i.script i.txid = .ok (added,x')) : x' = x := by
  obtain ⟨tx,height,unix,payments,-,htx,hblock,hpos,hread,-,rfl⟩ := importTx_ok h
  obtain rfl := hanswers.gives _ tx htx
  cases hread.symm.trans hpayments
  obtain ⟨⟨b,hb,ht,hunix⟩,hle,-⟩ := hx.located i hi
  -- the node names the block the transaction was imported from
  obtain ⟨b',hb',hid,rfl⟩ := hanswers.block _ _ _ hblock hpos
  obtain ⟨t,ht',htid⟩ := mem_map.mp hid
  obtain ⟨hheight,-⟩ := tx_unique hchain.nodup hb hb' ht ht' htid.symm
  rw [← hheight] at hb' ⊢
  cases hb.symm.trans hb'
  have hsame : x.db.entries.write i.writes = x.db.entries := by
    rw [hx.entries]
    refine (hx.levels k hx.floor_le hx.start_le le_rfl).add_again hi fun p hp => ?_
    obtain ⟨-,-,hunspent⟩ := hanswers.payment hbody hchain hb (mem_map_of_mem ht) hpayments hp
    rw [(unspents_at hchain hunspent (hle.trans hx.floor_le) hx.lt_length).1]
    exact Option.some_ne_none _
  rw [← hunix,← Import.writes,hsame]

theorem WalletIndex.Imported.levels (hU : HashesDiffer U) (hbody : ∀ b∈U, ∀ t∈b.txs, t.2 = body t.1)
    (hspends : ∀ b∈U, (b.txs.zipIdx.flatMap blockSpends).Nodup) (h : x.Imported U body floor imports) :
    (x.db = .empty ∧ floor = 0 ∧ imports = []) ∨
      ∃ start E chain k, DogeChain U chain ∧ Levels body imports floor start E chain k x.db := by
  induction h with
  | empty => exact .inl ⟨rfl,rfl,rfl⟩
  | watch _ run ih =>
    rw [watch_ok run]
    exact ih
  | @sync floor imports x x' node chain fuel r _ blocks answers near keeps run ih =>
    obtain ⟨⟨y,r'⟩,hsync,heq⟩ := Option.map_eq_some_iff.mp run
    cases heq
    rcases ih with ⟨hempty,rfl,rfl⟩ | ⟨start,E,chain',k,hchain',hx⟩
    · have hstarted : y = .empty ∨ ∃ start E k, Levels body [] 0 start E chain k y := by
        refine DogeIndex.sync_keeps (P := fun y => y = .empty ∨ ∃ start E k, Levels body [] 0 start E chain k y) ?_
          (.inl hempty) hsync
        rintro y y' go (rfl | ⟨start,E,k,hy⟩) hturn
        · simp only [DogeIndex.turn,DogeIndex.empty,checks_ok,Prod.mk.injEq] at hturn
          obtain ⟨best,-,p,hp,rfl,-⟩ := hturn
          obtain ⟨b,hb,rfl⟩ := answers.serves.hash best p hp
          exact .inr ⟨best,_,best,.first hb⟩
        · exact .inr ⟨start,hy.turn hbody hspends blocks answers.serves hturn⟩
      rcases hstarted with rfl | ⟨start,E,k,hy⟩
      · exact .inl ⟨rfl,rfl,rfl⟩
      · exact .inr ⟨start,E,chain,k,blocks,hy⟩
    · obtain ⟨E',chain'',k',hchain'',hx'⟩ := hx.sync hbody hspends hU hchain' blocks answers.serves near keeps hsync
      exact .inr ⟨start,E',chain'',k',hchain'',hx'⟩
  | @importTx floor imports x x' node chain k added i height _ blocks answers on block height_eq height_le payments
      unknown run ih =>
    rcases ih with ⟨hempty,-,-⟩ | ⟨start,E,chain',k',hchain',hx⟩
    · obtain ⟨b,-,htip⟩ := on
      rw [hempty] at htip
      cases htip
    · obtain ⟨rfl,hx⟩ := hx.on hU hchain' blocks on
      obtain ⟨tx,height',unix',payments',-,htx,hblock,hpos,hread,-,rfl⟩ := importTx_ok run
      obtain rfl := answers.gives _ tx htx
      cases hread.symm.trans payments
      cases hblock.symm.trans block
      obtain ⟨b,hb,hid,hunix⟩ := answers.block _ _ _ block hpos
      rw [height_eq] at hb ⊢
      exact .inr ⟨start,_,chain,k',blocks,hx.add blocks hbody i height_le hb hid hunix unknown
        (nodup_unspentPayments payments) fun p hp => answers.payment hbody blocks hb hid payments hp⟩
  | @again floor imports x x' node chain k added i _ mem blocks answers on payments run ih =>
    rcases ih with ⟨-,-,rfl⟩ | ⟨start,E,chain',k',hchain',hx⟩
    · cases mem
    · obtain ⟨rfl,hx⟩ := hx.on hU hchain' blocks on
      rw [hx.importTx_again hbody blocks answers mem payments run]
      exact .inr ⟨start,E,chain,k',blocks,hx⟩

end Runs

/-- In every state of such runs the history's nets add up to the stored value, the outputs stored are
unspent outputs of the chain the index is at the end of, and the same import changes nothing. -/
theorem imports_consistent {U : Set DogeBlock} {body : Hash → MsgTx} (hU : HashesDiffer U)
    (hbody : ∀ b∈U, ∀ t∈b.txs, t.2 = body t.1) (hspends : ∀ b∈U, (b.txs.zipIdx.flatMap blockSpends).Nodup)
    {floor : ℕ} {imports : List Import} {x : WalletIndex} (h : x.Imported U body floor imports) :
    (∀ rows, x.db.entries.Lists rows → ∀ script, rowsNet rows script = rowsValue rows script) ∧
      (∀ chain, DogeChain U chain → x.db.On chain (chain.length-1) → ∀ script op w,
        x.db.entries (.utxo script op) = some w →
        ∃ value height, w = .utxo value height ∧ unspents chain op = some (⟨value,script⟩,height)) ∧
      ∀ i∈imports, ∀ chain k node added x', DogeChain U chain → node.Answers body chain → x.db.On chain k →
        unspentPayments node i.script i.txid (body i.txid) = .ok i.payments →
        x.importTx node i.script i.txid = .ok (added,x') → x' = x := by
  rcases h.levels hU hbody hspends with ⟨hempty,-,rfl⟩ | ⟨start,E,chain,k,hchain,hx⟩
  · rw [hempty]
    have hmirrors : Mirrors body (fun _ => none) fun _ => none := .empty _
    refine ⟨fun rows hrows script => ?_, fun _ _ _ _ _ _ hw => absurd hw (Option.some_ne_none _).symm, ?_⟩
    · rw [rowsNet_eq hrows,rowsValue_eq hrows]
      exact hmirrors.balance script
    · exact fun i hi => absurd hi not_mem_nil
  · have hlevel := hx.levels k hx.floor_le hx.start_le le_rfl
    rw [← hx.entries] at hlevel
    refine ⟨fun rows hrows script => ?_, fun chain' hchain' hon script op w hw => ?_,
      fun i hi chain' k' node added x' hchain' hanswers hon hpayments hrun => ?_⟩
    · rw [rowsNet_eq hrows,rowsValue_eq hrows]
      exact hlevel.balance script
    · obtain ⟨rfl,hx'⟩ := hx.on hU hchain hchain' hon
      obtain ⟨value,height,rfl⟩ := hlevel.paired.utxo_value hw
      rw [hx'.entries] at hw
      have hunspent := (hx'.levels _ hx'.floor_le hx'.start_le le_rfl).unspent script op value height hw
      rw [Nat.sub_add_cancel (by have := hx'.lt_length; omega),take_length] at hunspent
      exact ⟨value,height,rfl,hunspent⟩
    · obtain ⟨rfl,hx'⟩ := hx.on hU hchain hchain' hon
      exact hx'.importTx_again hbody hchain' hanswers hi hpayments hrun

/-! ## An import after a part was spent -/

def DogeNode.ofChain (chain : List DogeBlock) : DogeNode where
  toDogeSource := .ofChain chain
  txBlock txid := match chain.zipIdx.find? fun b => txid ∈ b.1.txids with
    | some (b,height) => .ok (height,b.unix)
    | none => .ok (0,0)
  unspentOutput op := .ok (unspents chain op).isSome

theorem DogeNode.answers_ofChain (hne : chain≠[])
    (hhashes : (chain.map hash).Nodup) (htxids : (chain.flatMap txids).Nodup)
    (hbody : ∀ b∈chain, ∀ t∈b.txs, t.2 = body t.1) : (DogeNode.ofChain chain).Answers body chain where
  gives := by
    intro txid tx htx
    simp only [ofChain,DogeSource.ofChain,found_eq_ok] at htx
    obtain ⟨l₁,l₂,heq,-⟩ := lookup_eq_some_iff.mp htx
    have hmem : (txid,tx)∈chain.flatMap txs := heq ▸ mem_append_right _ (mem_cons_self ..)
    obtain ⟨b,hb,ht⟩ := mem_flatMap.mp hmem
    exact hbody b hb _ ht
  serves := DogeSource.serves_ofChain hne hhashes htxids
  block := by
    intro txid height unix h hpos
    simp only [ofChain] at h
    split at h
    · next b n hfind =>
      cases h
      have hin := List.find?_some hfind
      exact ⟨b,mem_zipIdx_iff_getElem?.mp (mem_of_find?_eq_some hfind),of_decide_eq_true hin,rfl⟩
    · cases h
      omega
  unspent := by
    intro op h
    exact Option.isSome_iff_ne_none.mp (Except.ok.inj h)

section Sample

/-- Transaction 40 pays the script `[1]` twice, and 41 spends the first of the two outputs. -/
def importBody (id : Hash) : MsgTx :=
  if id = 40 then ⟨1,[],[⟨5,[1]⟩,⟨3,[1]⟩],0,by decide⟩
  else if id = 41 then ⟨1,[⟨⟨40,0⟩,[],[],0⟩],[⟨5,[2]⟩],0,by decide⟩
  else ⟨1,[],[⟨5,[]⟩],0,by decide⟩

def importBlock (hash prev : Hash) (ids : List Hash) : DogeBlock :=
  ⟨hash,prev,0,ids.map fun id => (id,importBody id)⟩

def importChain : List DogeBlock :=
  [importBlock 1 0 [1],importBlock 11 1 [11,40],importBlock 12 11 [12,41]]

def importBlocks : Set DogeBlock := {b | b ∈ importChain}

theorem importBlocks_hashesDiffer : HashesDiffer importBlocks := by
  change ∀ b∈importChain, ∀ c∈importChain, b.hash = c.hash → b = c
  decide +kernel

theorem importBlocks_body : ∀ b∈importBlocks, ∀ t∈b.txs, t.2 = importBody t.1 := by
  change ∀ b∈importChain, ∀ t∈b.txs, t.2 = importBody t.1
  decide +kernel

theorem importBlocks_spends : ∀ b∈importBlocks, (b.txs.zipIdx.flatMap blockSpends).Nodup := by
  change ∀ b∈importChain, (b.txs.zipIdx.flatMap blockSpends).Nodup
  decide +kernel

theorem dogeChain_importChain (n : ℕ) : DogeChain importBlocks (importChain.take n) := by
  refine DogeChain.take ⟨fun b hb => hb, ?_, ?_⟩ n
  · decide +kernel
  · decide +kernel

theorem importChain_answers (n : ℕ) : (DogeNode.ofChain (importChain.take (n+1))).Answers importBody
    (importChain.take (n+1)) := by
  have hhashes : (importChain.map hash).Nodup := by decide +kernel
  refine DogeNode.answers_ofChain (by simp [importChain]) ?_ (dogeChain_importChain _).nodup fun b hb =>
    importBlocks_body b (mem_of_mem_take hb)
  exact hhashes.sublist ((take_sublist _ _).map _)

/-- The import of transaction 40, while both of its outputs are unspent. -/
def firstImport : Import := ⟨[1],40,1,0,[(⟨40,0⟩,5),(⟨40,1⟩,3)]⟩

def importedIndex : WalletIndex where
  db := ⟨some (1,11),write (fun _ => none) (importWrites [1] 40 1 0 firstImport.payments),fun _ => none⟩
  watched := update (fun _ => none) [1] (some 2)

theorem importedIndex_imported : importedIndex.Imported importBlocks importBody 1 [firstImport] := by
  have hfirst : WalletIndex.Imported importBlocks importBody 0 []
      ⟨⟨some (1,11),fun _ => none, fun _ => none⟩,fun _ => none⟩ :=
    .sync .empty (dogeChain_importChain 2) (importChain_answers 1) (fun _ _ h => by cases h) (fun _ _ h => by cases h)
      (show empty.sync (.ofChain (importChain.take 2)) 1 = some (_,.ok ()) from rfl)
  have hwatch : WalletIndex.Imported importBlocks importBody 0 []
      ⟨⟨some (1,11),fun _ => none, fun _ => none⟩,update (fun _ => none) [1] (some 2)⟩ :=
    .watch hfirst (show watch _ [1] = .ok (2,_) from rfl)
  exact .importTx (i := firstImport) hwatch (dogeChain_importChain 2) (importChain_answers 1) ⟨_,rfl,rfl⟩ rfl rfl
    le_rfl rfl (fun _ => rfl)
    (show importTx _ (.ofChain (importChain.take 2)) [1] 40 = .ok (2,importedIndex) from rfl)

def spendWrites : List (Write IndexKey IndexValue) :=
  (block importedIndex.isWatched importedIndex.db.entries 2 0 ([12,41].map fun id => (id,importBody id))).writes

/-- The database rows after the import, the block and one more import. -/
def importedRows : List (IndexKey × IndexValue) :=
  writeRows [] (importWrites [1] 40 1 0 firstImport.payments)

def spentRows : List (IndexKey × IndexValue) := writeRows importedRows spendWrites

def importedAgainRows : List (IndexKey × IndexValue) :=
  writeRows spentRows (importWrites [1] 40 1 0 [(⟨40,1⟩,3)])

theorem importedIndex_lists : importedIndex.db.entries.Lists importedRows := lists_empty.write _

theorem spentIndex_imported : ∃ x : WalletIndex, x.Imported importBlocks importBody 1 [firstImport] ∧
    x.db.On importChain 2 ∧ x.isWatched [1] = true ∧ x.db.entries = importedIndex.db.entries.write spendWrites := by
  obtain ⟨x,hsync,htip,hwatched,hentries⟩ : ∃ x : WalletIndex,
      importedIndex.sync (.ofChain (importChain.take 3)) 3 = some (x,.ok ()) ∧ x.db.tip = some (2,12) ∧
        x.isWatched [1] = true ∧ x.db.entries = importedIndex.db.entries.write spendWrites := ⟨_,rfl,rfl,rfl,rfl⟩
  have hnear : importedIndex.db.Near importBlocks (importChain.take 3) := by
    intro k hash h b hb hhash p hp
    obtain ⟨hk,rfl⟩ := Prod.mk.inj (Option.some.inj h)
    obtain rfl : k = 0 := by omega
    cases hp
    have hparent : ∀ b∈importChain, b.hash = 11 → 1 = b.prev := by decide +kernel
    exact hparent b hb hhash
  have hkeeps : ∀ height hash, importedIndex.db.tip = some (height,hash) → height ≤ 1 →
      ∃ b, (importChain.take 3)[height]? = some b ∧ b.hash = hash := by
    intro height hash h _
    cases h
    exact ⟨_,rfl,rfl⟩
  exact ⟨x,.sync importedIndex_imported (dogeChain_importChain 3) (importChain_answers 2) hnear hkeeps hsync,
    ⟨_,rfl,htip⟩,hwatched,hentries⟩

/-- The block that spends one of two outputs takes 5 of the 8 in the history. A second import
overwrites the 8 with the 3 that are left, so the history says -2 where 3 are stored. -/
theorem partly_spent_import_again : ∃ x x' : WalletIndex, x.Imported importBlocks importBody 1 [firstImport] ∧
    x.db.On importChain 2 ∧ (DogeNode.ofChain importChain).Answers importBody importChain ∧
    x.importTx (.ofChain importChain) [1] 40 = .ok (1,x') ∧ x.db.entries.Lists spentRows ∧
    x'.db.entries.Lists importedAgainRows ∧ rowsNet spentRows [1] = 3 ∧ rowsValue spentRows [1] = 3 ∧
    rowsNet importedAgainRows [1] = -2 ∧ rowsValue importedAgainRows [1] = 3 := by
  obtain ⟨x,hx,hon,hwatched,hentries⟩ := spentIndex_imported
  have hspent : x.db.entries.Lists spentRows := hentries ▸ importedIndex_lists.write spendWrites
  have hrun : x.importTx (.ofChain importChain) [1] 40 = .ok (1,{ x with
      db.entries := x.db.entries.write (importWrites [1] 40 1 0 [(⟨40,1⟩,3)]) }) := by
    unfold importTx
    rw [hwatched]
    rfl
  refine ⟨x,_,hx,hon,importChain_answers 2,hrun,hspent,hspent.write _,?_,?_,?_,?_⟩ <;> decide +kernel

/-- Where the output was spent only after the import, history and value agree, and before that the
same import changes nothing. -/
theorem import_then_spend_consistent : ∃ x : WalletIndex, x.db.entries.Lists spentRows ∧
    rowsNet spentRows [1] = rowsValue spentRows [1] ∧ unspents importChain ⟨40,1⟩ = some (⟨3,[1]⟩,1) ∧
    importedIndex.importTx (.ofChain (importChain.take 2)) [1] 40 = .ok (2,importedIndex) := by
  obtain ⟨x,hx,hon,-,hentries⟩ := spentIndex_imported
  have hspent : x.db.entries.Lists spentRows := hentries ▸ importedIndex_lists.write spendWrites
  obtain ⟨hbalance,hunspent,-⟩ :=
    imports_consistent importBlocks_hashesDiffer importBlocks_body importBlocks_spends hx
  obtain ⟨-,-,hagain⟩ := imports_consistent importBlocks_hashesDiffer importBlocks_body importBlocks_spends
    importedIndex_imported
  obtain ⟨y,hy⟩ : ∃ y, importedIndex.importTx (.ofChain (importChain.take 2)) [1] 40 = .ok (2,y) := ⟨_,rfl⟩
  have hsame := hagain firstImport (mem_singleton_self _) _ 1 _ 2 y (dogeChain_importChain 2)
    (importChain_answers 1) ⟨_,rfl,rfl⟩ rfl hy
  have hstored : x.db.entries (.utxo [1] ⟨40,1⟩) = some (.utxo 3 1) := by
    rw [hentries]
    rfl
  obtain ⟨value,height,heq,hout⟩ := hunspent importChain (dogeChain_importChain 3) hon [1] ⟨40,1⟩ _ hstored
  cases heq
  exact ⟨x,hspent,hbalance _ hspent [1],hout,hsame ▸ hy⟩

end Sample

end DogePeg
