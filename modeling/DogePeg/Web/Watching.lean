import DogePeg.Web.Balances

/-!
# `watch` while the index follows the chain

`watch` and `sync` run at the same time: `watch` reads the tip, writes its entry to the database and
only then updates the map that `apply` reads, transaction by transaction. Nothing of a script is missed
from the height `watch` returns on, where the map is updated while the tip is still the one `watch` read
and `apply` has not yet looked at a transaction of the next block.
-/

namespace DogePeg

open Batches Checks Function List Option BlockBatch

/-- A block `apply` is going through: how many of its transactions are done, and the batch so far. -/
structure Applying where
  height : ℕ
  block : DogeBlock
  done : ℕ
  batch : BlockBatch

/-- Where a call of `watch` is: whether it has looked the script up, read the tip, written its entry
or returned. -/
inductive WatchCall where
  | idle
  | checked (script : Script)
  | read (script : Script) (height : ℕ)
  | wrote (script : Script) (height : ℕ)
  | returned (script : Script) (height : ℕ)
  | failed (script : Script)

/-- `dogeIndex` with `sync` and any number of calls of `watch` running on it. `stored` is what the
database has under `keyWatched`. -/
structure SharedIndex where
  db : DogeIndex
  stored : Script → Option ℕ
  watched : Script → Option ℕ
  applying : Option Applying
  calls : ℕ → WatchCall

namespace SharedIndex

def empty : SharedIndex := ⟨.empty,fun _ => none, fun _ => none, none, fun _ => .idle⟩

def isWatched (c : SharedIndex) (script : Script) : Bool := (c.watched script).isSome

def setCall (c : SharedIndex) (i : ℕ) (call : WatchCall) : SharedIndex :=
  { c with calls := update c.calls i call }

/-- The steps of `sync` on a node whose blocks are never replaced, and of the calls of `watch`. The
map is updated only where `ready` allows it. -/
inductive Step (chain : List DogeBlock) (ready : SharedIndex → ℕ → Prop) :
    SharedIndex → SharedIndex → Prop where
  | start {c best b} (tip : c.db.tip=none) (block : chain[best]? = some b) :
      Step chain ready c { c with db.tip := some (best,b.hash) }
  | begin {c height hash b} (idle : c.applying=none)
      (tip : c.db.tip=some (height,hash)) (block : chain[height+1]? = some b) :
      Step chain ready c { c with applying := some ⟨height+1,b,0,.empty⟩ }
  | transaction {c a t} (applying : c.applying=some a)
      (next : a.block.txs[a.done]? = some t) :
      Step chain ready c { c with applying := some { a with
        done := a.done+1
        batch := a.batch.transaction c.isWatched c.db.entries a.height a.block.unix (t,a.done) } }
  | fail {c : SharedIndex} : Step chain ready c { c with applying := none }
  | write {c a} (applying : c.applying=some a)
      (done : a.done=a.block.txs.length) :
      Step chain ready c { c with
        applying := none
        db.tip := some (a.height,a.block.hash)
        db.entries := c.db.entries.write a.batch.writes
        db.undos := DogeIndex.keepUndo c.db.undos a.height ⟨a.batch.undo,a.block.hash⟩ }
  | known {c : SharedIndex} (i : ℕ) (script : Script) {height : ℕ} (idle : c.calls i = .idle)
      (watched : c.watched script=some height) : Step chain ready c (c.setCall i (.returned script height))
  | check {c : SharedIndex} (i : ℕ) (script : Script) (idle : c.calls i = .idle)
      (watched : c.watched script=none) : Step chain ready c (c.setCall i (.checked script))
  | read {c} (i : ℕ) {script height hash} (call : c.calls i = .checked script)
      (tip : c.db.tip=some (height,hash)) : Step chain ready c (c.setCall i (.read script height))
  | refuse {c : SharedIndex} (i : ℕ) {script : Script} (call : c.calls i = .checked script)
      (tip : c.db.tip=none) : Step chain ready c (c.setCall i (.failed script))
  | put {c} (i : ℕ) {script height} (call : c.calls i = .read script height) :
      Step chain ready c { c.setCall i (.wrote script height) with
        stored := update c.stored script (some (height+1)) }
  | update {c} (i : ℕ) {script height} (call : c.calls i = .wrote script height)
      (allowed : ready c height) :
      Step chain ready c { c.setCall i (.returned script (height+1)) with
        watched := update c.watched script (some (height+1)) }

inductive Reached (chain : List DogeBlock) (ready : SharedIndex → ℕ → Prop) : SharedIndex → Prop where
  | empty : Reached chain ready .empty
  | step {c c' : SharedIndex} (reached : Reached chain ready c) (step : Step chain ready c c') :
      Reached chain ready c'

/-- The tip is the one `watch` read, and no transaction of the next block has been looked at. -/
def Quiet (c : SharedIndex) (height : ℕ) : Prop :=
  (∃ hash, c.db.tip = some (height,hash)) ∧ ∀ a, c.applying = some a → a.done = 0

end SharedIndex

/-! ## What the batch has of the transactions done -/

/-- The batch once some transactions of a block are done: it puts outputs of theirs, each one to a
watched script, and deletes what they spend. -/
structure BlockBatch.Holds (watched : Script → Bool) (height : ℕ) (txs : List ((Hash × MsgTx) × ℕ))
    (b : BlockBatch) : Prop where
  puts : ∀ s op v, .put (.utxo s op) v ∈ b.writes → ∃ t∈txs, ∃ out∈t.1.2.txOut.zipIdx,
    out.1.pkScript = s ∧ op = ⟨t.1.1,UInt32.ofNat out.2⟩ ∧ v = .utxo out.1.value height
  deletes : ∀ s op, .delete (.utxo s op)∈b.writes → op∈txs.flatMap blockSpends
  covers : ∀ t∈txs, ∀ out∈t.1.2.txOut.zipIdx, watched out.1.pkScript = true →
    .put (.utxo out.1.pkScript ⟨t.1.1,UInt32.ofNat out.2⟩) (.utxo out.1.value height)∈b.writes

section Batch

variable {watched : Script → Bool} {entries : IndexEntries} {height : ℕ} {unix : ℤ} {b : BlockBatch}
  {t : (Hash × MsgTx) × ℕ}

inductive WriteOf (height : ℕ) (t : (Hash × MsgTx) × ℕ) : Write IndexKey IndexValue → Prop where
  | spent {s : Script} {op : OutPoint} (spends : op∈blockSpends t) : WriteOf height t (.delete (.utxo s op))
  | unowned (op : OutPoint) : WriteOf height t (.delete (.owner op))
  | paid {out : TxOut × ℕ} (output : out∈t.1.2.txOut.zipIdx) :
      WriteOf height t (.put (.utxo out.1.pkScript ⟨t.1.1,UInt32.ofNat out.2⟩) (.utxo out.1.value height))
  | owned (op : OutPoint) (v : IndexValue) : WriteOf height t (.put (.owner op) v)
  | recorded (s : Script) (height' : ℕ) (txid : Hash) (v : IndexValue) :
      WriteOf height t (.put (.history s height' txid) v)

/-- The writes of `b'` are those of `b` and some of a transaction. -/
def Appends (height : ℕ) (t : (Hash × MsgTx) × ℕ) (b b' : BlockBatch) : Prop :=
  ∃ ws, b'.writes = b.writes++ws ∧ ∀ w∈ws, WriteOf height t w

theorem Appends.refl (b : BlockBatch) : Appends height t b b := ⟨[],by simp, by simp⟩

theorem Appends.trans {b' b'' : BlockBatch} (h : Appends height t b b') (h' : Appends height t b' b'') :
    Appends height t b b'' := by
  obtain ⟨ws,heq,hws⟩ := h
  obtain ⟨ws',heq',hws'⟩ := h'
  refine ⟨ws++ws',by rw [heq',heq,append_assoc], fun w hw => ?_⟩
  rcases mem_append.mp hw with hw | hw
  · exact hws w hw
  · exact hws' w hw

theorem Appends.mem {b' : BlockBatch} (h : Appends height t b b') {w : Write IndexKey IndexValue}
    (hw : w∈b.writes) : w∈b'.writes := by
  obtain ⟨ws,heq,-⟩ := h
  exact heq ▸ mem_append_left ws hw

theorem appends_spend {acc : BlockBatch × Nets} {op : OutPoint} (hop : op∈blockSpends t) :
    Appends height t acc.1 (spend entries acc op).1 := by
  have htwo (s : Script) : ∀ w∈[Write.delete (.utxo s op),.delete (.owner op)], WriteOf height t w := by
    intro w hw
    simp only [mem_cons,not_mem_nil,or_false] at hw
    rcases hw with rfl | rfl
    · exact .spent hop
    · exact .unowned op
  fun_cases spend entries acc op with
  | case1 script value _ => exact ⟨_,rfl,htwo script⟩
  | case2 _ script _ value height' _ =>
    refine ⟨_,?_,htwo script⟩
    simp only [del,append_assoc,cons_append,nil_append]
  | case3 => exact .refl _
  | case4 => exact .refl _

theorem appends_pay (watched : Script → Bool) (height : ℕ) (acc : BlockBatch × Nets) {out : TxOut × ℕ}
    (hout : out∈t.1.2.txOut.zipIdx) : Appends height t acc.1 (pay watched height t.1.1 acc out).1 := by
  unfold pay
  split
  · simp only [Appends,put,append_assoc,cons_append,nil_append]
    refine ⟨_,rfl,fun w hw => ?_⟩
    simp only [mem_cons,not_mem_nil,or_false] at hw
    rcases hw with rfl | rfl
    · exact .paid hout
    · exact .owned _ _
  · exact .refl _

theorem appends_pays (watched : Script → Bool) (height : ℕ) {outs : List (TxOut × ℕ)} (acc : BlockBatch × Nets)
    (houts : ∀ out∈outs, out∈t.1.2.txOut.zipIdx) :
    Appends height t acc.1 (outs.foldl (pay watched height t.1.1) acc).1 ∧ ∀ out∈outs, watched out.1.pkScript = true →
        .put (.utxo out.1.pkScript ⟨t.1.1,UInt32.ofNat out.2⟩) (.utxo out.1.value height) ∈
          (outs.foldl (pay watched height t.1.1) acc).1.writes := by
  induction outs generalizing acc with
  | nil => exact ⟨.refl _,by simp⟩
  | cons out outs ih =>
    have hfirst := appends_pay watched height acc (houts out (mem_cons_self ..))
    obtain ⟨hrest,hputs⟩ := ih (pay watched height t.1.1 acc out)
      fun out' hout' => houts out' (mem_cons_of_mem _ hout')
    refine ⟨hfirst.trans hrest,fun out' hout' hwatched => ?_⟩
    rcases mem_cons.mp hout' with rfl | hout'
    · refine hrest.mem ?_
      simp [pay,hwatched,put]
    · exact hputs out' hout' hwatched

theorem appends_transaction (watched : Script → Bool) (entries : IndexEntries) (height : ℕ) (unix : ℤ)
    (b : BlockBatch) (t : (Hash × MsgTx) × ℕ) : Appends height t b (b.transaction watched entries height unix t) ∧
      ∀ out∈t.1.2.txOut.zipIdx, watched out.1.pkScript = true →
        .put (.utxo out.1.pkScript ⟨t.1.1,UInt32.ofNat out.2⟩) (.utxo out.1.value height) ∈
          (b.transaction watched entries height unix t).writes := by
  have hspent : Appends height t b (if 0 < t.2 then t.1.2.spends.foldl (spend entries) (b,[]) else (b,[])).1 := by
    split
    · next hpos =>
      refine List.foldlRecOn t.1.2.spends _ (motive := fun acc : BlockBatch × Nets => Appends height t b acc.1)
        (.refl b) fun acc hacc op hop => hacc.trans (appends_spend ?_)
      rwa [blockSpends,if_pos hpos]
    · exact .refl b
  obtain ⟨hpaid,hputs⟩ := appends_pays watched height
    (if 0 < t.2 then t.1.2.spends.foldl (spend entries) (b,[]) else (b,[]))
    fun out (h : out∈t.1.2.txOut.zipIdx) => h
  have hrecorded (nets : Nets) (b : BlockBatch) : Appends height t b
      (nets.foldl (fun b n => b.put (.history n.1 height t.1.1) (.history n.2 unix)) b) := by
    refine List.foldlRecOn nets _ (motive := fun b' => Appends height t b b') (.refl b)
      fun b' hb' n _ => hb'.trans ⟨[_],rfl,fun w hw => ?_⟩
    rw [mem_singleton.mp hw]
    exact .recorded _ _ _ _
  exact ⟨(hspent.trans hpaid).trans (hrecorded _ _),fun out hout hwatched =>
    (hrecorded _ _).mem (hputs out hout hwatched)⟩

theorem BlockBatch.Holds.empty : Holds watched height [] .empty :=
  ⟨by simp [BlockBatch.empty], by simp [BlockBatch.empty], by simp⟩

theorem BlockBatch.Holds.transaction {txs : List ((Hash × MsgTx) × ℕ)} (h : Holds watched height txs b)
    (entries : IndexEntries) (unix : ℤ) (t : (Hash × MsgTx) × ℕ) :
    Holds watched height (txs++[t]) (b.transaction watched entries height unix t) := by
  obtain ⟨happends,hputs⟩ := appends_transaction watched entries height unix b t
  obtain ⟨ws,heq,hws⟩ := id happends
  refine ⟨fun s op v hmem => ?_, fun s op hmem => ?_, fun t' ht' out hout hwatched => ?_⟩
  · rcases mem_append.mp (heq ▸ hmem) with hmem | hmem
    · obtain ⟨t',ht',hout⟩ := h.puts s op v hmem
      exact ⟨t',mem_append_left _ ht',hout⟩
    · cases hws _ hmem with
      | paid hout => exact ⟨t,mem_append_right _ (mem_singleton_self t),_,hout,rfl,rfl,rfl⟩
  · rw [flatMap_append,mem_append]
    rcases mem_append.mp (heq ▸ hmem) with hmem | hmem
    · exact .inl (h.deletes s op hmem)
    · cases hws _ hmem with
      | spent hop => exact .inr (by simpa using hop)
  · rcases mem_append.mp ht' with ht' | ht'
    · exact happends.mem (h.covers t' ht' out hout hwatched)
    · obtain rfl := mem_singleton.mp ht'
      exact hputs out hout hwatched

end Batch

/-! ## What every interleaving keeps -/

/-- Every output to `s` in the blocks from `h` up to `k` is stored as unspent, or spent in them. -/
def NoneMissed (chain : List DogeBlock) (e : IndexEntries) (s : Script) (h k : ℕ) : Prop :=
  ∀ j b, h ≤ j → j ≤ k → chain[j]? = some b → ∀ t∈b.txs, ∀ out∈t.2.txOut.zipIdx, out.1.pkScript = s →
    e (.utxo s ⟨t.1,UInt32.ofNat out.2⟩) = some (.utxo out.1.value j) ∨
      ∃ j' b', h ≤ j' ∧ j' ≤ k ∧ chain[j']? = some b' ∧ ⟨t.1,UInt32.ofNat out.2⟩∈b'.txs.zipIdx.flatMap blockSpends

section Covers

variable {chain : List DogeBlock} {b : DogeBlock}

/-- The next block's batch, its script watched from the first transaction on. -/
theorem NoneMissed.write {e : IndexEntries} {s : Script} {h k : ℕ} {watched : Script → Bool} {batch : BlockBatch}
    (hchain : (chain.flatMap DogeBlock.txids).Nodup) (hnone : NoneMissed chain e s h k)
    (hb : chain[k+1]? = some b) (hbatch : batch.Holds watched (k+1) b.txs.zipIdx) (hs : watched s=true) :
    NoneMissed chain (e.write batch.writes) s h (k+1) := by
  intro j c hj hjk hc t ht out hout hpays
  subst hpays
  rcases Store.write_cases e batch.writes (.utxo out.1.pkScript ⟨t.1,UInt32.ofNat out.2⟩) with
    ⟨hne,heq⟩ | ⟨w,hw,hkey,heq⟩
  · rcases Nat.lt_or_ge k j with hlt | hle
    · -- an output of the block itself is put
      obtain rfl : j = k+1 := by omega
      cases hb.symm.trans hc
      obtain ⟨i,hi⟩ := mem_iff_getElem?.mp ht
      exact absurd rfl (hne _ (hbatch.covers (t,i) (mem_zipIdx_iff_getElem?.mpr hi) out hout hs))
    · rcases hnone j c hj hle hc t ht out hout rfl with hstored | ⟨j',b',hlo,hhi,hb',hspent⟩
      · exact .inl (heq.trans hstored)
      · exact .inr ⟨j',b',hlo,by omega, hb', hspent⟩
  · rw [heq]
    cases w with
    | delete key =>
      obtain rfl : key = _ := hkey
      exact .inr ⟨k+1,b,hj.trans hjk,le_rfl,hb,hbatch.deletes _ _ hw⟩
    | put key v =>
      obtain rfl : key = _ := hkey
      obtain ⟨⟨u,i⟩,hu,out',hout',-,hop,rfl⟩ := hbatch.puts _ _ v hw
      obtain ⟨hid,hindex⟩ := OutPoint.mk.inj hop
      obtain ⟨rfl,rfl⟩ := tx_unique hchain hc hb ht (fst_mem_of_mem_zipIdx hu) hid
      -- one index, one output
      obtain rfl := inj_on_of_nodup_map (nodup_indices t.2) hout hout' hindex
      exact .inl rfl

end Covers

namespace SharedIndex

variable {chain : List DogeBlock} {c c' : SharedIndex}

/-- The scripts in the map, and those a call returned for, are covered; the batch in the making has
all outputs to the scripts in the map. -/
structure Inv (chain : List DogeBlock) (c : SharedIndex) : Prop where
  since : ∀ s h, (c.watched s = some h ∨ ∃ i, c.calls i = .returned s h) →
    c.isWatched s = true ∧ ∃ k hash, c.db.tip = some (k,hash) ∧ NoneMissed chain c.db.entries s h k
  batch : ∀ a, c.applying = some a → ∃ k hash, c.db.tip = some (k,hash) ∧ a.height = k+1 ∧
    chain[k+1]? = some a.block ∧ a.batch.Holds c.isWatched (k+1) (a.block.txs.zipIdx.take a.done)

theorem Inv.empty : Inv chain .empty where
  since := by
    rintro s h (hw | ⟨i,hi⟩)
    · cases hw
    · cases hi
  batch := by
    intro a ha
    cases ha

theorem Inv.setCall (hc : c.Inv chain) (i : ℕ) {call : WatchCall} (hcall : ∀ s h, call ≠ .returned s h) :
    (c.setCall i call).Inv chain where
  since := by
    rintro s h (hw | ⟨j,hj⟩)
    · exact hc.since s h (.inl hw)
    · refine hc.since s h (.inr ⟨j,?_⟩)
      have hj : update c.calls i call j = .returned s h := hj
      by_cases hij : j = i
      · rw [hij,update_self] at hj
        exact absurd hj (hcall s h)
      · rwa [update_of_ne hij] at hj
  batch := hc.batch

theorem Inv.step (hchain : (chain.flatMap DogeBlock.txids).Nodup) (hc : c.Inv chain)
    (h : Step chain Quiet c c') : c'.Inv chain := by
  cases h with
  | start htip hblock =>
    refine ⟨fun s h hs => ?_, fun a ha => ?_⟩
    · obtain ⟨-,k,hash,hsome,-⟩ := hc.since s h hs
      exact absurd (htip.symm.trans hsome) (some_ne_none _).symm
    · obtain ⟨k,hash,hsome,-⟩ := hc.batch a ha
      exact absurd (htip.symm.trans hsome) (some_ne_none _).symm
  | begin _ htip hblock =>
    refine ⟨hc.since,fun a ha => ?_⟩
    cases ha
    exact ⟨_,_,htip,rfl,hblock,.empty⟩
  | transaction happlying hnext =>
    refine ⟨hc.since,fun a ha => ?_⟩
    cases ha
    obtain ⟨k,hash,htip,hheight,hblock,hholds⟩ := hc.batch _ happlying
    refine ⟨k,hash,htip,hheight,hblock,?_⟩
    simp only [take_add_one,List.getElem?_zipIdx,hnext,map_some,toList_some,hheight,Nat.zero_add]
    exact hholds.transaction _ _ _
  | fail => exact ⟨hc.since,fun a ha => by cases ha⟩
  | write happlying hdone =>
    refine ⟨fun s h hs => ?_, fun a ha => by cases ha⟩
    obtain ⟨hwatched,k,hash,htip,hnone⟩ := hc.since s h hs
    obtain ⟨k',hash',htip',hheight,hblock,hholds⟩ := hc.batch _ happlying
    cases htip.symm.trans htip'
    refine ⟨hwatched,_,_,rfl,?_⟩
    rw [hheight]
    refine hnone.write hchain hblock ?_ hwatched
    rwa [hdone,take_of_length_le (by simp)] at hholds
  | @known i script height _ hwatched =>
    refine ⟨?_,hc.batch⟩
    rintro s h (hw | ⟨j,hj⟩)
    · exact hc.since s h (.inl hw)
    · have hj : update c.calls i (.returned script height) j = .returned s h := hj
      by_cases hij : j = i
      · rw [hij,update_self] at hj
        cases hj
        exact hc.since _ _ (.inl hwatched)
      · rw [update_of_ne hij] at hj
        exact hc.since s h (.inr ⟨j,hj⟩)
  | check i script => exact hc.setCall i (by simp)
  | read i => exact hc.setCall i (by simp)
  | refuse i => exact hc.setCall i (by simp)
  | @put i script height _ =>
    have hset : (c.setCall i (.wrote script height)).Inv chain := hc.setCall i (by simp)
    exact ⟨hset.since,hset.batch⟩
  | @update i script height _ hquiet =>
    obtain ⟨⟨tip,htip⟩,hdone⟩ := hquiet
    have hmono (s : Script) (hs : c.isWatched s=true) :
        (update c.watched script (some (height+1)) s).isSome = true := by
      by_cases hscript : s = script
      · rw [hscript,update_self,isSome_some]
      · rw [update_of_ne hscript]
        exact hs
    -- the height returned is above every block indexed so far
    have hnew : NoneMissed chain c.db.entries script (height+1) height := by
      intro j b hlo hhi
      omega
    have hscript : (update c.watched script (some (height+1)) script).isSome = true := by
      rw [update_self,isSome_some]
    refine ⟨?_,fun a ha => ?_⟩
    · rintro s h (hw | ⟨j,hj⟩)
      · have hw : update c.watched script (some (height+1)) s = some h := hw
        by_cases hs : s = script
        · subst hs
          rw [update_self] at hw
          cases hw
          exact ⟨hscript,height,tip,htip,hnew⟩
        · rw [update_of_ne hs] at hw
          obtain ⟨hwatched,hnone⟩ := hc.since s h (.inl hw)
          exact ⟨hmono s hwatched,hnone⟩
      · have hj : update c.calls i (.returned script (height+1)) j = .returned s h := hj
        by_cases hij : j = i
        · rw [hij,update_self] at hj
          cases hj
          exact ⟨hscript,height,tip,htip,hnew⟩
        · rw [update_of_ne hij] at hj
          obtain ⟨hwatched,hnone⟩ := hc.since s h (.inr ⟨j,hj⟩)
          exact ⟨hmono s hwatched,hnone⟩
    · obtain ⟨k,hash,htip',hheight,hblock,hholds⟩ := hc.batch a ha
      refine ⟨k,hash,htip',hheight,hblock,?_⟩
      rw [hdone a ha,take_zero] at hholds ⊢
      exact ⟨hholds.puts,hholds.deletes,by simp⟩

theorem Reached.inv (hchain : (chain.flatMap DogeBlock.txids).Nodup) (h : Reached chain Quiet c) : c.Inv chain := by
  induction h with
  | empty => exact .empty
  | step _ hstep ih => exact ih.step hchain hstep

end SharedIndex

/-- Whatever the interleaving, once a call of `watch` has returned a height every output to its
script from that height up to the tip is stored as unspent or was spent in those blocks, where every
call updates the map in a quiet moment. -/
theorem nothing_missed_after_watch {chain : List DogeBlock} (hchain : (chain.flatMap DogeBlock.txids).Nodup)
    {c : SharedIndex} (h : SharedIndex.Reached chain SharedIndex.Quiet c) {i height k : ℕ} {hash : Hash}
    {script : Script} (hcall : c.calls i = .returned script height) (htip : c.db.tip=some (k,hash)) :
    NoneMissed chain c.db.entries script height k := by
  obtain ⟨-,k',hash',htip',hnone⟩ := (h.inv hchain).since script height (.inr ⟨i,hcall⟩)
  cases htip.symm.trans htip'
  exact hnone

/-! ## A payment in the block being applied -/

section Sample

open SharedIndex

def payingChain : List DogeBlock := [paidBlock 1 0 [],paidBlock 11 1 [1]]

/-- `apply` has looked at the payment, and `watch` begins: it reads the tip below the block, returns the
block's height, and the payment is in no entry once the block is written. -/
theorem half_applied_payment_missed : ∃ c, Reached payingChain (fun _ _ => True) c ∧
    c.calls 0 = .returned [1] 1 ∧ c.db.tip = some (1,11) ∧ payingChain[1]? = some (paidBlock 11 1 [1]) ∧
    (paidBlock 11 1 [1]).txs.map (fun t => (t.1,t.2.txOut)) = [(11,[⟨5,[1]⟩])] ∧
    c.db.entries (.utxo [1] ⟨11,0⟩) = none ∧
    payingChain.flatMap (fun b => b.txs.zipIdx.flatMap blockSpends) = [] := by
  have hempty : Reached payingChain (fun _ _ => True) .empty := .empty
  have hstart := hempty.step (.start (b := paidBlock 1 0 []) rfl (show payingChain[0]? = some _ from rfl))
  have hbegin := hstart.step (.begin (b := paidBlock 11 1 [1]) rfl rfl rfl)
  have hlooked := hbegin.step (.transaction rfl rfl)
  have hcheck := hlooked.step (.check 0 [1] rfl rfl)
  have hread := hcheck.step (.read 0 rfl rfl)
  have hput := hread.step (.put 0 rfl)
  have hupdate := hput.step (.update 0 rfl trivial)
  have hwrite := hupdate.step (.write rfl rfl)
  exact ⟨_,hwrite,rfl,rfl,rfl,rfl,rfl,rfl⟩

/-- The map updated before the block is looked at, the payment is stored. -/
theorem early_watch_stores_payment : ∃ c, Reached payingChain Quiet c ∧ c.calls 0 = .returned [1] 1 ∧
    c.db.tip = some (1,11) ∧ NoneMissed payingChain c.db.entries [1] 1 1 ∧
    c.db.entries (.utxo [1] ⟨11,0⟩) = some (.utxo 5 1) := by
  have hempty : Reached payingChain Quiet .empty := .empty
  have hstart := hempty.step (.start (b := paidBlock 1 0 []) rfl (show payingChain[0]? = some _ from rfl))
  have hcheck := hstart.step (.check 0 [1] rfl rfl)
  have hread := hcheck.step (.read 0 rfl rfl)
  have hbegin := hread.step (.begin (b := paidBlock 11 1 [1]) rfl rfl rfl)
  have hput := hbegin.step (.put 0 rfl)
  have hupdate := hput.step (.update 0 rfl ⟨⟨1,rfl⟩,fun a ha => Option.some.inj ha ▸ rfl⟩)
  have hlooked := hupdate.step (.transaction rfl rfl)
  have hwrite := hlooked.step (.write rfl rfl)
  exact ⟨_,hwrite,rfl,rfl,nothing_missed_after_watch (by decide +kernel) hwrite (i := 0) rfl rfl,rfl⟩

end Sample

end DogePeg
