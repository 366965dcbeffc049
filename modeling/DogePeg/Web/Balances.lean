import DogePeg.Web.WalletIndex

/-!
# Balances of the wallet's index

A block's batch reads the database as it was before the block and keeps apart what the block created.
Where no output is spent twice in it, writing the batch is going through the transactions one after
another, each of which changes the unspent value of a script by the net it records in its history.
-/

namespace DogePeg

open Amounts Batches Function List BlockBatch Store

variable {nets n : Nets} {ops : List OutPoint} {k : IndexKey}

/-! ## Sums over the database -/

/-- What an entry counts for the unspent value of a script. -/
def utxoWeight (script : Script) : IndexKey → IndexValue → Int64
  | .utxo s _, .utxo value _ => if s = script then value else 0
  | _, _ => 0

/-- What an entry counts for the history of a script. -/
def netWeight (script : Script) : IndexKey → IndexValue → Int64
  | .history s _ _, .history net _ => if s = script then net else 0
  | _, _ => 0

noncomputable def storedValue (script : Script) (e : IndexEntries) : Int64 :=
  total (utxoWeight script) e

noncomputable def historyNet (script : Script) (e : IndexEntries) : Int64 :=
  total (netWeight script) e

def rowsValue (rows : List (IndexKey × IndexValue)) (script : Script) : Int64 :=
  total ((rows.filterMap (WalletIndex.storedUtxo script)).map IndexedUtxo.value)

def rowsNet (rows : List (IndexKey × IndexValue)) (script : Script) : Int64 :=
  total ((rows.filterMap (WalletIndex.storedTx script)).map IndexedTx.net)

section Rows

variable {e : IndexEntries} {rows : List (IndexKey × IndexValue)}

theorem rowsValue_eq (h : e.Lists rows) (script : Script) : rowsValue rows script = storedValue script e := by
  rw [rowsValue,total_eq_sum,sum_filterMap,storedValue,h.total_eq]
  refine sum_congr fun r _ => ?_
  obtain ⟨_ | _ | _,_ | _ | _⟩ := r <;> try rfl
  simp only [WalletIndex.storedUtxo,utxoWeight]
  split <;> rfl

theorem rowsNet_eq (h : e.Lists rows) (script : Script) : rowsNet rows script = historyNet script e := by
  rw [rowsNet,total_eq_sum,sum_filterMap,historyNet,h.total_eq]
  refine sum_congr fun r _ => ?_
  obtain ⟨_ | _ | _,_ | _ | _⟩ := r <;> try rfl
  simp only [WalletIndex.storedTx,netWeight]
  split <;> rfl

end Rows

theorem lookup_cons_eq {κ β : Type} [BEq κ] [LawfulBEq κ] [DecidableEq κ] (a : κ) (c : κ × β) (l : List (κ × β)) :
    (c::l).lookup a = if c.1 = a then some c.2 else l.lookup a := by
  rw [lookup_cons]
  by_cases h : c.1 = a
  · rw [if_pos h,h,beq_self_eq_true]
  · rw [if_neg h,beq_false_of_ne (Ne.symm h)]

namespace Nets

def of (nets : Nets) (script : Script) : Int64 := (nets.lookup script).getD 0

theorem of_cons (n : Script × Int64) (nets : Nets) (s : Script) :
    of (n::nets) s = if n.1 = s then n.2 else nets.of s := by
  rw [of,lookup_cons_eq]
  split <;> rfl

theorem of_eq_zero {s : Script} (h : s∉nets.map Prod.fst) : nets.of s = 0 := by
  induction nets with
  | nil => rfl
  | cons n nets ih =>
    rw [map_cons,mem_cons,not_or] at h
    rw [of_cons,if_neg (Ne.symm h.1),ih h.2]

theorem of_add (nets : Nets) (script : Script) (value : Int64) (s : Script) :
    (nets.add script value).of s = nets.of s+if script = s then value else 0 := by
  induction nets with
  | nil =>
    rw [add,of_cons]
    exact (zero_add _).symm
  | cons n nets ih =>
    unfold add
    split
    · next h =>
      rw [of_cons,of_cons,← h]
      split
      · rfl
      · rw [add_zero]
    · next h =>
      rw [of_cons,of_cons,ih]
      split
      · next hs => rw [if_neg (fun heq => h (hs.trans heq.symm)),add_zero]
      · rfl

theorem mem_keys_add {script s : Script} {value : Int64} :
    s ∈ (nets.add script value).map Prod.fst ↔ s∈nets.map Prod.fst ∨ s = script := by
  induction nets with
  | nil => simp [add]
  | cons n nets ih =>
    unfold add
    split
    · next h =>
      simp only [map_cons,mem_cons,h]
      tauto
    · simp only [map_cons,mem_cons,ih,or_assoc]

theorem nodup_add (h : (nets.map Prod.fst).Nodup) (script : Script) (value : Int64) :
    ((nets.add script value).map Prod.fst).Nodup := by
  induction nets with
  | nil => simp [add]
  | cons n nets ih =>
    rw [map_cons,nodup_cons] at h
    unfold add
    split
    · exact nodup_cons.mpr h
    · next hne =>
      refine nodup_cons.mpr ⟨fun hmem => ?_, ih h.2⟩
      rcases mem_keys_add.mp hmem with hmem | heq
      · exact h.1 hmem
      · exact hne heq

end Nets

/-! ## Transactions on the entries themselves -/

/-- What a transaction of a block spends: the first, the coinbase, nothing. -/
def blockSpends (t : (Hash × MsgTx) × ℕ) : List OutPoint := if 0 < t.2 then t.1.2.spends else []

namespace IndexEntries

def output (e : IndexEntries) (op : OutPoint) : Option (Script × Int64) :=
  match e (.owner op) with
  | some (.owner script) =>
    match e (.utxo script op) with
    | some (.utxo value _) => some (script,value)
    | _ => none
  | _ => none

def spend (acc : IndexEntries × Nets) (op : OutPoint) : IndexEntries × Nets :=
  match output acc.1 op with
  | some (script,value) =>
    (update (update acc.1 (.utxo script op) none) (.owner op) none,acc.2.add script (-value))
  | none => acc

def pay (watched : Script → Bool) (height : ℕ) (txid : Hash) (acc : IndexEntries × Nets)
    (out : TxOut × ℕ) : IndexEntries × Nets :=
  if watched out.1.pkScript then
    let op : OutPoint := ⟨txid,UInt32.ofNat out.2⟩
    (update (update acc.1 (.utxo out.1.pkScript op) (some (.utxo out.1.value height)))
        (.owner op) (some (.owner out.1.pkScript)),
      acc.2.add out.1.pkScript out.1.value)
  else acc

/-- The entries after the inputs and outputs of a transaction, and what it changes of each script. -/
def touch (watched : Script → Bool) (height : ℕ) (e : IndexEntries) (t : (Hash × MsgTx) × ℕ) : IndexEntries × Nets :=
  t.1.2.txOut.zipIdx.foldl (pay watched height t.1.1) ((blockSpends t).foldl spend (e,[]))

/-- The history of a transaction. -/
def record (height : ℕ) (unix : ℤ) (txid : Hash) (acc : IndexEntries × Nets) : IndexEntries :=
  acc.2.foldl (fun e n => update e (.history n.1 height txid) (some (.history n.2 unix))) acc.1

def transaction (watched : Script → Bool) (height : ℕ) (unix : ℤ) (e : IndexEntries)
    (t : (Hash × MsgTx) × ℕ) : IndexEntries :=
  record height unix t.1.1 (touch watched height e t)

def block (watched : Script → Bool) (height : ℕ) (unix : ℤ) (e : IndexEntries)
    (txs : List (Hash × MsgTx)) : IndexEntries :=
  txs.zipIdx.foldl (transaction watched height unix) e

end IndexEntries

open IndexEntries

section Output

variable {e e' : IndexEntries} {op op' : OutPoint} {s : Script} {v : Int64}

theorem output_eq_some : output e op = some (s,v) ↔
    e (.owner op) = some (.owner s) ∧ ∃ h, e (.utxo s op) = some (.utxo v h) := by
  unfold output
  constructor
  · intro h
    split at h
    · next t ht =>
      split at h
      · next w height hw =>
        cases h
        exact ⟨ht,height,hw⟩
      · cases h
    · cases h
  · rintro ⟨howner,height,hutxo⟩
    rw [howner]
    simp only [hutxo]

theorem output_congr (howner : e (.owner op)=e' (.owner op)) (hutxo : ∀ s, e (.utxo s op) = e' (.utxo s op)) :
    output e op = output e' op := by
  simp only [output,howner,hutxo]

theorem output_update_of_ne (h : op'≠op) (u o : Option IndexValue) :
    output (update (update e (.utxo s op) u) (.owner op) o) op' = output e op' :=
  output_congr (by simp [h]) (by simp [h])

theorem output_update_none : output (update (update e (.utxo s op) none) (.owner op) none) op = none := by
  rw [output,update_self]

theorem output_update_some (height : ℕ) : output (update (update e (.utxo s op) (some (.utxo v height))) (.owner op)
      (some (.owner s))) op = some (s,v) := output_eq_some.mpr ⟨by simp, height, by simp⟩

theorem output_update_history (height : ℕ) (txid : Hash) (h : Option IndexValue) :
    output (update e (.history s height txid) h) op = output e op := output_congr (by simp) (by simp)

end Output

/-! ## A batch is what its transactions do one after another -/

section Batch

variable {entries e : IndexEntries} {spent : List OutPoint} {b : BlockBatch} {op : OutPoint}

theorem lookup_drop (b : BlockBatch) (op op' : OutPoint) (script : Script) :
    (b.drop op script).created.lookup op' = if op' = op then none else b.created.lookup op' := by
  simp only [BlockBatch.drop]
  induction b.created with
  | nil => simp
  | cons c l ih =>
    by_cases hc : c.1 = op
    · rw [filter_cons_of_neg (by simpa using hc),ih,lookup_cons_eq]
      split
      · rfl
      · next h => rw [if_neg (fun heq => h (heq.symm.trans hc))]
    · rw [filter_cons_of_pos (by simpa using hc),lookup_cons_eq,lookup_cons_eq,ih]
      split
      · next h => rw [if_neg (fun heq => hc (h.trans heq))]
      · rfl

theorem spend_of_lookup_none (entries : IndexEntries) (h : b.created.lookup op=none) :
    output entries op = none ∧ spend entries (b,n) op = (b,n) ∨
      ∃ s v height, output entries op = some (s,v) ∧ spend entries (b,n) op =
          ((b.del (.utxo s op) (.utxo v height)).del (.owner op) (.owner s),n.add s (-v)) := by
  fun_cases spend entries (b,n) op with
  | case1 script value hlookup =>
    rw [h] at hlookup
    cases hlookup
  | case2 _ script howner value height hutxo =>
    exact .inr ⟨script,value,height,output_eq_some.mpr ⟨howner,height,hutxo⟩,rfl⟩
  | case3 _ script howner hutxo =>
    refine .inl ⟨?_,rfl⟩
    rw [output,howner]
    simp only
  | case4 _ howner =>
    refine .inl ⟨?_,rfl⟩
    unfold output
    split
    · next s hs => exact absurd hs (howner s)
    · rfl

/-- The entries `e` are those of the batch so far. What the block created is among them, and an
output it has neither created nor spent is as it was before. -/
structure BlockBatch.Shows (entries : IndexEntries) (spent : List OutPoint) (b : BlockBatch)
    (e : IndexEntries) : Prop where
  eq : entries.write b.writes = e
  created : ∀ op c, b.created.lookup op = some c → output e op = some c
  untouched : ∀ op, op ∉ spent → b.created.lookup op = none →
    output e op = output entries op

namespace BlockBatch.Shows

theorem empty : Shows entries [] .empty entries :=
  ⟨rfl,fun _ _ h => by simp [BlockBatch.empty] at h, fun _ _ _ => rfl⟩

theorem spend (h : Shows entries spent b e) (hop : op∉spent) :
    Shows entries (op::spent) (BlockBatch.spend entries (b,n) op).1 (IndexEntries.spend (e,n) op).1 ∧
      (BlockBatch.spend entries (b,n) op).2 = (IndexEntries.spend (e,n) op).2 := by
  cases hcreated : b.created.lookup op with
  | some c =>
    simp only [BlockBatch.spend,IndexEntries.spend,hcreated,h.created op c hcreated,and_true]
    refine ⟨?_,fun op' c' hop' => ?_, fun op' hspent hop' => ?_⟩
    · rw [BlockBatch.drop,write_append,h.eq]
      rfl
    · rw [lookup_drop] at hop'
      split at hop'
      · cases hop'
      · next hne => rw [output_update_of_ne hne,h.created op' c' hop']
    · rw [mem_cons,not_or] at hspent
      rw [lookup_drop,if_neg hspent.1] at hop'
      rw [output_update_of_ne hspent.1,h.untouched op' hspent.2 hop']
  | none =>
    have hout := h.untouched op hop hcreated
    rcases spend_of_lookup_none entries (n := n) hcreated with
      ⟨hnone,hspend⟩ | ⟨s,v,height,hsome,hspend⟩
    · rw [hspend,IndexEntries.spend,hout,hnone]
      exact ⟨⟨h.eq,h.created,fun op' hop' => h.untouched op' (fun hmem => hop' (mem_cons_of_mem _ hmem))⟩,rfl⟩
    · rw [hspend,IndexEntries.spend,hout,hsome]
      refine ⟨⟨?_,fun op' c hop' => ?_, fun op' hspent hop' => ?_⟩,rfl⟩
      · simp only [BlockBatch.del,write_append,h.eq]
        rfl
      · have hne : op' ≠ op := by
          rintro rfl
          exact absurd (hcreated.symm.trans hop') (Option.some_ne_none c).symm
        rw [output_update_of_ne hne]
        exact h.created op' c hop'
      · rw [mem_cons,not_or] at hspent
        rw [output_update_of_ne hspent.1]
        exact h.untouched op' hspent.2 hop'

theorem spends (h : Shows entries spent b e) (hops : ops.Nodup) (hnew : ∀ op∈ops, op ∉ spent) :
    Shows entries (ops.reverse++spent) (ops.foldl (BlockBatch.spend entries) (b,n)).1
        (ops.foldl IndexEntries.spend (e,n)).1 ∧
      (ops.foldl (BlockBatch.spend entries) (b,n)).2 = (ops.foldl IndexEntries.spend (e,n)).2 := by
  induction ops generalizing b e n spent with
  | nil => exact ⟨h,rfl⟩
  | cons op ops ih =>
    rw [nodup_cons] at hops
    obtain ⟨hstep,hnets⟩ := h.spend (n := n) (hnew op (mem_cons_self ..))
    have hrest : ∀ op'∈ops, op' ∉ op::spent := by
      intro op' hmem hin
      rcases mem_cons.mp hin with rfl | hin
      · exact hops.1 hmem
      · exact hnew op' (mem_cons_of_mem _ hmem) hin
    have hfold := ih hstep hops.2 hrest (n := (IndexEntries.spend (e,n) op).2)
    rw [foldl_cons,foldl_cons,reverse_cons,append_assoc,singleton_append]
    rwa [← hnets,Prod.mk.eta,hnets,Prod.mk.eta] at hfold

theorem pay (h : Shows entries spent b e) (watched : Script → Bool) (height : ℕ) (txid : Hash) (out : TxOut × ℕ) :
    Shows entries spent (pay watched height txid (b,n) out).1 (IndexEntries.pay watched height txid (e,n) out).1 ∧
      (pay watched height txid (b,n) out).2 = (IndexEntries.pay watched height txid (e,n) out).2 := by
  unfold BlockBatch.pay IndexEntries.pay
  split
  · refine ⟨⟨?_,fun op c hop => ?_, fun op hspent hop => ?_⟩,rfl⟩
    · simp only [put,write_append,h.eq]
      rfl
    · rw [lookup_cons_eq] at hop
      split at hop
      · next heq =>
        cases hop
        rw [← heq,output_update_some]
      · next hne =>
        rw [output_update_of_ne (Ne.symm hne)]
        exact h.created op c hop
    · rw [lookup_cons_eq] at hop
      split at hop
      · cases hop
      · next hne =>
        rw [output_update_of_ne (Ne.symm hne)]
        exact h.untouched op hspent hop
  · exact ⟨h,rfl⟩

theorem put_history (h : Shows entries spent b e) (s : Script) (height : ℕ) (txid : Hash) (v : IndexValue) :
    Shows entries spent (b.put (.history s height txid) v) (update e (.history s height txid) (some v)) := by
  refine ⟨?_,fun op c hop => ?_, fun op hspent hop => ?_⟩
  · rw [put,write_append,h.eq]
    rfl
  · rw [output_update_history]
    exact h.created op c hop
  · rw [output_update_history]
    exact h.untouched op hspent hop

theorem transaction {watched : Script → Bool} {height : ℕ} {unix : ℤ} {t : (Hash × MsgTx) × ℕ}
    (h : Shows entries spent b e) (hspends : (blockSpends t).Nodup) (hnew : ∀ op∈blockSpends t, op ∉ spent) :
    Shows entries ((blockSpends t).reverse++spent) (BlockBatch.transaction watched entries height unix b t)
      (IndexEntries.transaction watched height unix e t) := by
  have hfirst : (if 0 < t.2 then t.1.2.spends.foldl (BlockBatch.spend entries) (b,[]) else (b,[])) =
      (blockSpends t).foldl (BlockBatch.spend entries) (b,[]) := by
    unfold blockSpends
    split <;> rfl
  have hpaid (outs : List (TxOut × ℕ)) {b : BlockBatch × Nets} {e : IndexEntries × Nets} {spent : List OutPoint}
      (h : Shows entries spent b.1 e.1 ∧ b.2 = e.2) :
      Shows entries spent (outs.foldl (BlockBatch.pay watched height t.1.1) b).1
          (outs.foldl (IndexEntries.pay watched height t.1.1) e).1 ∧
        (outs.foldl (BlockBatch.pay watched height t.1.1) b).2 =
          (outs.foldl (IndexEntries.pay watched height t.1.1) e).2 := by
    induction outs generalizing b e with
    | nil => exact h
    | cons out outs ih =>
      obtain ⟨b,n⟩ := b
      obtain ⟨e,n'⟩ := e
      obtain ⟨hshows,rfl⟩ := h
      exact ih (hshows.pay watched height t.1.1 out)
  have hrecorded {nets : Nets} {b : BlockBatch} {e : IndexEntries} {spent : List OutPoint}
      (h : Shows entries spent b e) : Shows entries spent
        (nets.foldl (fun b n => b.put (.history n.1 height t.1.1) (.history n.2 unix)) b)
        (nets.foldl (fun e n => update e (.history n.1 height t.1.1) (some (.history n.2 unix))) e) := by
    induction nets generalizing b e with
    | nil => exact h
    | cons n nets ih => exact ih (h.put_history n.1 height t.1.1 (.history n.2 unix))
  obtain ⟨hshows,hnets⟩ := hpaid t.1.2.txOut.zipIdx (h.spends (n := []) hspends hnew)
  simp only [BlockBatch.transaction,IndexEntries.transaction,IndexEntries.record,IndexEntries.touch,hfirst,hnets]
  exact hrecorded hshows

end BlockBatch.Shows

/-- Where no output is spent twice in a block, its batch is what its transactions do to the entries
one after another. -/
theorem write_block (watched : Script → Bool) (height : ℕ) (unix : ℤ) {txs : List (Hash × MsgTx)}
    (h : (txs.zipIdx.flatMap blockSpends).Nodup) : entries.write (block watched entries height unix txs).writes =
      block watched height unix entries txs := by
  have hfold {l : List ((Hash × MsgTx) × ℕ)} {b : BlockBatch} {e : IndexEntries} {spent : List OutPoint}
      (hb : b.Shows entries spent e) (hl : (l.flatMap blockSpends++spent).Nodup) :
      entries.write (l.foldl (transaction watched entries height unix) b).writes =
        l.foldl (transaction watched height unix) e := by
    induction l generalizing b e spent with
    | nil => exact hb.eq
    | cons t l ih =>
      rw [flatMap_cons,append_assoc,nodup_append] at hl
      obtain ⟨hspends,hrest,hdisjoint⟩ := hl
      refine ih (hb.transaction hspends fun op hop hin =>
        hdisjoint op hop op (mem_append_right _ hin) rfl) ?_
      rw [nodup_append] at hrest ⊢
      obtain ⟨hl,hspent,hapart⟩ := hrest
      refine ⟨hl,nodup_append.mpr ⟨nodup_reverse.mpr hspends,hspent,fun op hop op' hop' => ?_⟩,
        fun op hop op' hop' => ?_⟩
      · exact hdisjoint op (mem_reverse.mp hop) op' (mem_append_right _ hop')
      · rcases mem_append.mp hop' with hop' | hop'
        · exact (hdisjoint op' (mem_reverse.mp hop') op (mem_append_left _ hop)).symm
        · exact hapart op hop op' hop'
  exact hfold .empty (by simpa using h)

end Batch

/-! ## What a transaction changes -/

/-- The entries and nets after some inputs and outputs of a transaction, gone through from `e`: the
value of each script changed by its net, and no history yet. -/
structure Moved (e : IndexEntries) (acc : IndexEntries × Nets) : Prop where
  finite : acc.1.IsFinite
  value : ∀ s, storedValue s acc.1 = storedValue s e+acc.2.of s
  history : ∀ s height txid, acc.1 (.history s height txid) = e (.history s height txid)
  nodup : (acc.2.map Prod.fst).Nodup

section Change

variable {e : IndexEntries} {acc : IndexEntries × Nets} {op : OutPoint} {s : Script} {v : Int64}
  {watched : Script → Bool} {height : ℕ} {unix : ℤ} {txid : Hash} {t : (Hash × MsgTx) × ℕ}

theorem storedValue_update (he : e.IsFinite) (s : Script) (op : OutPoint) (u o : Option IndexValue) (script : Script) :
    storedValue script (update (update e (.utxo s op) u) (.owner op) o) =
      storedValue script e-(e (.utxo s op)).elim 0 (utxoWeight script (.utxo s op)) +
        u.elim 0 (utxoWeight script (.utxo s op)) := by
  have howner (v : IndexValue) : utxoWeight script (.owner op) v = 0 := rfl
  rw [storedValue,total_update_of_zero (he.update _ _) howner,total_update _ he]
  rfl

theorem Moved.refl (he : e.IsFinite) : Moved e (e,[]) :=
  ⟨he,fun _ => (add_zero _).symm, fun _ _ _ => rfl, nodup_nil⟩

theorem Moved.spend (h : Moved e acc) (op : OutPoint) : Moved e (spend acc op) := by
  unfold IndexEntries.spend
  split
  · next s v hout =>
    obtain ⟨-,height,hutxo⟩ := output_eq_some.mp hout
    refine ⟨(h.finite.update _ _).update _ _,fun script => ?_, fun t height txid => ?_, Nets.nodup_add h.nodup ..⟩
    · rw [storedValue_update h.finite,hutxo,h.value,Nets.of_add]
      simp only [Option.elim_some,Option.elim_none,utxoWeight]
      split <;> abel
    · simpa using h.history t height txid
  · exact h

theorem Moved.pay (h : Moved e acc) {out : TxOut × ℕ}
    (hnew : acc.1 (.utxo out.1.pkScript ⟨txid,UInt32.ofNat out.2⟩)=none) :
    Moved e (pay watched height txid acc out) := by
  unfold IndexEntries.pay
  split
  · refine ⟨(h.finite.update _ _).update _ _,fun script => ?_, fun t height txid => ?_, Nets.nodup_add h.nodup ..⟩
    · rw [storedValue_update h.finite,hnew,h.value,Nets.of_add]
      simp only [Option.elim_some,Option.elim_none,utxoWeight]
      abel
    · simpa using h.history t height txid
  · exact h

theorem pay_apply_of_ne {out : TxOut × ℕ}
    (hk : k ≠ .utxo out.1.pkScript ⟨txid,UInt32.ofNat out.2⟩) (hk' : k ≠ .owner ⟨txid,UInt32.ofNat out.2⟩) :
    (pay watched height txid acc out).1 k = acc.1 k := by
  unfold IndexEntries.pay
  split
  · exact (update_of_ne hk' ..).trans (update_of_ne hk ..)
  · rfl

theorem Moved.pays {outs : List (TxOut × ℕ)} (h : Moved e acc)
    (hnew : ∀ out∈outs, acc.1 (.utxo out.1.pkScript ⟨txid,UInt32.ofNat out.2⟩) = none)
    (hnodup : (outs.map fun out => UInt32.ofNat out.2).Nodup) :
    Moved e (outs.foldl (IndexEntries.pay watched height txid) acc) := by
  induction outs generalizing acc with
  | nil => exact h
  | cons out outs ih =>
    rw [map_cons,nodup_cons] at hnodup
    refine ih (h.pay (hnew out (mem_cons_self ..))) (fun out' hmem => ?_) hnodup.2
    have hne : UInt32.ofNat out'.2 ≠ UInt32.ofNat out.2 := fun heq =>
      hnodup.1 (mem_map.mpr ⟨out',hmem,heq⟩)
    rw [pay_apply_of_ne (by simp [hne]) (by simp)]
    exact hnew out' (mem_cons_of_mem _ hmem)

theorem nodup_indices (tx : MsgTx) : (tx.txOut.zipIdx.map fun out => UInt32.ofNat out.2).Nodup := by
  have hindices : (tx.txOut.zipIdx.map Prod.snd).Nodup := by
    rw [zipIdx_map_snd]
    exact nodup_range'
  change (tx.txOut.zipIdx.map (UInt32.ofNat ∘ Prod.snd)).Nodup
  rw [← map_map]
  refine List.Nodup.map_on (fun i hi j hj heq => ?_) hindices
  rw [zipIdx_map_snd,mem_range'_1] at hi hj
  have htoNat := congrArg UInt32.toNat heq
  rwa [toNat_index tx (by omega),toNat_index tx (by omega)] at htoNat

theorem spend_apply (h : acc.1 k=none) : (spend acc op).1 k = none := by
  unfold IndexEntries.spend
  split
  · simp only [update_apply]
    split
    · rfl
    · split
      · rfl
      · exact h
  · exact h

theorem spends_apply (h : acc.1 k=none) : (ops.foldl spend acc).1 k = none :=
  List.foldlRecOn ops _ (motive := fun acc : IndexEntries × Nets => acc.1 k = none) h fun _ hacc _ _ => spend_apply hacc

theorem moved_touch (watched : Script → Bool) (height : ℕ) (he : e.IsFinite)
    (hfresh : ∀ k, k.txid = t.1.1 → e k = none) : Moved e (touch watched height e t) := by
  have hspent : Moved e ((blockSpends t).foldl spend (e,[])) :=
    List.foldlRecOn (blockSpends t) _ (motive := Moved e) (.refl he) fun _ hacc op _ => hacc.spend op
  refine hspent.pays (fun out _ => spends_apply ?_) (nodup_indices t.1.2)
  exact hfresh _ rfl

theorem historyNet_record (he : e.IsFinite) (hnodup : (nets.map Prod.fst).Nodup)
    (hfresh : ∀ n∈nets, e (.history n.1 height txid) = none) (s : Script) :
    historyNet s (record height unix txid (e,nets)) = historyNet s e+nets.of s := by
  unfold record
  induction nets generalizing e with
  | nil => exact (add_zero _).symm
  | cons n nets ih =>
    rw [map_cons,nodup_cons] at hnodup
    have hrest : ∀ m∈nets, update e (.history n.1 height txid) (some (.history n.2 unix))
        (.history m.1 height txid) = none := by
      intro m hm
      have hne : m.1 ≠ n.1 := fun heq => hnodup.1 (heq ▸ mem_map_of_mem hm)
      rw [update_of_ne (by simp [hne])]
      exact hfresh m (mem_cons_of_mem _ hm)
    have hfirst := hfresh n (mem_cons_self ..)
    rw [foldl_cons,ih (he.update _ _) hnodup.2 hrest,historyNet,total_update _ he,hfirst,Nets.of_cons]
    simp only [Option.elim_some,Option.elim_none,netWeight,sub_zero]
    split
    · next h =>
      rw [Nets.of_eq_zero (h ▸ hnodup.1),add_zero]
      rfl
    · rw [add_zero]
      rfl

theorem storedValue_record (height : ℕ) (unix : ℤ) (txid : Hash) (acc : IndexEntries × Nets) (hacc : acc.1.IsFinite)
    (s : Script) :
    storedValue s (record height unix txid acc) = storedValue s acc.1 ∧ (record height unix txid acc).IsFinite :=
  List.foldlRecOn acc.2 _ (motive := fun e => storedValue s e = storedValue s acc.1 ∧ e.IsFinite)
    ⟨rfl,hacc⟩ fun _ he _ _ =>
      ⟨(total_update_of_zero he.2 (fun _ => rfl) _).trans he.1,he.2.update _ _⟩

/-- A transaction not indexed before changes the value of each script by its net, and the sum of
the script's history by the same. -/
theorem transaction_balance (watched : Script → Bool) (height : ℕ) (unix : ℤ) (he : e.IsFinite)
    (hfresh : ∀ k, k.txid = t.1.1 → e k = none) (s : Script) :
    storedValue s (transaction watched height unix e t) = storedValue s e+(touch watched height e t).2.of s ∧
      historyNet s (transaction watched height unix e t) = historyNet s e+(touch watched height e t).2.of s ∧
      (IndexEntries.transaction watched height unix e t).IsFinite := by
  have hmoved := moved_touch watched height he hfresh
  obtain ⟨hvalue,hfinite⟩ := storedValue_record height unix t.1.1 _ hmoved.finite s
  refine ⟨hvalue.trans (hmoved.value s),?_,hfinite⟩
  have hnet : historyNet s (touch watched height e t).1 = historyNet s e := by
    refine total_congr fun k => ?_
    cases k with
    | utxo script op => exact .inr fun _ => rfl
    | owner op => exact .inr fun _ => rfl
    | history script h txid => exact .inl (hmoved.history script h txid)
  rw [IndexEntries.transaction,historyNet_record hmoved.finite hmoved.nodup (fun n _ => ?_),hnet]
  rw [hmoved.history]
  exact hfresh _ rfl

theorem transaction_apply (hk : k.txid≠t.1.1) (h : e k=none) : transaction watched height unix e t k = none := by
  have hpaid : (touch watched height e t).1 k = none := by
    refine List.foldlRecOn _ _ (motive := fun acc : IndexEntries × Nets => acc.1 k = none) (spends_apply h)
      fun acc hacc out _ => ?_
    rw [pay_apply_of_ne (by rintro rfl; exact hk rfl) (by rintro rfl; exact hk rfl),hacc]
  refine List.foldlRecOn _ _ (motive := fun e : IndexEntries => e k = none) hpaid fun e he n _ => ?_
  have hne : k ≠ .history n.1 height t.1.1 := by
    rintro rfl
    exact hk rfl
  rw [update_of_ne hne,he]

theorem output_spend_of_ne {op' : OutPoint} (h : op'≠op) : output (spend acc op).1 op' = output acc.1 op' := by
  unfold IndexEntries.spend
  split
  · exact output_update_of_ne h ..
  · rfl

theorem output_spends (h : op∉ops) : output (ops.foldl spend acc).1 op = output acc.1 op := by
  refine List.foldlRecOn ops _ (motive := fun a : IndexEntries × Nets =>
    output a.1 op = output acc.1 op) rfl fun a ha op' hop' => ?_
  have hne : op ≠ op' := by
    rintro rfl
    exact h hop'
  rw [output_spend_of_ne hne,ha]

end Change

end DogePeg
