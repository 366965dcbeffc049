import DogePeg.Lib.Totals
import DogePeg.Signer.LogFile
import DogePeg.Web.DogeIndex

/-!
# Addresses and imports of the wallet's index

`watch` and `importTx` of `cmd/dogevm/dogeindex.go`. Whatever these write, an output is stored under its
script exactly where that script is stored as its owner.
-/

namespace DogePeg

open Amounts Batches Checks Function List Option BlockBatch DogeIndex

/-- `dogeSource`, with what `importTx` asks of it. A transaction in no block is at height 0, and an
output an unconfirmed transaction spends counts as spent. -/
structure DogeNode extends DogeSource where
  txBlock : Hash → Except String (ℤ × ℤ)
  unspentOutput : OutPoint → Except String Bool

/-- `dogeIndex`: the database and the registered heights of the scripts it watches. -/
structure WalletIndex where
  db : DogeIndex
  watched : Script → Option ℕ

structure IndexedUtxo where
  op : OutPoint
  value : Int64
  height : ℕ
  deriving DecidableEq

/-- An unconfirmed transaction is at height 0. -/
structure IndexedTx where
  txid : Hash
  net : Int64
  height : ℕ
  unix : ℤ
  deriving DecidableEq

namespace WalletIndex

def empty : WalletIndex := ⟨.empty,fun _ => none⟩

def isWatched (x : WalletIndex) (script : Script) : Bool := (x.watched script).isSome

def watch (x : WalletIndex) (script : Script) : Except String (ℕ × WalletIndex) :=
  match x.watched script with
  | some height => .ok (height,x)
  | none =>
    match x.db.tip with
    | none => .error "the Dogecoin index has not started; the node may still be syncing"
    | some (height,_) =>
      .ok (height+1,{ x with watched := update x.watched script (some (height+1)) })

def sync (x : WalletIndex) (node : DogeNode) (fuel : ℕ) : Option (WalletIndex × Except String Unit) :=
  (x.db.sync x.isWatched node.toDogeSource fuel).map fun r => ({ x with db := r.1 },r.2)

/-- The outputs of a transaction that pay a script and are unspent. -/
def unspentPayments (node : DogeNode) (script : Script) (txid : Hash) (tx : MsgTx) :
    Except String (List (OutPoint × Int64)) := do
  let asked ← (tx.txOut.zipIdx.filter fun out => out.1.pkScript = script).mapM fun out => do
    let op : OutPoint := ⟨txid,UInt32.ofNat out.2⟩
    return ((op,out.1.value),← node.unspentOutput op)
  return (asked.filter Prod.snd).map Prod.fst

/-- The batch of `importTx`. -/
def importWrites (script : Script) (txid : Hash) (height : ℕ) (unix : ℤ)
    (payments : List (OutPoint × Int64)) : List (Write IndexKey IndexValue) :=
  (payments.flatMap fun p =>
    [.put (.utxo script p.1) (.utxo p.2 height),.put (.owner p.1) (.owner script)]) ++
    [.put (.history script height txid) (.history (total (payments.map Prod.snd)) unix)]

def importTx (x : WalletIndex) (node : DogeNode) (script : Script) (txid : Hash) : Except String (ℕ × WalletIndex) := do
  ensure (x.isWatched script) "address is not registered"
  let tx ← (node.rawTx txid).mapError fun _ =>
    "this node does not have transaction " ++ String.ofList (hashText txid)
  let (height,unix) ← node.txBlock txid
  ensure (0 < height) "the transaction is not in a block yet; it will appear on its own once it is"
  let payments ← unspentPayments node script txid tx
  ensure (payments ≠ []) "no unspent output of that transaction pays this address"
  return (payments.length,{ x with
    db.entries := x.db.entries.write (importWrites script txid height.toNat unix payments) })

def storedUtxo (script : Script) : IndexKey × IndexValue → Option IndexedUtxo
  | (.utxo s op,.utxo value height) => if s = script then some ⟨op,value,height⟩ else none
  | _ => none

def storedTx (script : Script) : IndexKey × IndexValue → Option IndexedTx
  | (.history s height txid,.history net unix) =>
    if s = script then some ⟨txid,net,height,unix⟩ else none
  | _ => none

end WalletIndex

/-! ## Outputs are stored with their owner -/

/-- The script an output pays, the bodies of the transactions given. -/
def payee (body : Hash → MsgTx) (op : OutPoint) : Option Script :=
  (body op.hash).txOut[op.index.toNat]?.map TxOut.pkScript

/-- The source answers with those bodies. -/
def DogeSource.Gives (src : DogeSource) (body : Hash → MsgTx) : Prop :=
  ∀ txid tx, src.rawTx txid = .ok tx → tx = body txid

/-- An output is stored under the script it pays, together with its owner. -/
structure Paired (body : Hash → MsgTx) (e : IndexEntries) : Prop where
  utxo : ∀ s op, e (.utxo s op) ≠ none → payee body op = some s ∧ e (.owner op) = some (.owner s)
  owner : ∀ op, e (.owner op) ≠ none →
    ∃ s v h, e (.owner op) = some (.owner s) ∧ e (.utxo s op) = some (.utxo v h)

section Pairs

variable {body : Hash → MsgTx} {e : IndexEntries} {op : OutPoint} {s : Script} {tx : MsgTx}

theorem toNat_index (tx : MsgTx) {i : ℕ} (hi : i<tx.txOut.length) : (UInt32.ofNat i).toNat = i := by
  have hle := tx.outputs_le
  unfold maxTxOutPerMessage at hle
  rw [UInt32.toNat_ofNat']
  omega

theorem payee_of_mem {out : TxOut × ℕ} {txid : Hash} (h : out∈(body txid).txOut.zipIdx) :
    payee body ⟨txid,UInt32.ofNat out.2⟩ = some out.1.pkScript := by
  have hget := mem_zipIdx_iff_getElem?.mp h
  have hlt := (List.getElem?_eq_some_iff.mp hget).1
  rw [payee,toNat_index _ hlt,hget,map_some]

theorem Paired.empty : Paired body fun _ => none := ⟨fun _ _ h => absurd rfl h, fun _ h => absurd rfl h⟩

/-- The two writes of an output: both keys have a value after them, or neither. -/
theorem Paired.write_pair (h : Paired body e) (hs : payee body op=some s) {u o : Option IndexValue}
    (huo : u = none ∧ o = none ∨ ∃ v height, u = some (.utxo v height) ∧ o = some (.owner s)) :
    Paired body (update (update e (.utxo s op) u) (.owner op) o) := by
  have hother {t : Script} {op' : OutPoint} (hne : op'≠op) :
      update (update e (.utxo s op) u) (.owner op) o (.utxo t op') = e (.utxo t op') ∧
        update (update e (.utxo s op) u) (.owner op) o (.owner op') = e (.owner op') := by
    simp [hne]
  -- another script than the one the output pays never has it
  have hscript {t : Script} (ht : t≠s) : e (.utxo t op) = none := by
    by_contra hne
    exact ht (Option.some.inj ((h.utxo t op hne).1.symm.trans hs))
  constructor
  · intro t op' hne
    by_cases hop : op' = op
    · subst hop
      by_cases ht : t = s
      · subst ht
        rcases huo with ⟨rfl,rfl⟩ | ⟨v,height,rfl,rfl⟩
        · simp at hne
        · exact ⟨hs,by simp⟩
      · simp [ht,hscript ht] at hne
    · rw [(hother hop).1] at hne
      rw [(hother (t := s) hop).2]
      exact h.utxo t op' hne
  · intro op' hne
    by_cases hop : op' = op
    · subst hop
      rcases huo with ⟨rfl,rfl⟩ | ⟨v,height,rfl,rfl⟩
      · simp at hne
      · exact ⟨s,v,height,by simp, by simp⟩
    · rw [(hother (t := s) hop).2] at hne
      obtain ⟨t,v,height,howner,hutxo⟩ := h.owner op' hne
      exact ⟨t,v,height,by rw [(hother (t := s) hop).2,howner], by rw [(hother hop).1,hutxo]⟩

theorem Paired.record (h : Paired body e) (height : ℕ) (txid : Hash) (v : Option IndexValue) :
    Paired body (update e (.history s height txid) v) := by
  constructor
  · intro t op hne
    rw [update_of_ne (by simp)] at hne
    rw [update_of_ne (by simp)]
    exact h.utxo t op hne
  · intro op hne
    rw [update_of_ne (by simp)] at hne
    obtain ⟨t,v,height,howner,hutxo⟩ := h.owner op hne
    exact ⟨t,v,height,by rwa [update_of_ne (by simp)], by rwa [update_of_ne (by simp)]⟩

/-- Batches that write an output and its owner together. -/
inductive PairedWrites (body : Hash → MsgTx) : List (Write IndexKey IndexValue) → Prop where
  | nil : PairedWrites body []
  | put {ws op s} (v : Int64) (height : ℕ)
      (writes : PairedWrites body ws) (pays : payee body op=some s) :
      PairedWrites body (ws++[.put (.utxo s op) (.utxo v height),.put (.owner op) (.owner s)])
  | delete {ws op s}
      (writes : PairedWrites body ws) (pays : payee body op=some s) :
      PairedWrites body (ws++[.delete (.utxo s op),.delete (.owner op)])
  | record {ws} (s : Script) (height : ℕ) (txid : Hash)
      (v : IndexValue) (writes : PairedWrites body ws) :
      PairedWrites body (ws++[.put (.history s height txid) v])

theorem Paired.write (h : Paired body e) {ws : List (Write IndexKey IndexValue)}
    (hws : PairedWrites body ws) : Paired body (e.write ws) := by
  induction hws with
  | nil => exact h
  | put v height _ pays ih =>
    rw [Store.write_append]
    exact ih.write_pair pays (.inr ⟨v,height,rfl,rfl⟩)
  | delete _ pays ih =>
    rw [Store.write_append]
    exact ih.write_pair pays (.inl ⟨rfl,rfl⟩)
  | record s height txid v _ ih =>
    rw [Store.write_append]
    exact ih.record height txid (some v)

end Pairs

/-! ## What the calls leave -/

section Reach

variable {body : Hash → MsgTx} {watched : Script → Bool} {src : DogeSource}

namespace DogeIndex

variable {x x' : DogeIndex}

theorem sync_keeps {P : DogeIndex → Prop} (hturn : ∀ x x' go, P x → x.turn watched src = .ok (x',go) → P x') {fuel : ℕ}
    {r : Except String Unit} (hx : P x) (h : x.sync watched src fuel=some (x',r)) : P x' := by
  have hloop : ∀ fuel x, P x → loop watched src fuel x = some (x',r) → P x' := by
    intro fuel
    induction fuel with
    | zero => intro x _ h; cases h
    | succ fuel ih =>
      intro x hx h
      rw [loop] at h
      rcases hout : x.turn watched src with e | ⟨y,_ | _⟩ <;> rw [hout] at h
      · cases h
        exact hx
      · obtain ⟨rfl,-⟩ := Prod.mk.inj (Option.some.inj h)
        exact hturn x y false hx hout
      · exact ih y (hturn x y true hx hout) h
  rw [sync] at h
  split at h
  · cases h
    exact hx
  · cases h
    exact hx
  · exact hloop fuel x hx h

end DogeIndex

namespace WalletIndex

variable {x x' : WalletIndex} {node : DogeNode} {script : Script} {txid : Hash}

theorem watch_ok {height : ℕ} (h : x.watch script = .ok (height,x')) : x'.db = x.db := by
  unfold watch at h
  split at h
  · cases h
    rfl
  · split at h
    · cases h
    · cases h
      rfl

variable {payments : List (OutPoint × Int64)}

theorem mem_unspentPayments {tx : MsgTx}
    (h : unspentPayments node script txid tx = .ok payments) {p : OutPoint × Int64} (hp : p∈payments) :
    ∃ out∈tx.txOut.zipIdx, out.1.pkScript = script ∧ p = (⟨txid,UInt32.ofNat out.2⟩,out.1.value) ∧
      node.unspentOutput p.1 = .ok true := by
  simp only [unspentPayments,checks_ok] at h
  obtain ⟨asked,hasked,rfl⟩ := h
  obtain ⟨⟨q,unspent⟩,hq,rfl⟩ := mem_map.mp hp
  obtain ⟨hmem,hunspent⟩ := mem_filter.mp hq
  obtain ⟨out,hout,hread⟩ := exists_of_mem_mapM hasked _ hmem
  obtain ⟨hin,hpays⟩ := mem_filter.mp hout
  simp only [checks_ok,Prod.mk.injEq] at hread
  obtain ⟨b,hb,rfl,rfl⟩ := hread
  refine ⟨out,hin,of_decide_eq_true hpays,rfl,?_⟩
  rw [hb]
  exact congrArg Except.ok hunspent

theorem importTx_ok {added : ℕ} (h : x.importTx node script txid = .ok (added,x')) :
    ∃ tx height unix payments, x.isWatched script = true ∧ node.rawTx txid = .ok tx ∧
      node.txBlock txid = .ok (height,unix) ∧ 0 < height ∧
      unspentPayments node script txid tx = .ok payments ∧ payments ≠ [] ∧
      x' = { x with
        db.entries := x.db.entries.write (importWrites script txid height.toNat unix payments) } := by
  simp only [importTx,checks_ok,decide_eq_true_eq,Prod.mk.injEq,Prod.exists] at h
  obtain ⟨hwatched,tx,htx,height,unix,hblock,hpos,payments,hpayments,hne,-,rfl⟩ := h
  exact ⟨tx,height,unix,payments,hwatched,htx,hblock,hpos,hpayments,hne,rfl⟩

theorem pairedWrites_import (height : ℕ) (unix : ℤ) (hpays : ∀ p∈payments, payee body p.1 = some script) :
    PairedWrites body (importWrites script txid height unix payments) := by
  refine .record script height txid _ ?_
  induction payments using List.reverseRecOn with
  | nil => exact .nil
  | append_singleton payments p ih =>
    rw [flatMap_append,flatMap_singleton]
    exact (ih fun q hq => hpays q (mem_append_left _ hq)).put p.2 height
      (hpays p (mem_append_right _ (mem_singleton_self p)))

end WalletIndex

end Reach

end DogePeg
