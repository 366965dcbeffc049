import DogePeg.Lib.Holdings
import DogePeg.Node.Headers
import DogePeg.Script.Builder

/-!
# Unspent outputs

The UTXO set (`utxoCache` with the database behind it) and the view a block is
checked against (`UtxoViewpoint`). The set is a finite map of the unspent outputs.
The view also remembers outputs it looked up and did not find, and outputs the
block has already spent.
-/

namespace DogePeg.Node

open Holdings List

variable {e : UtxoEntry} {tx : MsgTx}

/-- `UtxoEntry`, without the flags that only matter to the database. -/
structure UtxoEntry where
  amount : Int64
  pkScript : Script
  blockHeight : Int32
  isCoinBase : Bool
  deriving DecidableEq

abbrev UtxoSet := Holding OutPoint UtxoEntry

def inputs (tx : MsgTx) : List OutPoint := if isCoinbase tx then [] else tx.spends

section

variable [Hashing]

/-- The entries `AddTxOuts` makes: every output that is not provably unspendable. -/
def newEntries (tx : MsgTx) (blockHeight : Int32) : List (OutPoint × UtxoEntry) :=
  (tx.outputs.filter fun p => !isUnspendable p.2.pkScript).map fun p =>
    (p.1,⟨p.2.value,p.2.pkScript,blockHeight,isCoinbase tx⟩)

/-- The set after `tx`, whose inputs are in it. -/
def UtxoSet.apply (s : UtxoSet) (tx : MsgTx) (blockHeight : Int32) : UtxoSet :=
  insertAll (eraseAll s (inputs tx)) (newEntries tx blockHeight)

/-- `utxoCache.connectTransaction`. A missing input is an assertion failure. -/
def UtxoSet.connectTransaction (s : UtxoSet) (tx : MsgTx) (blockHeight : Int32) : Except ChainError UtxoSet :=
  if (inputs tx).all fun op => (s.lookup op).isSome then .ok (s.apply tx blockHeight)
  else .error .assertion

def UtxoSet.connectTransactions (blockHeight : Int32) : UtxoSet → List MsgTx → Except ChainError UtxoSet
  | s, [] => .ok s
  | s, tx::txs => do
    let s ← s.connectTransaction tx blockHeight
    UtxoSet.connectTransactions blockHeight s txs

end

/-- An entry of a view and its `tfSpent` flag. -/
structure ViewEntry where
  entry : UtxoEntry
  spent : Bool
  deriving DecidableEq

/-- `UtxoViewpoint`: `entries` is a map that may hold nil. -/
structure UtxoView where
  entries : OutPoint → Option (Option ViewEntry)
  bestHash : Hash

namespace UtxoView

/-- `NewUtxoViewpoint` with its best hash set. -/
def new (bestHash : Hash) : UtxoView := ⟨fun _ => none, bestHash⟩

def unspent (v : UtxoView) (op : OutPoint) : Option UtxoEntry :=
  match v.entries op with
  | some (some e) => if e.spent then none else some e.entry
  | _ => none

/-- `FetchPrevOutput`: the output of an entry, spent or not. -/
def fetchPrevOutput (v : UtxoView) (op : OutPoint) : Option TxOut :=
  (v.entries op).join.map fun e => ⟨e.entry.amount,e.entry.pkScript⟩

def blockHeight (v : UtxoView) (op : OutPoint) : Option Int32 :=
  (v.entries op).join.map (·.entry.blockHeight)

def set (v : UtxoView) (op : OutPoint) (e : Option ViewEntry) : UtxoView :=
  { v with entries := Function.update v.entries op (some e) }

def setAll (v : UtxoView) (es : List (OutPoint × UtxoEntry)) : UtxoView :=
  es.foldl (fun v p => v.set p.1 (some ⟨p.2,false⟩)) v

/-- `fetchUtxosFromCache`: what is not in the set becomes a nil entry. -/
def fetchFromCache (v : UtxoView) (s : UtxoSet) (ops : List OutPoint) : UtxoView :=
  ops.foldl (fun v op => v.set op ((s.lookup op).map (⟨·,false⟩))) v

/-- `fetchUtxos`: only what the view does not have is fetched. -/
def fetchUtxos (v : UtxoView) (s : UtxoSet) (ops : List OutPoint) : UtxoView :=
  v.fetchFromCache s (ops.filter fun op => (v.entries op).isNone)

section

variable [Hashing]

def addTxOuts (v : UtxoView) (tx : MsgTx) (blockHeight : Int32) : UtxoView :=
  v.setAll (newEntries tx blockHeight)

/-- `txInFlight`: the transaction of the block with that hash and its position, the
last one if there are several. -/
def inFlight (block : List MsgTx) (hash : Hash) : Option (MsgTx × ℕ) :=
  block.zipIdx.reverse.find? fun p => p.1.txHash = hash

/-- One input of the transaction at position `i + 1`, in `findInputsToFetch`: the
outputs of an earlier transaction of the block are added to the view, and anything
else that the view does not have is asked for. -/
def findInput (block : List MsgTx) (blockHeight : Int32) (acc : UtxoView × List OutPoint)
    (input : ℕ × OutPoint) : UtxoView × List OutPoint :=
  match (inFlight block input.2.hash).filter (·.2 ≤ input.1) with
  | some (originTx,_) => (acc.1.addTxOuts originTx blockHeight,acc.2)
  | none => if (acc.1.entries input.2).isSome then acc else (acc.1,acc.2++[input.2])

/-- The inputs of a block with the position of their transaction less one, in order.
The coinbase has none. -/
def inputsOf (block : List MsgTx) : List (ℕ × OutPoint) :=
  block.tail.zipIdx.flatMap fun p => p.1.spends.map (p.2,·)

def findInputsToFetch (v : UtxoView) (block : List MsgTx) (blockHeight : Int32) : UtxoView × List OutPoint :=
  (inputsOf block).foldl (findInput block blockHeight) (v,[])

def fetchInputUtxos (v : UtxoView) (s : UtxoSet) (block : List MsgTx) (blockHeight : Int32) : UtxoView :=
  let (v,needed) := v.findInputsToFetch block blockHeight
  v.fetchFromCache s needed

/-- Marks the entries spent; a nil entry is an assertion failure. -/
def spendAll (v : UtxoView) : List OutPoint → Except ChainError UtxoView
  | [] => .ok v
  | op::ops =>
    match v.entries op with
    | some (some e) => (v.set op (some { e with spent := true })).spendAll ops
    | _ => .error .assertion

def connectTransaction (v : UtxoView) (tx : MsgTx) (blockHeight : Int32) : Except ChainError UtxoView := do
  let v ← v.spendAll (inputs tx)
  .ok (v.addTxOuts tx blockHeight)

end

/-! ## Lookups -/

variable {v : UtxoView} {op : OutPoint}

@[simp] theorem entries_set_self (v : UtxoView) (op : OutPoint) (e : Option ViewEntry) :
    (v.set op e).entries op = some e := by
  simp [set]

theorem entries_set_ne {op' : OutPoint} (h : op≠op') (e : Option ViewEntry) :
    (v.set op' e).entries op = v.entries op := by
  simp [set,h]

theorem unspent_eq_of_entries {v w : UtxoView} (h : v.entries op=w.entries op) : v.unspent op = w.unspent op := by
  simp [unspent,h]

theorem unspent_eq_some : v.unspent op = some e ↔ v.entries op = some (some ⟨e,false⟩) := by
  unfold unspent
  constructor
  · intro h
    split at h
    · rename_i e' he
      obtain ⟨entry,spent⟩ := e'
      cases spent <;> simp_all
    · cases h
  · intro h
    simp [h]

variable {es : List (OutPoint × UtxoEntry)}

theorem entries_setAll_of_notMem (h : op∉es.map Prod.fst) : (v.setAll es).entries op = v.entries op := by
  induction es generalizing v with
  | nil => rfl
  | cons e es ih =>
    rw [map_cons,mem_cons,not_or] at h
    exact (ih h.2).trans (entries_set_ne h.1 _)

theorem entries_setAll_of_mem (hnd : (es.map Prod.fst).Nodup) (h : (op,e)∈es) :
    (v.setAll es).entries op = some (some ⟨e,false⟩) := by
  induction es generalizing v with
  | nil => cases h
  | cons a es ih =>
    rw [map_cons,nodup_cons] at hnd
    rcases mem_cons.mp h with rfl | h
    · exact (entries_setAll_of_notMem hnd.1).trans (entries_set_self _ _ _)
    · exact ih hnd.2 h

theorem entries_fetchFromCache (v : UtxoView) (s : UtxoSet) (ops : List OutPoint) (op : OutPoint) :
    (v.fetchFromCache s ops).entries op =
      if op ∈ ops then some ((s.lookup op).map (⟨·,false⟩)) else v.entries op := by
  induction ops generalizing v with
  | nil => rfl
  | cons o ops ih =>
    refine (ih _).trans ?_
    by_cases ho : op = o
    · subst ho
      simp
    · simp [ho,entries_set_ne ho]

theorem entries_spendAll {ops : List OutPoint} {w : UtxoView} (h : v.spendAll ops = .ok w) (op : OutPoint) :
    (op ∉ ops → w.entries op = v.entries op) ∧ (op∈ops → w.unspent op = none) := by
  induction ops generalizing v with
  | nil =>
    cases h
    simp
  | cons o ops ih =>
    unfold spendAll at h
    split at h
    case h_2 => cases h
    case h_1 e he =>
      have hw := ih h
      constructor
      · intro hop
        rw [mem_cons,not_or] at hop
        exact (hw.1 hop.2).trans (entries_set_ne hop.1 _)
      · intro hop
        by_cases hin : op∈ops
        · exact hw.2 hin
        · have hoo : op = o := by simpa [hin] using hop
          have := hw.1 hin
          rw [hoo,entries_set_self] at this
          simp [unspent,hoo,this]

end UtxoView

/-! ## What a block finds in its view -/

section

variable [Hashing]

/-- Connecting `tx` makes `op` available. -/
def Creates (tx : MsgTx) (op : OutPoint) : Prop :=
  op ∈ (tx.outputs.filter fun p => !isUnspendable p.2.pkScript).map Prod.fst

theorem newEntries_keys (tx : MsgTx) (blockHeight : Int32) : (newEntries tx blockHeight).map Prod.fst =
      (tx.outputs.filter fun p => !isUnspendable p.2.pkScript).map Prod.fst := by
  rw [newEntries,map_map]
  rfl

theorem creates_iff_mem_keys {op : OutPoint} (blockHeight : Int32) :
    Creates tx op ↔ op∈(newEntries tx blockHeight).map Prod.fst := by
  rw [newEntries_keys,Creates]

theorem nodup_newEntries_keys (tx : MsgTx) (blockHeight : Int32) :
    ((newEntries tx blockHeight).map Prod.fst).Nodup := by
  rw [newEntries_keys]
  exact tx.nodup_outputs_keys.sublist (filter_sublist.map _)

theorem Creates.hash_eq {op : OutPoint} (h : Creates tx op) : op.hash = tx.txHash := by
  obtain ⟨p,hp,rfl⟩ := mem_map.mp h
  exact tx.hash_of_mem_outputs (mem_filter.mp hp).1

namespace UtxoView

variable {block : List MsgTx} {blockHeight : Int32} {op : OutPoint}

theorem inFlight_eq_some {hash : Hash} {idx : ℕ}
    (h : inFlight block hash=some (tx,idx)) : block[idx]? = some tx ∧ tx.txHash = hash := by
  have hmem := mem_of_find?_eq_some h
  have hp := List.find?_some h
  rw [mem_reverse,mem_zipIdx_iff_getElem?] at hmem
  exact ⟨hmem,by simpa using hp⟩

/-- The input at `input` makes the block's transaction `origin` visible, which comes
before the transaction of the input. -/
def Shows (block : List MsgTx) (input : ℕ × OutPoint) (origin : MsgTx) : Prop :=
  ∃ idx ≤ input.1, inFlight block input.2.hash = some (origin,idx)

theorem entries_findInput (acc : UtxoView × List OutPoint) (input : ℕ × OutPoint) (op : OutPoint) :
    (findInput block blockHeight acc input).1.entries op = acc.1.entries op ∨
      ∃ origin, Shows block input origin ∧ Creates origin op := by
  unfold findInput
  split
  case h_1 origin idx h =>
    rw [Option.filter_eq_some_iff] at h
    by_cases hc : Creates origin op
    · exact .inr ⟨origin,⟨idx,by simpa using h.2, h.1⟩,hc⟩
    · left
      exact entries_setAll_of_notMem (mt (creates_iff_mem_keys blockHeight).mpr hc)
  case h_2 =>
    left
    split <;> rfl

theorem entries_foldl_findInput (inputs : List (ℕ × OutPoint)) (acc : UtxoView × List OutPoint) (op : OutPoint) :
    (inputs.foldl (findInput block blockHeight) acc).1.entries op = acc.1.entries op ∨
      ∃ input∈inputs, ∃ origin, Shows block input origin ∧ Creates origin op := by
  induction inputs generalizing acc with
  | nil => exact .inl rfl
  | cons input inputs ih =>
    rcases ih (findInput block blockHeight acc input) with h | ⟨i,hi,h⟩
    · rcases entries_findInput acc input op with h' | h'
      · exact .inl (h.trans h')
      · exact .inr ⟨input,by simp, h'⟩
    · exact .inr ⟨i,mem_cons_of_mem _ hi,h⟩

theorem mem_needed_foldl_findInput {inputs : List (ℕ × OutPoint)} {acc : UtxoView × List OutPoint} (h : op∈acc.2) :
    op ∈ (inputs.foldl (findInput block blockHeight) acc).2 := by
  induction inputs generalizing acc with
  | nil => exact h
  | cons input inputs ih =>
    apply ih
    unfold findInput
    split
    · exact h
    · split
      · exact h
      · exact mem_append_left _ h

omit [Hashing] in
theorem pairwise_inputsOf (block : List MsgTx) : (inputsOf block).Pairwise fun a b => a.1 ≤ b.1 := by
  rw [inputsOf,pairwise_flatMap]
  constructor
  · intro p _
    rw [pairwise_map]
    exact pairwise_of_forall (by simp)
  · have hidx : (block.tail.zipIdx.map Prod.snd).Pairwise (· < ·) := by
      rw [zipIdx_map_snd]
      exact pairwise_lt_range' ..
    rw [pairwise_map] at hidx
    refine hidx.imp ?_
    intro p q hpq a ha b hb
    obtain ⟨_,-,rfl⟩ := mem_map.mp ha
    obtain ⟨_,-,rfl⟩ := mem_map.mp hb
    exact Nat.le_of_lt hpq

/-- An input that no earlier transaction of the block creates is looked up in the set:
outputs of the same or of a later transaction are never found in the view. -/
theorem unspent_fetchInputUtxos {s : UtxoSet} {bestHash : Hash} {i : ℕ} (hin : (i,op)∈inputsOf block)
    (hno : ∀ j ≤ i, ∀ tx, block[j]? = some tx → ¬ Creates tx op)
    (h : ((new bestHash).fetchInputUtxos s block blockHeight).unspent op=some e) : s.lookup op = some e := by
  obtain ⟨before,after,hsplit⟩ := append_of_mem hin
  have hsorted := pairwise_inputsOf block
  rw [hsplit,pairwise_append] at hsorted
  rw [unspent_eq_some,fetchInputUtxos,entries_fetchFromCache] at h
  -- when the input was asked for, the entry is the set's
  suffices hneeded : op∈((new bestHash).findInputsToFetch block blockHeight).2 ∨
      ((new bestHash).findInputsToFetch block blockHeight).1.entries op = none by
    split at h
    · simpa using h
    · rename_i hnot
      rcases hneeded with hn | hn
      · exact absurd hn hnot
      · rw [hn] at h
        cases h
  cases hfly : (inFlight block op.hash).filter (·.2 ≤ i) with
  | some p =>
    -- an earlier transaction has that hash but does not create the output, so nothing does
    right
    obtain ⟨tx,idx⟩ := p
    rw [Option.filter_eq_some_iff] at hfly
    have htx := inFlight_eq_some hfly.1
    rcases entries_foldl_findInput (inputsOf block) (new bestHash,[]) op with h' | h'
    · exact h'
    · obtain ⟨input,-,origin,⟨j,hj,horigin⟩,hc⟩ := h'
      have ho := inFlight_eq_some horigin
      have hsame : inFlight block op.hash = some (origin,j) := by
        rw [hc.hash_eq,ho.2,horigin]
      rw [hfly.1] at hsame
      cases hsame
      exact absurd hc (hno idx (by simpa using hfly.2) tx htx.1)
  | none =>
    left
    rw [findInputsToFetch,hsplit,foldl_append,foldl_cons]
    apply mem_needed_foldl_findInput
    have habsent : (before.foldl (findInput block blockHeight) (new bestHash,[])).1.entries op =
        none := by
      rcases entries_foldl_findInput before (new bestHash,[]) op with h' | h'
      · exact h'
      · obtain ⟨input,hinput,origin,⟨j,hj,horigin⟩,hc⟩ := h'
        have hle : input.1 ≤ i := hsorted.2.2 input hinput (i,op) (by simp)
        exact absurd hc (hno j (hj.trans hle) origin (inFlight_eq_some horigin).1)
    simp only [findInput,hfly,habsent,Option.isSome_none,Bool.false_eq_true,↓reduceIte]
    simp

end UtxoView

end

end DogePeg.Node
