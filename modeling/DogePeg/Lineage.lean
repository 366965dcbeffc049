import DogePeg.Chains

/-!
# The anchor lineage

The line of coins at a script (`cmd/dogevm/lineage.go`). It starts at a root, the
oldest coin of the script the signers have spent, and moves along confirmed
spends to the spending transaction's last output back to the script; its tip is
the coin no confirmed transaction spends. If a spender pays nothing back, the
line is read on from a later root.
-/

namespace DogePeg

open List

variable {t : ChainTx} {u : Utxo} {tx : MsgTx} {op cur : OutPoint}

/-- Why a line cannot be followed: a spender paid nothing back to the script
(`errLineEnded`); it did and no later coin is deep enough; or the walk ran out. -/
inductive LineageError where
  | lineEnded (cur : OutPoint) (spender : Hash)
  | noRestart (cur : OutPoint) (spender : Hash) (rootDepth : ℤ)
  | tooLong (script : Script)
  deriving DecidableEq, Repr

structure Lineage where
  script : Script
  rootDepth : ℤ
  spentBy : OutPoint → Option ChainTx
  coins : List Utxo

/-- What `tip` returns: the tip, the root, and whether the line has moved at all. -/
structure LineTip where
  tip : OutPoint
  root : OutPoint
  moved : Bool
  deriving DecidableEq, Repr

variable [Hashing]

def coinsTo (script : Script) (t : ChainTx) : List Utxo := coinsWhere (· = script) t

def coinPoints (script : Script) (tx : MsgTx) : List OutPoint :=
  (tx.outputs.filter fun p => p.2.pkScript = script).map Prod.fst

def lastOutputTo (script : Script) (tx : MsgTx) : Option OutPoint :=
  (tx.outputs.reverse.find? fun p => p.2.pkScript = script).map Prod.fst

namespace Lineage

/-- One round of `newLineage`'s loop. -/
def add (l : Lineage) (t : ChainTx) : Lineage :=
  if t.confirmations ≤ 0 then l
  else { l with
    spentBy := fun op => if op ∈ t.tx.spends then some t else l.spentBy op
    coins := l.coins++coinsTo l.script t }

/-- The start of the line among coins at least `rootDepth` deep and, if `before` is
positive, in later blocks than one with `before` confirmations. -/
def root (l : Lineage) (before : ℤ) : Option Utxo :=
  let deep := l.coins.filter fun u =>
    ¬ (u.confirmations < l.rootDepth ∨ (0 < before ∧ before ≤ u.confirmations))
  let spent := deep.filter fun u => (l.spentBy u.outPoint).isSome
  if spent ≠ [] then oldestCoin spent
  else oldestCoin (deep.filter fun u => (l.spentBy u.outPoint).isNone)

/-- The coin after `cur` on the line, without a restart. -/
def next (l : Lineage) (cur : OutPoint) : Except LineageError (Option OutPoint) :=
  match l.spentBy cur with
  | none => .ok none
  | some t =>
    match lastOutputTo l.script t.tx with
    | some op => .ok (some op)
    | none => .error (.lineEnded cur t.tx.txHash)

/-- The coin after `cur` on the line, restarting it where it ended. -/
def step (l : Lineage) (cur : OutPoint) : Except LineageError (Option OutPoint) :=
  match l.next cur, l.spentBy cur with
  | .error (.lineEnded _ hash), some t =>
    match l.root t.confirmations with
    | some r => .ok (some r.outPoint)
    | none => .error (.noRestart cur hash l.rootDepth)
  | res, _ => res

/-- The coin after `cur` on the line, restarts included. -/
def follow (l : Lineage) (cur : OutPoint) : Option OutPoint :=
  match l.step cur with
  | .ok res => res
  | .error _ => none

/-- The loop of `tip`. -/
def tipFrom (l : Lineage) : ℕ → OutPoint → Bool → Except LineageError (OutPoint × Bool)
  | 0, _, _ => .error (.tooLong l.script)
  | n+1, cur, moved =>
    match l.step cur with
    | .error e => .error e
    | .ok none => .ok (cur,moved)
    | .ok (some nxt) => l.tipFrom n nxt true

def tip (l : Lineage) : Except LineageError (Option LineTip) :=
  match l.root 0 with
  | none => .ok none
  | some r =>
    match l.tipFrom (l.coins.length+1) r.outPoint false with
    | .error e => .error e
    | .ok (cur,moved) => .ok (some ⟨cur,r.outPoint,moved⟩)

/-- The tip of the line as one of `coins`. -/
def anchorIn (l : Lineage) (coins : List Utxo) : Option Utxo :=
  match l.tip with
  | .ok (some t) => coins.find? fun u => u.outPoint = t.tip
  | _ => none

end Lineage

open Lineage

def newLineage (txs : List ChainTx) (script : Script) (rootDepth : ℤ) : Lineage :=
  txs.foldl add ⟨script,rootDepth,fun _ => none, []⟩

/-! ## What a line knows of a history -/

variable {script : Script}

theorem mem_coinsTo : u∈coinsTo script t ↔
      (u.outPoint,⟨u.value,u.pkScript⟩)∈t.tx.outputs ∧ u.pkScript = script ∧ u.confirmations = t.confirmations := by
  simp [coinsTo,mem_coinsWhere]

theorem mem_coinPoints : op∈coinPoints script tx ↔ ∃ out, (op,out)∈tx.outputs ∧ out.pkScript = script := by
  simp [coinPoints]

theorem hash_of_mem_coinPoints (h : op∈coinPoints script tx) : op.hash = tx.txHash := by
  obtain ⟨out,hout,-⟩ := mem_coinPoints.mp h
  exact tx.hash_of_mem_outputs hout

@[simp] theorem map_outPoint_coinsTo (script : Script) (t : ChainTx) :
    (coinsTo script t).map Utxo.outPoint = coinPoints script t.tx := by
  simp [coinsTo,coinsWhere,coinPoints,Function.comp_def]

theorem lastOutputTo_mem (h : lastOutputTo script tx=some op) : op∈coinPoints script tx := by
  simp only [lastOutputTo,Option.map_eq_some_iff] at h
  obtain ⟨⟨op',out⟩,hfind,rfl⟩ := h
  refine mem_coinPoints.mpr ⟨out,mem_reverse.mp (mem_of_find?_eq_some hfind),?_⟩
  simpa using List.find?_some hfind

theorem lastOutputTo_isSome (h : op∈coinPoints script tx) : ∃ last, lastOutputTo script tx = some last := by
  obtain ⟨out,hmem,hs⟩ := mem_coinPoints.mp h
  cases hfind : tx.outputs.reverse.find? fun p => p.2.pkScript = script with
  | none =>
    have hnot := List.find?_eq_none.mp hfind (op,out) (by simpa using hmem)
    simp [hs] at hnot
  | some q => exact ⟨q.1,by rw [lastOutputTo,hfind,Option.map_some]⟩

section NewLineage

variable (txs : List ChainTx) (script : Script) (rootDepth : ℤ)

private theorem foldl_add (l : Lineage) : (txs.foldl add l).script = l.script ∧
      (txs.foldl add l).rootDepth = l.rootDepth ∧
      (txs.foldl add l).coins = l.coins++(inBlocks txs).flatMap (coinsTo l.script) := by
  induction txs generalizing l with
  | nil => simp [inBlocks]
  | cons t ts ih =>
    simp only [foldl_cons]
    by_cases ht : t.confirmations ≤ 0
    · simpa [add,ht,inBlocks] using ih l
    · obtain ⟨hs,hd,hc⟩ := ih (l.add t)
      simp only [add,ht,if_false] at hs hd hc ⊢
      refine ⟨hs,hd,?_⟩
      rw [hc]
      simp [inBlocks,Int.not_le.mp ht]

@[simp] theorem newLineage_script : (newLineage txs script rootDepth).script = script := (foldl_add txs _).1

@[simp] theorem newLineage_rootDepth : (newLineage txs script rootDepth).rootDepth = rootDepth :=
  (foldl_add txs _).2.1

theorem newLineage_coins : (newLineage txs script rootDepth).coins = (inBlocks txs).flatMap (coinsTo script) := by
  simpa [newLineage] using (foldl_add txs ⟨script,rootDepth,fun _ => none, []⟩).2.2

private theorem foldl_add_spentBy (l : Lineage) (op : OutPoint) : (txs.foldl add l).spentBy op =
      ((inBlocks txs).reverse.find? fun t => op ∈ t.tx.spends).or (l.spentBy op) := by
  induction txs generalizing l with
  | nil => simp [inBlocks]
  | cons t ts ih =>
    rw [foldl_cons,ih]
    by_cases ht : t.confirmations ≤ 0
    · simp [add,ht,inBlocks]
    · by_cases hop : op∈t.tx.spends
      · simp [add,ht,inBlocks,Int.not_le.mp ht,hop,List.find?_append]
      · simp [add,ht,inBlocks,Int.not_le.mp ht,hop,List.find?_append]

/-- The listed spender of an output is the last one in a block. -/
theorem newLineage_spentBy (op : OutPoint) : (newLineage txs script rootDepth).spentBy op =
      (inBlocks txs).reverse.find? fun t => op ∈ t.tx.spends := by
  simpa [newLineage] using foldl_add_spentBy txs ⟨script,rootDepth,fun _ => none, []⟩ op

variable {txs script rootDepth}

theorem mem_newLineage_coins : u∈(newLineage txs script rootDepth).coins ↔
      ∃ t∈inBlocks txs, u∈coinsTo script t := by
  rw [newLineage_coins,mem_flatMap]

theorem newLineage_spentBy_some (h : (newLineage txs script rootDepth).spentBy op=some t) :
    t ∈ inBlocks txs ∧ op∈t.tx.spends := by
  rw [newLineage_spentBy] at h
  refine ⟨mem_reverse.mp (mem_of_find?_eq_some h),?_⟩
  simpa using List.find?_some h

theorem newLineage_spentBy_none : (newLineage txs script rootDepth).spentBy op = none ↔
      ∀ t∈inBlocks txs, op ∉ t.tx.spends := by
  rw [newLineage_spentBy,List.find?_eq_none]
  simp only [mem_reverse,decide_eq_true_eq]

/-- Where one listed transaction alone spends an output, the line knows it. -/
theorem newLineage_spentBy_unique (ht : t∈inBlocks txs)
    (hop : op∈t.tx.spends) (huniq : ∀ u∈inBlocks txs, op∈u.tx.spends → u = t) :
    (newLineage txs script rootDepth).spentBy op = some t := by
  cases hs : (newLineage txs script rootDepth).spentBy op with
  | none => exact absurd hop (newLineage_spentBy_none.mp hs t ht)
  | some u =>
    obtain ⟨hu,hopu⟩ := newLineage_spentBy_some hs
    rw [huniq u hu hopu]

end NewLineage

namespace Lineage

variable {l : Lineage}

/-- A coin the line may start at: deep enough, and in a later block than it was started again for. -/
def Starts (l : Lineage) (before : ℤ) (u : Utxo) : Prop :=
  u ∈ l.coins ∧ l.rootDepth ≤ u.confirmations ∧ (0 < before → u.confirmations < before)

omit [Hashing] in
theorem mem_starts {before : ℤ} : u∈(l.coins.filter fun u =>
    ¬ (u.confirmations < l.rootDepth ∨ (0 < before ∧ before ≤ u.confirmations))) ↔ l.Starts before u := by
  rw [mem_filter,decide_eq_true_eq,not_or,not_lt,not_and,not_le]
  rfl

omit [Hashing] in
theorem root_starts {before : ℤ} {r : Utxo} (h : l.root before=some r) : l.Starts before r := by
  simp only [root] at h
  split at h
  all_goals exact mem_starts.mp (mem_filter.mp (oldestCoin_mem h)).1

omit [Hashing] in
/-- Where a coin that could start the line is spent, it starts at a spent one. -/
theorem exists_root {before : ℤ} (hu : l.Starts before u) (hspent : (l.spentBy u.outPoint).isSome=true) :
    ∃ r, l.root before = some r ∧ (l.spentBy r.outPoint).isSome = true := by
  have hmem : u∈(l.coins.filter fun u =>
      ¬ (u.confirmations < l.rootDepth ∨ (0 < before ∧ before ≤ u.confirmations))).filter
      fun u => (l.spentBy u.outPoint).isSome := mem_filter.mpr ⟨mem_starts.mpr hu,hspent⟩
  have hne := ne_nil_of_mem hmem
  obtain ⟨r,hr⟩ := oldestCoin_isSome hne
  exact ⟨r,by rw [root,if_pos hne,hr], (mem_filter.mp (oldestCoin_mem hr)).2⟩

theorem step_of_next_ok {res : Option OutPoint} (h : l.next cur = .ok res) : l.step cur = .ok res := by
  simp [step,h]

theorem next_ok_none : l.next cur = .ok none ↔ l.spentBy cur = none := by
  simp only [next]
  split
  · simp [*]
  · split <;> simp [*]

theorem next_ok_some : l.next cur = .ok (some op) ↔
      ∃ t, l.spentBy cur = some t ∧ lastOutputTo l.script t.tx = some op := by
  simp only [next]
  split
  · simp [*]
  · split <;> simp [*]

theorem step_ok_some {cur nxt : OutPoint} : l.step cur = .ok (some nxt) ↔ ∃ x, l.spentBy cur = some x ∧
    (lastOutputTo l.script x.tx = some nxt ∨
      lastOutputTo l.script x.tx = none ∧ ∃ r, l.root x.confirmations = some r ∧ r.outPoint = nxt) := by
  cases hspent : l.spentBy cur with
  | none => simp [step,next,hspent]
  | some x =>
    cases hlast : lastOutputTo l.script x.tx with
    | some op => simp [step,next,hspent,hlast]
    | none => cases hroot : l.root x.confirmations <;> simp [step,next,hspent,hlast,hroot]

theorem step_ok_none {cur : OutPoint} : l.step cur = .ok none ↔ l.spentBy cur = none := by
  cases hspent : l.spentBy cur with
  | none => simp [step,next,hspent]
  | some x =>
    cases hlast : lastOutputTo l.script x.tx with
    | some op => simp [step,next,hspent,hlast]
    | none => cases hroot : l.root x.confirmations <;> simp [step,next,hspent,hlast,hroot]

theorem follow_eq_some {nxt : OutPoint} : l.follow cur = some nxt ↔ l.step cur = .ok (some nxt) := by
  rw [follow]
  cases l.step cur <;> simp

variable {rootDepth : ℤ} {script : Script} {txs : List ChainTx}

theorem step_mem {nxt : OutPoint} (h : (newLineage txs script rootDepth).step cur = .ok (some nxt)) :
    ∃ u∈(newLineage txs script rootDepth).coins, u.outPoint = nxt := by
  obtain ⟨t,ht,hlast | ⟨-,r,hr,hnxt⟩⟩ := step_ok_some.mp h
  · rw [newLineage_script] at hlast
    have hmem := lastOutputTo_mem hlast
    rw [← map_outPoint_coinsTo,mem_map] at hmem
    obtain ⟨u,hu,heq⟩ := hmem
    exact ⟨u,mem_newLineage_coins.mpr ⟨t,(newLineage_spentBy_some ht).1,hu⟩,heq⟩
  · exact ⟨r,(root_starts hr).1,hnxt⟩

theorem tipFrom_mem {n : ℕ} {tip : OutPoint}
    {moved ended : Bool} (hcur : ∃ u∈(newLineage txs script rootDepth).coins, u.outPoint = cur)
    (h : (newLineage txs script rootDepth).tipFrom n cur moved = .ok (tip,ended)) :
    ∃ u∈(newLineage txs script rootDepth).coins, u.outPoint = tip := by
  induction n generalizing cur moved with
  | zero => cases h
  | succ n ih =>
    rw [tipFrom] at h
    split at h
    · cases h
    · cases h
      exact hcur
    · next nxt hstep => exact ih (step_mem hstep) h

theorem tip_mem {r : LineTip} (h : (newLineage txs script rootDepth).tip = .ok (some r)) :
    ∃ u∈(newLineage txs script rootDepth).coins, u.outPoint = r.tip := by
  unfold tip at h
  split at h
  · cases h
  · next root hroot =>
    split at h
    · cases h
    · next hfrom =>
      cases h
      exact tipFrom_mem ⟨root,(root_starts hroot).1,rfl⟩ hfrom

theorem anchorIn_mem {coins : List Utxo} (h : l.anchorIn coins=some u) : u∈coins := by
  unfold anchorIn at h
  split at h
  · exact mem_of_find?_eq_some h
  · cases h

theorem anchorIn_coin {coins : List Utxo} {a : Utxo} (h : (newLineage txs script rootDepth).anchorIn coins=some a) :
    ∃ u∈(newLineage txs script rootDepth).coins, u.outPoint = a.outPoint := by
  unfold anchorIn at h
  split at h
  · next r hr =>
    have heq : a.outPoint = r.tip := by simpa using List.find?_some h
    exact heq ▸ tip_mem hr
  · cases h

end Lineage

end DogePeg
