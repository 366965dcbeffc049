import DogePeg.Lib.Sorting
import DogePeg.Signer.Anchors
import DogePeg.Signer.Inventory

/-!
# The line after a fence

Once a fence is in a block, its change is the tip of its chain's line
(`cmd/dogevm/lineage.go`), also where the fence spends coins older than the line's root or than
the coin it was started again from: each coin it spends leads to that change.
-/

namespace DogePeg

open List Lineage

variable {n : ℕ}

/-! ## Older coins -/

section

variable {u v w : Utxo} {coins : List Utxo}

theorem olderCoin_iff : olderCoin u v = true ↔ v.confirmations < u.confirmations ∨
    u.confirmations = v.confirmations ∧ (u.outPoint.hash.toNat < v.outPoint.hash.toNat ∨
      u.outPoint.hash.toNat = v.outPoint.hash.toNat ∧ u.outPoint.index.toNat < v.outPoint.index.toNat) := by
  simp only [olderCoin,outPointLess,Bool.or_eq_true,Bool.and_eq_true,decide_eq_true_eq,BitVec.lt_def,
    ← BitVec.toNat_inj,UInt32.lt_iff_toNat_lt]

theorem olderCoin_asymm (h : olderCoin u v=true) : ¬ olderCoin v u = true := by
  rw [olderCoin_iff] at h ⊢
  omega

theorem not_olderCoin_trans (h : ¬ olderCoin u v=true) (h' : ¬ olderCoin v w=true) : ¬ olderCoin u w = true := by
  rw [olderCoin_iff] at h h' ⊢
  omega

theorem olderCoin_trans (h : olderCoin u v=true) (h' : olderCoin v w=true) : olderCoin u w = true := by
  rw [olderCoin_iff] at h h' ⊢
  omega

theorem olderCoin_total (h : u.outPoint≠v.outPoint) : olderCoin u v = true ∨ olderCoin v u = true := by
  by_contra hnone
  rw [not_or,olderCoin_iff,olderCoin_iff] at hnone
  have hhash : u.outPoint.hash = v.outPoint.hash := BitVec.toNat_inj.mp (by omega)
  have hindex : u.outPoint.index = v.outPoint.index := UInt32.toNat_inj.mp (by omega)
  refine h ?_
  change OutPoint.mk _ _ = OutPoint.mk _ _
  rw [hhash,hindex]

theorem not_older_oldestCoin (h : oldestCoin coins=some w) : ∀ u∈coins, ¬ olderCoin u w = true :=
  (Best.not_before_of_foldl (r := fun u v => olderCoin u v = true) (fun _ _ => olderCoin_asymm)
    (fun _ _ _ => not_olderCoin_trans) (fun _ => rfl) (fun _ _ => rfl) h).2

end

/-! ## Blocks on top -/

def ChainTx.aged (k : ℤ) (t : ChainTx) : ChainTx :=
  { t with confirmations := if 0 < t.confirmations then t.confirmations+k else t.confirmations }

def Utxo.aged (k : ℤ) (u : Utxo) : Utxo :=
  { u with confirmations := if 0 < u.confirmations then u.confirmations+k else u.confirmations }

@[simp] theorem Utxo.aged_outPoint (k : ℤ) (u : Utxo) : (u.aged k).outPoint = u.outPoint := rfl

section

variable {k : ℤ} {t : ChainTx} {u v : Utxo}

theorem ChainTx.confirmations_aged (h : 0<t.confirmations) :
    (t.aged k).confirmations = t.confirmations+k := if_pos h

theorem Utxo.confirmations_aged (h : 0<u.confirmations) : (u.aged k).confirmations = u.confirmations+k := if_pos h

theorem ChainTx.aged_pos (hk : 0≤k) : 0 < (t.aged k).confirmations ↔ 0 < t.confirmations := by
  simp only [ChainTx.aged]
  split <;> omega

theorem Utxo.aged_pos (hk : 0≤k) : 0 < (u.aged k).confirmations ↔ 0 < u.confirmations := by
  simp only [Utxo.aged]
  split <;> omega

theorem olderCoin_aged (hu : 0<u.confirmations) (hv : 0<v.confirmations) :
    olderCoin (u.aged k) (v.aged k) = olderCoin u v := by
  rw [Bool.eq_iff_iff,olderCoin_iff,olderCoin_iff,Utxo.confirmations_aged hu,Utxo.confirmations_aged hv]
  simp only [Utxo.aged_outPoint]
  omega

end

section

variable [Hashing]

theorem coinsWhere_aged (isCoin : Script → Bool) (k : ℤ) (t : ChainTx) :
    coinsWhere isCoin (t.aged k) = (coinsWhere isCoin t).map (Utxo.aged k) := by
  rw [coinsWhere,coinsWhere,map_map]
  rfl

/-- A listing with one more transaction in a block, and the blocks that came with it. -/
structure Joins (txs : List ChainTx) (k : ℤ) (t : ChainTx) (txs' : List ChainTx) : Prop where
  listed : txs'.Perm (txs.map (ChainTx.aged k)++[t])
  later : 0 ≤ k
  mined : 0 < t.confirmations
  /-- No transaction in a block spends what another one does. -/
  spentOnce : ∀ x∈inBlocks txs', ∀ y∈inBlocks txs', ∀ op∈x.tx.spends, op∈y.tx.spends →
    op.index ≠ maxPrevOutIndex → x = y

namespace Joins

variable {txs txs' : List ChainTx} {k : ℤ} {t : ChainTx} {script : Script} {depth : ℤ} {op : OutPoint}

omit [Hashing] in
theorem inBlocks_perm (h : Joins txs k t txs') : (inBlocks txs').Perm ((inBlocks txs).map (ChainTx.aged k)++[t]) := by
  have hperm := h.listed.filter fun x => decide (0 < x.confirmations)
  have hpos : ((fun x : ChainTx => decide (0 < x.confirmations)) ∘ ChainTx.aged k) =
      fun x => decide (0 < x.confirmations) := by
    funext x
    exact decide_eq_decide.mpr (ChainTx.aged_pos h.later)
  rwa [filter_append,filter_map,hpos,filter_singleton,decide_eq_true h.mined,cond_true] at hperm

theorem coins_perm (h : Joins txs k t txs') : (newLineage txs' script depth).coins.Perm
      ((newLineage txs script depth).coins.map (Utxo.aged k)++coinsTo script t) := by
  have hperm := h.inBlocks_perm.flatMap_right (coinsTo script)
  rw [flatMap_append,flatMap_singleton,flatMap_map] at hperm
  rw [newLineage_coins,newLineage_coins,map_flatMap]
  simpa only [coinsTo,coinsWhere_aged] using hperm

theorem mem_coins (h : Joins txs k t txs') {u : Utxo} : u∈(newLineage txs' script depth).coins ↔
      (∃ v∈(newLineage txs script depth).coins, v.aged k = u) ∨ u∈coinsTo script t := by
  rw [h.coins_perm.mem_iff,mem_append,mem_map]

theorem spentBy_new (h : Joins txs k t txs') (hidx : op.index≠maxPrevOutIndex) (hop : op∈t.tx.spends) :
    (newLineage txs' script depth).spentBy op = some t := by
  have ht : t∈inBlocks txs' := h.inBlocks_perm.mem_iff.mpr (by simp)
  exact newLineage_spentBy_unique ht hop fun x hx hopx => h.spentOnce x hx t ht op hopx hop hidx

theorem spentBy_old (h : Joins txs k t txs') (hidx : op.index≠maxPrevOutIndex) {x : ChainTx}
    (hx : (newLineage txs script depth).spentBy op=some x) :
    (newLineage txs' script depth).spentBy op = some (x.aged k) := by
  obtain ⟨hmem,hop⟩ := newLineage_spentBy_some hx
  have hx' : x.aged k ∈ inBlocks txs' := h.inBlocks_perm.mem_iff.mpr (mem_append_left _ (mem_map_of_mem hmem))
  exact newLineage_spentBy_unique hx' hop fun y hy hopy => h.spentOnce y hy _ hx' op hopy hop hidx

theorem spentBy_cases (h : Joins txs k t txs') (hsome : ((newLineage txs' script depth).spentBy op).isSome=true) :
    ((newLineage txs script depth).spentBy op).isSome = true ∨ op∈t.tx.spends := by
  by_contra hnot
  rw [not_or,Bool.not_eq_true,Option.isSome_eq_false_iff,Option.isNone_iff_eq_none,newLineage_spentBy_none] at hnot
  obtain ⟨x,hx⟩ := Option.isSome_iff_exists.mp hsome
  obtain ⟨hmem,hop⟩ := newLineage_spentBy_some hx
  rw [h.inBlocks_perm.mem_iff,mem_append,mem_map,mem_singleton] at hmem
  rcases hmem with ⟨y,hy,rfl⟩ | rfl
  · exact hnot.1 y hy hop
  · exact hnot.2 hop

end Joins

/-! ## The walk -/

namespace Lineage

variable {l : Lineage} {before : ℤ} {r : Utxo}

omit [Hashing] in
/-- The root starts the line, and no older coin that could is spent. -/
theorem root_oldest (h : l.root before=some r) :
    l.Starts before r ∧ ∀ u, l.Starts before u → (l.spentBy u.outPoint).isSome = true → ¬ olderCoin u r = true := by
  refine ⟨root_starts h,fun u hu hspent => ?_⟩
  have hmem := (mem_filter (p := fun u => (l.spentBy u.outPoint).isSome)).mpr ⟨mem_starts.mpr hu,hspent⟩
  simp only [root,if_pos (ne_nil_of_mem hmem)] at h
  exact not_older_oldestCoin h u hmem

theorem tipFrom_unspent {cur tip : OutPoint} {moved ended : Bool} (hspent : l.spentBy cur=none)
    (h : l.tipFrom n cur moved = .ok (tip,ended)) : tip = cur := by
  cases n with
  | zero => cases h
  | succ n =>
    rw [tipFrom,step_ok_none.mpr hspent] at h
    cases h
    rfl

end Lineage

section

variable {txs txs' : List ChainTx} {k : ℤ} {t : ChainTx} {script : Script} {depth : ℤ} {cur nxt change : OutPoint}

theorem coin_facts {u : Utxo} (hu : u∈(newLineage txs script depth).coins) :
    0 < u.confirmations ∧ u.outPoint.index ≠ maxPrevOutIndex := by
  obtain ⟨x,hx,hcoin⟩ := mem_newLineage_coins.mp hu
  obtain ⟨hout,-,hconf⟩ := mem_coinsTo.mp hcoin
  exact ⟨hconf ▸ (mem_inBlocks.mp hx).2,x.tx.index_ne_max hout⟩

/-- The transaction that joined pays the line on, and nothing spends that yet. -/
structure PaysOn (txs' : List ChainTx) (script : Script) (t : ChainTx) (change : OutPoint) : Prop where
  last : lastOutputTo script t.tx = some change
  unspent : ∀ op∈coinPoints script t.tx, ∀ x∈inBlocks txs', op ∉ x.tx.spends

theorem PaysOn.spentBy {op : OutPoint} (h : PaysOn txs' script t change) (hop : op∈coinPoints script t.tx) :
    (newLineage txs' script depth).spentBy op = none := newLineage_spentBy_none.mpr (h.unspent op hop)

theorem Joins.root (h : Joins txs k t txs') (hpays : PaysOn txs' script t change) {before before' : ℤ} {r : Utxo}
    (hbefore : before' = if 0 < before then before+k else before)
    (hr : (newLineage txs script depth).root before=some r)
    (hspends : (newLineage txs script depth).spentBy r.outPoint = none → r.outPoint∈t.tx.spends) :
    ∃ r', (newLineage txs' script depth).root before' = some r' ∧
      (r'.outPoint = r.outPoint ∨ r'.outPoint∈t.tx.spends) := by
  obtain ⟨⟨hmem,hdeep,hlast⟩,holdest⟩ := root_oldest hr
  rw [newLineage_rootDepth] at hdeep
  obtain ⟨hpos,hidx⟩ := coin_facts hmem
  have hk := h.later
  -- the root before may start the line still, and by now it is spent
  have hstarts : (newLineage txs' script depth).Starts before' (r.aged k) := by
    refine ⟨h.mem_coins.mpr (.inl ⟨r,hmem,rfl⟩),?_,?_⟩
    · rw [newLineage_rootDepth,Utxo.confirmations_aged hpos]
      omega
    · rw [Utxo.confirmations_aged hpos,hbefore]
      split <;> omega
  have hspent : ((newLineage txs' script depth).spentBy r.outPoint).isSome = true := by
    cases hold : (newLineage txs script depth).spentBy r.outPoint with
    | some x => rw [h.spentBy_old hidx hold,Option.isSome_some]
    | none => rw [h.spentBy_new hidx (hspends hold),Option.isSome_some]
  obtain ⟨r',hr',hspent'⟩ := exists_root hstarts hspent
  refine ⟨r',hr',?_⟩
  obtain ⟨⟨hmem',hdeep',hlast'⟩,holdest'⟩ := root_oldest hr'
  rcases h.mem_coins.mp hmem' with ⟨u,hu,rfl⟩ | hnew
  · refine (h.spentBy_cases hspent').imp_left fun hspentOld => ?_
    -- an older spent coin was one before, too
    by_contra hne
    have holder : olderCoin u r = true := by
      obtain ⟨hposu,-⟩ := coin_facts hu
      rw [← olderCoin_aged hposu hpos]
      exact (olderCoin_total (u := u.aged k) (v := r.aged k) hne).resolve_right (holdest' _ hstarts hspent)
    refine holdest u ⟨hu,?_,?_⟩ hspentOld holder
    · rw [newLineage_rootDepth]
      rw [olderCoin_iff] at holder
      omega
    · intro hb
      obtain ⟨hposu,-⟩ := coin_facts hu
      rw [if_pos hb] at hbefore
      have := hlast' (by omega)
      rw [Utxo.confirmations_aged hposu] at this
      omega
  · have hpoint : r'.outPoint∈coinPoints script t.tx := by
      rw [← map_outPoint_coinsTo]
      exact mem_map_of_mem hnew
    rw [hpays.spentBy hpoint] at hspent'
    cases hspent'

theorem Joins.step (h : Joins txs k t txs') (hpays : PaysOn txs' script t change) (hidx : cur.index≠maxPrevOutIndex)
    (hstep : (newLineage txs script depth).step cur = .ok (some nxt))
    (hspends : (newLineage txs script depth).spentBy nxt = none → nxt∈t.tx.spends) :
    ∃ nxt', (newLineage txs' script depth).step cur = .ok (some nxt') ∧ (nxt' = nxt ∨ nxt'∈t.tx.spends) := by
  obtain ⟨x,hx,hnext⟩ := step_ok_some.mp hstep
  have hx' := h.spentBy_old hidx hx
  rw [newLineage_script] at hnext
  rcases hnext with hlast | ⟨hlast,r,hr,rfl⟩
  · refine ⟨nxt,step_ok_some.mpr ⟨_,hx',.inl ?_⟩,.inl rfl⟩
    rwa [newLineage_script]
  · have hpos := (mem_inBlocks.mp (newLineage_spentBy_some hx).1).2
    obtain ⟨r',hr',hcases⟩ := h.root hpays rfl hr hspends
    rw [if_pos hpos,← ChainTx.confirmations_aged hpos] at hr'
    refine ⟨r'.outPoint,step_ok_some.mpr ⟨_,hx',.inr ⟨?_,r',hr',rfl⟩⟩,hcases⟩
    rwa [newLineage_script]

theorem Joins.tipFrom_spent (h : Joins txs k t txs') (hpays : PaysOn txs' script t change)
    (hidx : cur.index≠maxPrevOutIndex) (hcur : cur∈t.tx.spends) (hn : 2≤n) (moved : Bool) :
    (newLineage txs' script depth).tipFrom n cur moved = .ok (change,true) := by
  obtain ⟨n,rfl⟩ := Nat.exists_eq_add_of_le' hn
  have hstep : (newLineage txs' script depth).step cur = .ok (some change) := by
    refine step_ok_some.mpr ⟨t,h.spentBy_new hidx hcur,.inl ?_⟩
    rw [newLineage_script,hpays.last]
  have hend : (newLineage txs' script depth).step change = .ok none :=
    step_ok_none.mpr (hpays.spentBy (lastOutputTo_mem hpays.last))
  simp only [tipFrom,hstep,hend]

theorem Joins.tipFrom (h : Joins txs k t txs') (hpays : PaysOn txs' script t change) {tip : OutPoint}
    (hspends : tip∈t.tx.spends) {m : ℕ} (hm : n < m) {moved moved' ended : Bool}
    (hcur : ∃ u∈(newLineage txs script depth).coins, u.outPoint = cur)
    (htip : (newLineage txs script depth).tipFrom n cur moved = .ok (tip,ended)) :
    (newLineage txs' script depth).tipFrom m cur moved' = .ok (change,true) := by
  have hindex : ∀ {op}, (∃ u∈(newLineage txs script depth).coins, u.outPoint = op) → op.index ≠ maxPrevOutIndex := by
    rintro op ⟨u,hu,rfl⟩
    exact (coin_facts hu).2
  induction n generalizing cur m moved moved' with
  | zero => cases htip
  | succ n ih =>
    rw [tipFrom] at htip
    split at htip
    · cases htip
    · next hstep =>
      cases htip
      exact h.tipFrom_spent hpays (hindex hcur) hspends (by omega) moved'
    · next nxt hstep =>
      obtain ⟨nxt',hstep',hcases⟩ := h.step hpays (hindex hcur) hstep
        fun hnone => tipFrom_unspent hnone htip ▸ hspends
      obtain ⟨m,rfl⟩ := Nat.exists_eq_add_of_le' (show 1 ≤ m by omega)
      rw [tipFrom,hstep']
      rcases hcases with rfl | hspent
      · exact ih (by omega) (step_mem hstep) htip
      · obtain ⟨u,hu,rfl⟩ := step_mem hstep'
        have hpos : 1 ≤ n := by
          cases n with
          | zero => cases htip
          | succ n => omega
        exact h.tipFrom_spent hpays (coin_facts hu).2 hspent (by omega) true

theorem Joins.tip (h : Joins txs k t txs') (hpays : PaysOn txs' script t change) {tip : LineTip}
    (htip : (newLineage txs script depth).tip = .ok (some tip)) (hspends : tip.tip∈t.tx.spends) :
    ∃ tip', (newLineage txs' script depth).tip = .ok (some tip') ∧ tip'.tip = change := by
  unfold Lineage.tip at htip
  split at htip
  · cases htip
  · next r hr =>
    split at htip
    · cases htip
    · next cur moved hfrom =>
      cases htip
      obtain ⟨r',hr',hcases⟩ := h.root hpays (show (0 : ℤ) = if (0 : ℤ) < 0 then 0+k else 0 from rfl) hr
        fun hnone => tipFrom_unspent hnone hfrom ▸ hspends
      have hmore : (newLineage txs script depth).coins.length+1 < (newLineage txs' script depth).coins.length+1 := by
        have hpoint := lastOutputTo_mem hpays.last
        rw [← map_outPoint_coinsTo] at hpoint
        have hpos := length_pos_of_mem hpoint
        rw [length_map] at hpos
        rw [h.coins_perm.length_eq,length_append,length_map]
        omega
      have hfrom' : (newLineage txs' script depth).tipFrom ((newLineage txs' script depth).coins.length+1)
          r'.outPoint false = .ok (change,true) := by
        rcases hcases with heq | hspent
        · rw [heq]
          exact h.tipFrom hpays hspends hmore ⟨r,(root_starts hr).1,rfl⟩ hfrom
        · exact h.tipFrom_spent hpays (coin_facts (root_starts hr').1).2 hspent (by omega) false
      refine ⟨⟨change,r'.outPoint,true⟩,?_,rfl⟩
      simp only [Lineage.tip,hr',hfrom']

end

end

end DogePeg
