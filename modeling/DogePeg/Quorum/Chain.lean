import DogePeg.Node.Ledger
import DogePeg.Signer.Proven

/-!
# The line of a chain

Whatever chain holds a coin of the line also holds all of the line before it: the coin's hash names the
transaction that made it, and a chain holds what its transactions spend. So two transactions of one chain
that spend coins of the line are in order along it, and whoever sees the coin the later one spends sees
the earlier one in a block.
-/

namespace DogePeg

open Amounts Checks Walk Node

section

variable [Hashing]

/-! ## Chains -/

/-- What a chain's rules say of the transactions in its blocks, and that they are among the
transactions `U`. -/
structure ChainIn (U : List MsgTx) (C : List ChainTx) : Prop where
  known : ∀ t∈C, t.tx∈U
  mined : ∀ t∈C, 0 < t.confirmations
  funded : ∀ t∈C, isCoinbase t.tx = false → ∀ op∈t.tx.spends,
    ∃ u∈C, ∃ out, (op,out)∈u.tx.outputs
  spentOnce : ∀ t∈C, ∀ u∈C, isCoinbase t.tx = false → ∀ op∈t.tx.spends,
    op ∈ u.tx.spends → t = u

/-- The chain holds a transaction with the output `op`. -/
def Makes (C : List ChainTx) (op : OutPoint) : Prop := ∃ t∈C, ∃ out, (op,out)∈t.tx.outputs

/-- The coin after a coin on the line of a chain. -/
def lineOf (script : Script) (C : List ChainTx) : OutPoint → Option OutPoint :=
  (newLineage C script 0).nextCoin

variable {U : List MsgTx} {C V : List ChainTx} {script : Script} {c d : OutPoint} {t u : ChainTx}

theorem ChainIn.of_listed (known : ∀ t∈C, t.tx∈U) (mined : ∀ t∈C, 0 < t.confirmations)
    (funded : ∀ t∈C, isCoinbase t.tx = false → ∀ op∈t.tx.spends, ∃ u∈C, op∈u.tx.outputs.map Prod.fst)
    (spentOnce : ∀ t∈C, ∀ u∈C, isCoinbase t.tx = false → ∀ op∈t.tx.spends, op∈u.tx.spends → t = u) :
    ChainIn U C where
  known := known
  mined := mined
  funded t ht hcb op hop := by
    obtain ⟨u,hu,hmade⟩ := funded t ht hcb op hop
    obtain ⟨⟨_,out⟩,hout,rfl⟩ := List.mem_map.mp hmade
    exact ⟨u,hu,out,hout⟩
  spentOnce := spentOnce

theorem Lineage.nextCoin_eq_some {l : Lineage} :
    l.nextCoin c = some d ↔ ∃ t, l.spentBy c = some t ∧ lastOutputTo l.script t.tx = some d := by
  rw [← Lineage.next_ok_some,Lineage.nextCoin]
  split
  · next h => simp [h]
  · next h => simp [h]

theorem Makes.index (h : Makes C c) : c.index ≠ maxPrevOutIndex := by
  obtain ⟨t,-,out,hout⟩ := h
  exact t.tx.index_ne_max hout

theorem makes_of_coinPoints (ht : t∈C) (hc : c∈coinPoints script t.tx) : Makes C c := by
  obtain ⟨out,hout,-⟩ := mem_coinPoints.mp hc
  exact ⟨t,ht,out,hout⟩

theorem index_of_lastOutputTo {tx : MsgTx} (h : lastOutputTo script tx=some d) : d.index ≠ maxPrevOutIndex := by
  obtain ⟨out,hout,-⟩ := mem_coinPoints.mp (lastOutputTo_mem h)
  exact tx.index_ne_max hout

/-! ## Transactions that differ in their witnesses alone -/

section Strip

variable {x y : MsgTx}

omit [Hashing] in
theorem spends_eq_of_strip (h : x.stripWitness=y.stripWitness) : x.spends = y.spends := by
  rw [← x.stripWitness_spends,h,y.stripWitness_spends]

omit [Hashing] in
theorem txOut_eq_of_strip (h : x.stripWitness=y.stripWitness) : x.txOut = y.txOut := by
  rw [← x.stripWitness_txOut,h,y.stripWitness_txOut]

theorem outputs_eq_of_strip (h : x.stripWitness=y.stripWitness) : x.outputs = y.outputs := by
  have hhash : x.txHash = y.txHash := by rw [← x.txHash_stripWitness,h,y.txHash_stripWitness]
  simp only [MsgTx.outputs,MsgTx.outPoint,hhash,txOut_eq_of_strip h]

theorem coinPoints_eq_of_strip (h : x.stripWitness=y.stripWitness) : coinPoints script x = coinPoints script y := by
  rw [coinPoints,coinPoints,outputs_eq_of_strip h]

theorem lastOutputTo_eq_of_strip (h : x.stripWitness=y.stripWitness) :
    lastOutputTo script x = lastOutputTo script y := by
  rw [lastOutputTo,lastOutputTo,outputs_eq_of_strip h]

theorem strip_eq_of_output (hU : CollisionFree U) (hx : x∈U) (hy : y∈U) {p q : TxOut}
    (hcx : (c,p)∈x.outputs) (hcy : (c,q)∈y.outputs) : x.stripWitness = y.stripWitness := by
  have hxh : c.hash = x.txHash := x.hash_of_mem_outputs hcx
  have hyh : c.hash = y.txHash := y.hash_of_mem_outputs hcy
  exact hU x hx y hy (hxh.symm.trans hyh)

end Strip

/-! ## The line in one chain and in another -/

namespace ChainIn

theorem lineOf_eq (hC : ChainIn U C) (hidx : c.index≠maxPrevOutIndex) (ht : t∈C)
    (hc : c∈t.tx.spends) : lineOf script C c = lastOutputTo script t.tx := by
  have hcb := not_coinbase_of_spends hc hidx
  have hspent : (newLineage C script 0).spentBy c = some t := by
    refine newLineage_spentBy_unique (mem_inBlocks.mpr ⟨ht,hC.mined t ht⟩) hc fun u hu hcu => ?_
    exact (hC.spentOnce t ht u (mem_inBlocks.mp hu).1 hcb c hc hcu).symm
  cases hlast : lastOutputTo script t.tx with
  | some d =>
    refine Lineage.nextCoin_eq_some.mpr ⟨t,hspent,?_⟩
    rwa [newLineage_script]
  | none =>
    cases hline : lineOf script C c with
    | none => rfl
    | some d =>
      obtain ⟨u,hu,hlast'⟩ := Lineage.nextCoin_eq_some.mp hline
      rw [hspent,Option.some.injEq] at hu
      rw [newLineage_script,← hu,hlast] at hlast'
      cases hlast'

theorem spender_of_lineOf (h : lineOf script C c=some d) :
    ∃ t∈C, c∈t.tx.spends ∧ lastOutputTo script t.tx = some d := by
  obtain ⟨t,hspent,hlast⟩ := Lineage.nextCoin_eq_some.mp h
  obtain ⟨ht,hc⟩ := newLineage_spentBy_some hspent
  rw [newLineage_script] at hlast
  exact ⟨t,(mem_inBlocks.mp ht).1,hc,hlast⟩

theorem leads_of_listed (hC : ChainIn U C) {txs : List ChainTx} {depth : ℤ}
    (hsub : ∀ t∈inBlocks txs, t∈C) (hidx : c.index≠maxPrevOutIndex)
    (h : Leads (newLineage txs script depth).nextCoin c d) :
    d.index ≠ maxPrevOutIndex ∧ Leads (lineOf script C) c d := by
  induction h with
  | refl => exact ⟨hidx,Leads.refl _ _⟩
  | tail _ hstep ih =>
    obtain ⟨hb,hlead⟩ := ih
    obtain ⟨t,hspent,hlast⟩ := Lineage.nextCoin_eq_some.mp hstep
    obtain ⟨ht,hc⟩ := newLineage_spentBy_some hspent
    rw [newLineage_script] at hlast
    exact ⟨index_of_lastOutputTo hlast,hlead.tail ((hC.lineOf_eq hb (hsub t ht) hc).trans hlast)⟩

theorem leads_back (hU : CollisionFree U) (hC : ChainIn U C) (hV : ChainIn U V)
    (hidx : c.index≠maxPrevOutIndex) (h : Leads (lineOf script C) c d) (hd : Makes V d) :
    Makes V c ∧ Leads (lineOf script V) c d := by
  induction h with
  | refl => exact ⟨hd,Leads.refl _ _⟩
  | @tail b d hcb hstep ih =>
    obtain ⟨t,ht,hb,hlast⟩ := spender_of_lineOf hstep
    obtain ⟨p,hp,-⟩ := mem_coinPoints.mp (lastOutputTo_mem hlast)
    obtain ⟨u,hu,q,hq⟩ := hd
    -- the chain `V` holds the same transaction, which spends `b` there
    have hstrip := strip_eq_of_output hU (hC.known t ht) (hV.known u hu) hp hq
    have hbu : b∈u.tx.spends := spends_eq_of_strip hstrip ▸ hb
    have hbidx : b.index ≠ maxPrevOutIndex := by
      rcases Relation.ReflTransGen.cases_tail hcb with rfl | ⟨a,-,hab⟩
      · exact hidx
      · obtain ⟨_,-,-,hlast'⟩ := spender_of_lineOf hab
        exact index_of_lastOutputTo hlast'
    obtain ⟨hc,hlead⟩ := ih (hV.funded u hu (not_coinbase_of_spends hbu hbidx) b hbu)
    refine ⟨hc,hlead.tail ?_⟩
    rw [hV.lineOf_eq hbidx hu hbu,← lastOutputTo_eq_of_strip hstrip,hlast]

end ChainIn

/-! ## Coins of one line -/

/-- Every chain that holds `p` has it on the line from `a`. -/
structure OnLine (U : List MsgTx) (script : Script) (a p : OutPoint) : Prop where
  start : a.index ≠ maxPrevOutIndex
  index : p.index ≠ maxPrevOutIndex
  leads : ∀ C, ChainIn U C → Makes C p → Leads (lineOf script C) a p

namespace OnLine

variable {a p q : OutPoint}

theorem refl (h : a.index≠maxPrevOutIndex) : OnLine U script a a := ⟨h,h,fun _ _ _ => Leads.refl _ _⟩

theorem extend (hU : CollisionFree U) (hV : ChainIn U V) (h : OnLine U script a p)
    (hpq : Leads (lineOf script V) p q) (hq : q.index≠maxPrevOutIndex) : OnLine U script a q := by
  refine ⟨h.start,hq,fun C hC hmakes => ?_⟩
  obtain ⟨hp,hlead⟩ := ChainIn.leads_back hU hV hC h.index hpq hmakes
  exact (h.leads C hC hp).trans hlead

/-- A coin of the line other than its first pays the script, and so does the first if some
transaction made it do so. -/
theorem pays (hU : CollisionFree U) (h : OnLine U script a p) {x : MsgTx} (hx : x∈U)
    (ha : a∈coinPoints script x) (hC : ChainIn U C) (ht : t∈C) {out : TxOut}
    (hout : (p,out)∈t.tx.outputs) : p∈coinPoints script t.tx := by
  rcases Relation.ReflTransGen.cases_tail (h.leads C hC ⟨t,ht,out,hout⟩) with rfl | ⟨b,-,hbp⟩
  · obtain ⟨q,hq,-⟩ := mem_coinPoints.mp ha
    rwa [coinPoints_eq_of_strip (strip_eq_of_output hU (hC.known t ht) hx hout hq)]
  · obtain ⟨u,hu,-,hlast⟩ := ChainIn.spender_of_lineOf hbp
    obtain ⟨q,hq,-⟩ := mem_coinPoints.mp (lastOutputTo_mem hlast)
    rw [coinPoints_eq_of_strip (strip_eq_of_output hU (hC.known t ht) (hC.known u hu) hout hq)]
    exact lastOutputTo_mem hlast

/-- Of two transactions of a chain that spend coins of the line, whoever holds the coin the
later one spends holds the earlier one. -/
theorem order (hU : CollisionFree U) (hC : ChainIn U C) (hp : OnLine U script a p)
    (hq : OnLine U script a q) (ht : t∈C) (hpt : p∈t.tx.spends) (hu : u∈C) (hqu : q∈u.tx.spends) :
    t = u ∨ (∀ V, ChainIn U V → Makes V q → ∃ t'∈V, t'.tx.stripWitness = t.tx.stripWitness) ∨
      ∀ V, ChainIn U V → Makes V p → ∃ u'∈V, u'.tx.stripWitness = u.tx.stripWitness := by
  -- what is spent earlier on the line is spent by a transaction that whoever holds the later
  -- coin holds
  have earlier {p q : OutPoint} {t : ChainTx} (hp : OnLine U script a p) (ht : t∈C)
      (hpt : p∈t.tx.spends) (hlead : Leads (lineOf script C) p q) :
      p = q ∨ ∀ V, ChainIn U V → Makes V q → ∃ t'∈V, t'.tx.stripWitness = t.tx.stripWitness := by
    rcases hlead.eq_or_head with rfl | ⟨r,hr,hrq⟩
    · exact .inl rfl
    · refine .inr fun V hV hmakes => ?_
      rw [hC.lineOf_eq hp.index ht hpt] at hr
      obtain ⟨⟨t',ht',out,hout⟩,-⟩ := ChainIn.leads_back hU hC hV (index_of_lastOutputTo hr) hrq hmakes
      obtain ⟨out',hout',-⟩ := mem_coinPoints.mp (lastOutputTo_mem hr)
      exact ⟨t',ht',strip_eq_of_output hU (hV.known t' ht') (hC.known t ht) hout hout'⟩
  have hmakes {r : OutPoint} {x : ChainTx} (hr : r.index≠maxPrevOutIndex) (hx : x∈C)
      (hrx : r∈x.tx.spends) : Makes C r := hC.funded x hx (not_coinbase_of_spends hrx hr) r hrx
  rcases (hp.leads C hC (hmakes hp.index ht hpt)).total (hq.leads C hC (hmakes hq.index hu hqu)) with hlead | hlead
  · rcases earlier hp ht hpt hlead with rfl | hseen
    · exact .inl (hC.spentOnce t ht u hu (not_coinbase_of_spends hpt hp.index) p hpt hqu)
    · exact .inr (.inl hseen)
  · rcases earlier hq hu hqu hlead with rfl | hseen
    · exact .inl (hC.spentOnce t ht u hu (not_coinbase_of_spends hpt hp.index) q hpt hqu)
    · exact .inr (.inr hseen)

end OnLine

end

end DogePeg
