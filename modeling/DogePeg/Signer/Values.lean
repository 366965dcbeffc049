import DogePeg.Signer.Anchors
import DogePeg.Signer.Inventory

/-!
# The values the chains allow

What `CheckTransactionSanity` makes of the values in what nodes list, and that the bridge's
anchor is one of its coins.
-/

namespace DogePeg

open Amounts Checks List

section

variable [Hashing]

/-- The outputs of a transaction the chains accept: `CheckTransactionSanity`. -/
def MsgTx.SaneOutputs (tx : MsgTx) : Prop :=
  (∀ out∈tx.txOut, 0 ≤ out.value.toInt) ∧ exact (tx.txOut.map (·.value)) ≤ 10^18

instance (tx : MsgTx) : Decidable tx.SaneOutputs := inferInstanceAs (Decidable (_ ∧ _))

/-- The transactions nodes list are ones the chains accept. -/
def Nodes.Sane (n : Nodes) : Prop := ∀ t∈n.vm.txs++n.doge.txs, t.tx.SaneOutputs

instance (n : Nodes) : Decidable n.Sane := List.decidableBAll ..

variable {b : Bridge} {n : Nodes}

omit [Hashing] in
theorem MsgTx.SaneOutputs.inRange {tx : MsgTx} (h : tx.SaneOutputs) {out : TxOut} (hout : out∈tx.txOut) :
    0 ≤ out.value.toInt ∧ out.value.toInt ≤ 10^18 := by
  refine ⟨h.1 out hout,le_trans ?_ h.2⟩
  refine single_le_sum ?_ _ (mem_map_of_mem (mem_map_of_mem hout))
  intro x hx
  simp only [mem_map] at hx
  obtain ⟨_,⟨o,ho,rfl⟩,rfl⟩ := hx
  exact h.1 o ho

theorem Nodes.Sane.moneyRange (h : n.Sane) : n.MoneyRange := fun t ht _ hout => (h t ht).inRange hout

theorem Nodes.Sane.pegOut (h : n.Sane) {p : PegOut} (hp : p∈(b.load n).pegOuts) :
    0 ≤ p.value.toInt ∧ p.value.toInt ≤ 10^18 := by
  obtain ⟨t,ht,hp⟩ := mem_filterMap.mp hp
  have hsane := h t (mem_append_left _ (mem_of_mem_filter ht))
  have hvalue : p.value = paidTo b.script t.tx := by
    unfold Bridge.pegOutOf at hp
    split at hp
    · cases hp
    · split at hp
      · cases hp
        rfl
      · cases hp
  have hle : exact ((t.tx.txOut.filter fun out => out.pkScript = b.script).map (·.value)) ≤ 10^18 :=
    (exact_filter_le hsane.1 _).trans hsane.2
  have hnonneg : ∀ v∈(t.tx.txOut.filter fun out => out.pkScript = b.script).map (·.value), 0 ≤ v.toInt := by
    rw [forall_mem_map]
    exact fun out hout => hsane.1 out (mem_of_mem_filter hout)
  rw [hvalue,paidTo,toInt_total hnonneg (by omega)]
  exact ⟨exact_nonneg hnonneg,hle⟩

/-! ## The anchor is one of the coins -/

theorem freeAnchor_mem {chain : ChainName} {a : Utxo} (h : (b.load n).freeAnchor chain=some a) :
    a ∈ (b.load n).freeOn chain := by
  obtain ⟨hanchor,hcontains⟩ := Option.filter_eq_some_iff.mp h
  obtain ⟨u,hu,hpoint⟩ := any_eq_true.mp hcontains
  rw [decide_eq_true_eq] at hpoint
  cases chain with
  | dogecoin =>
    change (b.pegLine n.doge.txs).anchorIn ((b.load n).freeOn .dogecoin++_) = some a at hanchor
    unfold Lineage.anchorIn at hanchor
    split at hanchor
    · next t _ =>
      have htip : a.outPoint = t.tip := by simpa using List.find?_some hanchor
      have hsome : (((b.load n).freeOn .dogecoin).find? fun u => u.outPoint = t.tip).isSome = true :=
        List.find?_isSome.mpr ⟨u,hu,decide_eq_true (hpoint.trans htip)⟩
      rw [List.find?_append,Option.or_of_isSome hsome] at hanchor
      exact mem_of_find?_eq_some hanchor
    · cases hanchor
  | dogecoinVM =>
    have hnodup : ((b.vmUnspent n.vm.txs n.gettxout).map (·.outPoint)).Nodup :=
      (n.vm.nodup_coins (· = b.script)).sublist (filter_sublist.map _)
    have ha : a∈b.vmUnspent n.vm.txs n.gettxout := mem_of_mem_filter (Lineage.anchorIn_mem hanchor)
    have heq : u = a := inj_on_of_nodup_map hnodup (mem_of_mem_filter hu) ha hpoint
    exact heq ▸ hu

end

end DogePeg
