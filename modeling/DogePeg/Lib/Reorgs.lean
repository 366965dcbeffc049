import Mathlib.Data.List.Basic
import Mathlib.Logic.Relation
import Mathlib.Order.MinMax

/-! # Chains that grow and reorganise

A chain is the list of its blocks, the first one first. A reorganisation gives up the last
blocks for a branch at least as long. A block deeper than every reorganisation stays. -/

namespace DogePeg.Reorgs

open List

variable {β : Type*} {deep n : ℤ} {chain chain' : List β} {x : β}

/-- A chain after more blocks, with fewer than `deep` of the last ones undone before. -/
def Moves (deep : ℤ) (chain chain' : List β) : Prop :=
  ∃ (undone : ℕ) (branch : List β), (undone = 0 ∨ undone < deep) ∧ undone ≤ branch.length ∧
    undone ≤ chain.length ∧ chain' = chain.take (chain.length-undone)++branch

def Reaches (deep : ℤ) : List β → List β → Prop := Relation.ReflTransGen (Moves deep)

/-- A block with `n` confirmations: its own counts. -/
def Under (chain : List β) (x : β) (n : ℤ) : Prop := ∃ i : ℕ, chain[i]? = some x ∧ n = chain.length-i

theorem Under.mem (h : Under chain x n) : x∈chain := by
  obtain ⟨i,hi,-⟩ := h
  exact mem_of_getElem? hi

theorem Under.moves (h : Under chain x n) (hdeep : deep≤n) (hmoves : Moves deep chain chain') :
    ∃ m, n ≤ m ∧ Under chain' x m := by
  obtain ⟨i,hi,hn⟩ := h
  obtain ⟨undone,branch,hundone,hbranch,hlength,rfl⟩ := hmoves
  have hlt : i < chain.length := (List.getElem?_eq_some_iff.mp hi).1
  have hkept : i < chain.length-undone := by omega
  refine ⟨_,?_,i,?_,rfl⟩
  · rw [length_append,length_take]
    omega
  · rw [List.getElem?_append_left (by rw [length_take]; omega),List.getElem?_take_of_lt hkept]
    exact hi

theorem Under.reaches (h : Under chain x n) (hdeep : deep≤n) (hreaches : Reaches deep chain chain') :
    ∃ m, n ≤ m ∧ Under chain' x m := by
  induction hreaches with
  | refl => exact ⟨n,le_rfl,h⟩
  | tail _ hmoves ih =>
    obtain ⟨m,hm,hunder⟩ := ih
    obtain ⟨k,hk,hunder'⟩ := hunder.moves (hdeep.trans hm) hmoves
    exact ⟨k,hm.trans hk,hunder'⟩

theorem mem_of_reaches (hdeep : deep≤1) (hreaches : Reaches deep chain chain') (hx : x∈chain) : x∈chain' := by
  obtain ⟨i,hi⟩ := mem_iff_getElem?.mp hx
  have hlt : i < chain.length := (List.getElem?_eq_some_iff.mp hi).1
  obtain ⟨m,-,hunder⟩ := Under.reaches ⟨i,hi,rfl⟩ (by omega) hreaches
  exact hunder.mem

end DogePeg.Reorgs
