import DogePeg.Lib.Best
import DogePeg.Scripts

/-!
# What a node lists

A chain is read through its node as a list of transactions with their depth
(`chainTx`) and a list of unspent outputs (`utxo`). Zero confirmations means the
mempool; `conflictedFor` lists negative ones.
-/

namespace DogePeg

open List

structure ChainTx where
  tx : MsgTx
  confirmations : ℤ
  time : ℤ
  deriving DecidableEq

structure Utxo where
  outPoint : OutPoint
  value : Int64
  pkScript : Script
  confirmations : ℤ
  deriving DecidableEq, Repr

def inBlocks (txs : List ChainTx) : List ChainTx := txs.filter fun t => 0 < t.confirmations

@[simp] theorem mem_inBlocks {txs : List ChainTx} {t : ChainTx} : t∈inBlocks txs ↔ t∈txs ∧ 0 < t.confirmations := by
  simp [inBlocks]

def outPointLess (a b : OutPoint) : Bool :=
  a.hash < b.hash || (a.hash = b.hash && a.index < b.index)

/-- Whether `u` is in an older block than `best`, or in the same one at a lower outpoint. -/
def olderCoin (u best : Utxo) : Bool :=
  best.confirmations < u.confirmations ||
    (u.confirmations = best.confirmations && outPointLess u.outPoint best.outPoint)

def oldestCoin (coins : List Utxo) : Option Utxo :=
  coins.foldl (fun best u => match best with
      | none => some u
      | some b => if olderCoin u b then some u else some b)
    none

private theorem older_cases (best : Option Utxo) (u : Utxo) : (match best with
      | none => some u
      | some b => if olderCoin u b then some u else some b) = best ∨ (match best with
      | none => some u
      | some b => if olderCoin u b then some u else some b) = some u := by
  cases best with
  | none => exact .inr rfl
  | some b => exact (ite_eq_or_eq ..).symm

theorem oldestCoin_mem {coins : List Utxo} {u : Utxo} (h : oldestCoin coins=some u) : u∈coins :=
  (Best.mem_of_foldl older_cases h).resolve_left nofun

theorem oldestCoin_isSome {coins : List Utxo} (h : coins≠[]) : ∃ u, oldestCoin coins = some u := by
  cases coins with
  | nil => exact absurd rfl h
  | cons c cs =>
    rw [oldestCoin,List.foldl_cons,← Option.isSome_iff_exists]
    exact Best.isSome_foldl older_cases rfl

variable [Hashing]

def coinsWhere (isCoin : Script → Bool) (t : ChainTx) : List Utxo :=
  (t.tx.outputs.filter fun p => isCoin p.2.pkScript).map fun p =>
    ⟨p.1,p.2.value,p.2.pkScript,t.confirmations⟩

theorem mem_coinsWhere {isCoin : Script → Bool} {t : ChainTx} {u : Utxo} : u∈coinsWhere isCoin t ↔
      (u.outPoint,⟨u.value,u.pkScript⟩)∈t.tx.outputs ∧ isCoin u.pkScript = true ∧
        u.confirmations = t.confirmations := by
  simp only [coinsWhere,mem_map,mem_filter,Prod.exists]
  constructor
  · rintro ⟨op,out,⟨hmem,hcoin⟩,rfl⟩
    exact ⟨hmem,hcoin,rfl⟩
  · rintro ⟨hmem,hcoin,hconf⟩
    exact ⟨u.outPoint,⟨u.value,u.pkScript⟩,⟨hmem,hcoin⟩,by rw [← hconf]⟩

end DogePeg
