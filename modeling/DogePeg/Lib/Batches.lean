import Mathlib.Logic.Function.Basic
import Mathlib.Data.List.Basic

/-!
# Batches of writes and their undo records

A store of keys and values changes by batches, each a list of puts and deletes written at once.
An undo record of a batch lists the keys it put and the entries it deleted. Where the keys it put
were not there before, writing the record back restores the store.
-/

namespace DogePeg.Batches

open List Function

variable {K V : Type} [DecidableEq K]

abbrev Store (K V : Type) := K → Option V

inductive Write (K V : Type) where
  | put (key : K) (value : V)
  | delete (key : K)

def Write.key : Write K V → K
  | .put k _ => k
  | .delete k => k

def Write.value : Write K V → Option V
  | .put _ v => some v
  | .delete _ => none

namespace Store

variable {s : Store K V} {batch : List (Write K V)} {k : K}

def write (s : Store K V) (batch : List (Write K V)) : Store K V :=
  batch.foldl (fun s w => Function.update s w.key w.value) s

@[simp] theorem write_nil (s : Store K V) : s.write [] = s := rfl

@[simp] theorem write_cons (s : Store K V) (w : Write K V) (batch : List (Write K V)) :
    s.write (w::batch) = write (Function.update s w.key w.value) batch := rfl

theorem write_append (s : Store K V) (first rest : List (Write K V)) :
    s.write (first++rest) = (s.write first).write rest := foldl_append ..

theorem write_cases (s : Store K V) (batch : List (Write K V)) (k : K) :
    (∀ w∈batch, w.key ≠ k) ∧ s.write batch k = s k ∨ ∃ w∈batch, w.key = k ∧ s.write batch k = w.value := by
  induction batch generalizing s with
  | nil => exact .inl ⟨by simp, rfl⟩
  | cons w batch ih =>
    rcases ih (Function.update s w.key w.value) with ⟨hne,heq⟩ | ⟨u,hu,hkey,heq⟩
    · by_cases hk : w.key = k
      · refine .inr ⟨w,mem_cons_self ..,hk,heq.trans ?_⟩
        rw [← hk,update_self]
      · refine .inl ⟨?_,heq.trans (update_of_ne (Ne.symm hk) ..)⟩
        intro u hu
        rcases mem_cons.mp hu with rfl | hu
        · exact hk
        · exact hne u hu
    · exact .inr ⟨u,mem_cons_of_mem _ hu,hkey,heq⟩

theorem write_of_ne (h : ∀ w∈batch, w.key ≠ k) : s.write batch k = s k := by
  rcases write_cases s batch k with ⟨-,heq⟩ | ⟨w,hw,hkey,-⟩
  · exact heq
  · exact absurd hkey (h w hw)

theorem mem_of_write (h : s.write batch k≠none) : s k ≠ none ∨ ∃ v, .put k v ∈ batch := by
  rcases write_cases s batch k with ⟨-,heq⟩ | ⟨w,hw,rfl,heq⟩
  · exact .inl (heq ▸ h)
  · cases w with
    | put k v => exact .inr ⟨v,hw⟩
    | delete k => exact absurd heq h

theorem write_congr {t : Store K V} (h : s k=t k) (batch : List (Write K V)) : s.write batch k = t.write batch k := by
  induction batch generalizing s t with
  | nil => exact h
  | cons w batch ih =>
    rw [write_cons,write_cons]
    apply ih
    by_cases hk : k = w.key
    · rw [hk,update_self,update_self]
    · rw [update_of_ne hk,update_of_ne hk,h]

theorem write_comm {first second : List (Write K V)} (h : ∀ w∈first, ∀ w'∈second, w.key ≠ w'.key) :
    (s.write first).write second = (s.write second).write first := by
  funext k
  by_cases hk : ∃ w∈first, w.key = k
  · obtain ⟨w,hw,rfl⟩ := hk
    have hsecond : ∀ w'∈second, w'.key ≠ w.key := fun w' hw' => (h w hw w' hw').symm
    rw [write_of_ne hsecond]
    exact (write_congr (write_of_ne hsecond) first).symm
  · have hfirst : ∀ w∈first, w.key ≠ k := fun w hw heq => hk ⟨w,hw,heq⟩
    rw [write_of_ne hfirst]
    exact write_congr (write_of_ne hfirst) second

end Store

structure Undo (K V : Type) where
  put : List K
  deleted : List (K × V)

namespace Undo

variable {s : Store K V} {batch : List (Write K V)} {u : Undo K V}

/-- The batch that takes a batch back. -/
def writes (u : Undo K V) : List (Write K V) :=
  u.put.map .delete++u.deleted.map fun e => .put e.1 e.2

/-- The record is one of a batch written to `s`. -/
structure Of (s : Store K V) (batch : List (Write K V)) (u : Undo K V) : Prop where
  put : ∀ k v, .put k v ∈ batch → k∈u.put
  delete : ∀ k, .delete k ∈ batch → k∈u.put ∨ k∈u.deleted.map Prod.fst
  deleted : ∀ e∈u.deleted, s e.1 = some e.2

theorem Of.restore (h : u.Of s batch) (hfresh : ∀ k∈u.put, s k = none) : (s.write batch).write u.writes = s := by
  funext k
  rcases Store.write_cases (s.write batch) u.writes k with ⟨hne,heq⟩ | ⟨w,hw,rfl,heq⟩
  · rw [heq]
    -- a key the record does not name, the batch did not write
    refine Store.write_of_ne fun w hw hkey => ?_
    have hput (hk : k∈u.put) : False := hne (.delete k) (mem_append_left _ (mem_map_of_mem hk)) rfl
    cases w with
    | put key v => exact hput (hkey ▸ h.put key v hw)
    | delete key =>
      rcases h.delete key hw with hk | hk
      · exact hput (hkey ▸ hk)
      · obtain ⟨e,he,hkeys⟩ := mem_map.mp hk
        exact hne (.put e.1 e.2) (mem_append_right _ (mem_map_of_mem he)) (hkeys.trans hkey)
  · rw [heq]
    rcases mem_append.mp hw with hput | hdel
    · obtain ⟨key,hkey,rfl⟩ := mem_map.mp hput
      exact (hfresh key hkey).symm
    · obtain ⟨e,he,rfl⟩ := mem_map.mp hdel
      exact (h.deleted e he).symm

end Undo

end DogePeg.Batches
