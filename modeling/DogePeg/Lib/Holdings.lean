import Mathlib.Data.List.AList
import Mathlib.Algebra.BigOperators.Group.List.Basic
import Mathlib.Algebra.Order.BigOperators.Group.List
import Mathlib.Algebra.Order.Ring.Int

/-! # Finite maps that hold value

Erasing and inserting lists of keys in a finite map, and what that does to a sum
over its entries. Inserting over a key that is already there loses what the key
held, so the sum after an insertion is bounded by the sum of both, and equal to it
when the keys are new. -/

namespace DogePeg.Holdings

open List

variable {α β : Type*} [DecidableEq α]

abbrev Holding (α β : Type*) := AList fun _ : α => β

/-- The sum of `f` over the entries of a map. -/
def weight (f : α → β → ℤ) (s : Holding α β) : ℤ := (s.entries.map fun e => f e.1 e.2).sum

/-- What `f` makes of the entry at `a`, zero when there is none. -/
def weightAt (f : α → β → ℤ) (s : Holding α β) (a : α) : ℤ := (s.lookup a).elim 0 (f a)

def eraseAll (s : Holding α β) (keys : List α) : Holding α β := keys.foldl (fun s a => s.erase a) s

def insertAll (s : Holding α β) (es : List (α × β)) : Holding α β :=
  es.foldl (fun s e => s.insert e.1 e.2) s

@[simp] theorem eraseAll_cons (s : Holding α β) (a : α) (keys : List α) :
    eraseAll s (a::keys) = eraseAll (s.erase a) keys := rfl

@[simp] theorem insertAll_cons (s : Holding α β) (e : α × β) (es : List (α × β)) :
    insertAll s (e::es) = insertAll (s.insert e.1 e.2) es := rfl

theorem lookup_eraseAll (s : Holding α β) (keys : List α) (a : α) :
    (eraseAll s keys).lookup a = if a ∈ keys then none else s.lookup a := by
  induction keys generalizing s with
  | nil => simp [eraseAll]
  | cons k keys ih =>
    rw [eraseAll_cons,ih]
    by_cases hk : a = k
    · subst hk
      simp
    · simp [hk,AList.lookup_erase_ne hk]

theorem lookup_insertAll_of_notMem {s : Holding α β} {es : List (α × β)} {a : α}
    (h : a∉es.map Prod.fst) : (insertAll s es).lookup a = s.lookup a := by
  induction es generalizing s with
  | nil => rfl
  | cons e es ih =>
    rw [map_cons,mem_cons,not_or] at h
    rw [insertAll_cons,ih h.2,AList.lookup_insert_ne h.1]

theorem lookup_insertAll_of_mem {s : Holding α β} {es : List (α × β)} {a : α} {b : β}
    (hnd : (es.map Prod.fst).Nodup) (h : (a,b)∈es) : (insertAll s es).lookup a = some b := by
  induction es generalizing s with
  | nil => cases h
  | cons e es ih =>
    rw [map_cons,nodup_cons] at hnd
    rw [insertAll_cons]
    rcases mem_cons.mp h with rfl | h
    · rw [lookup_insertAll_of_notMem hnd.1,AList.lookup_insert]
    · exact ih hnd.2 h

section Weight

variable (f : α → β → ℤ)

private theorem sum_kerase (l : List (Sigma fun _ : α => β)) (hnd : l.NodupKeys) (a : α) :
    ((l.kerase a).map fun e => f e.1 e.2).sum+(l.dlookup a).elim 0 (f a) = (l.map fun e => f e.1 e.2).sum := by
  induction l with
  | nil => rfl
  | cons e l ih =>
    rw [nodupKeys_cons] at hnd
    by_cases h : a = e.1
    · subst h
      rw [kerase_cons_eq rfl,dlookup_cons_eq]
      simp [add_comm]
    · rw [kerase_cons_ne h,dlookup_cons_ne _ e h]
      simp only [map_cons,sum_cons]
      rw [add_assoc,ih hnd.2]

theorem weight_erase (s : Holding α β) (a : α) : weight f (s.erase a)+weightAt f s a = weight f s :=
  sum_kerase f s.entries s.nodupKeys a

theorem weight_insert (s : Holding α β) (a : α) (b : β) :
    weight f (s.insert a b) = weight f s-weightAt f s a+f a b := by
  have h : weight f (s.insert a b) = f a b+weight f (s.erase a) := by
    rw [weight,AList.entries_insert,map_cons,sum_cons]
    rfl
  rw [h,← weight_erase f s a,add_sub_cancel_right,add_comm]

theorem weight_eraseAll (s : Holding α β) {keys : List α} (hnd : keys.Nodup) :
    weight f (eraseAll s keys)+(keys.map (weightAt f s)).sum = weight f s := by
  induction keys generalizing s with
  | nil => simp [eraseAll]
  | cons a keys ih =>
    rw [nodup_cons] at hnd
    have hrest : keys.map (weightAt f (s.erase a)) = keys.map (weightAt f s) := by
      apply map_congr_left
      intro k hk
      have hne : k ≠ a := fun h => hnd.1 (h ▸ hk)
      simp [weightAt,AList.lookup_erase_ne hne]
    have := ih (s.erase a) hnd.2
    rw [hrest] at this
    rw [eraseAll_cons,map_cons,sum_cons,← weight_erase f s a,← this]
    omega

def Nonneg (s : Holding α β) : Prop := ∀ a b, s.lookup a = some b → 0 ≤ f a b

variable {f} {s : Holding α β}

theorem Nonneg.weightAt (h : Nonneg f s) (a : α) : 0 ≤ weightAt f s a := by
  unfold Holdings.weightAt
  cases hl : s.lookup a with
  | none => simp
  | some b => simpa using h a b hl

theorem Nonneg.empty : Nonneg f (∅ : Holding α β) := by
  intro a b h
  simp at h

theorem Nonneg.eraseAll (h : Nonneg f s) (keys : List α) : Nonneg f (eraseAll s keys) := by
  intro a b hl
  rw [lookup_eraseAll] at hl
  split at hl
  · cases hl
  · exact h a b hl

theorem Nonneg.insert (h : Nonneg f s) {a : α} {b : β} (hb : 0≤f a b) : Nonneg f (s.insert a b) := by
  intro k c hl
  by_cases hk : k = a
  · subst hk
    rw [AList.lookup_insert] at hl
    cases hl
    exact hb
  · rw [AList.lookup_insert_ne hk] at hl
    exact h k c hl

variable {es : List (α × β)}

theorem Nonneg.insertAll (h : Nonneg f s) (hes : ∀ e∈es, 0 ≤ f e.1 e.2) : Nonneg f (insertAll s es) := by
  induction es generalizing s with
  | nil => exact h
  | cons e es ih =>
    exact ih (h.insert (hes e (by simp))) fun e' he' => hes e' (mem_cons_of_mem _ he')

theorem weight_insertAll_le (h : Nonneg f s) (hes : ∀ e∈es, 0 ≤ f e.1 e.2) :
    weight f (insertAll s es) ≤ weight f s+(es.map fun e => f e.1 e.2).sum := by
  induction es generalizing s with
  | nil => simp [Holdings.insertAll]
  | cons e es ih =>
    have hstep := ih (h.insert (hes e (by simp))) fun e' he' => hes e' (mem_cons_of_mem _ he')
    have hold := h.weightAt e.1
    rw [weight_insert] at hstep
    simp only [insertAll_cons,map_cons,sum_cons]
    omega

theorem weight_insertAll_of_new (hnd : (es.map Prod.fst).Nodup) (hnew : ∀ e∈es, s.lookup e.1 = none) :
    weight f (insertAll s es) = weight f s+(es.map fun e => f e.1 e.2).sum := by
  induction es generalizing s with
  | nil => simp [Holdings.insertAll]
  | cons e es ih =>
    rw [map_cons,nodup_cons] at hnd
    have hrest : ∀ e'∈es, (s.insert e.1 e.2).lookup e'.1 = none := by
      intro e' he'
      have hne : e'.1 ≠ e.1 := fun h => hnd.1 (h ▸ mem_map_of_mem he')
      rw [AList.lookup_insert_ne hne]
      exact hnew e' (mem_cons_of_mem _ he')
    have hold : Holdings.weightAt f s e.1 = 0 := by simp [Holdings.weightAt,hnew e (by simp)]
    rw [insertAll_cons,ih hnd.2 hrest,weight_insert,hold]
    simp only [map_cons,sum_cons]
    omega

end Weight

end DogePeg.Holdings
