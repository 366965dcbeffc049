import Mathlib.Algebra.Order.BigOperators.Group.List
import Mathlib.Algebra.Order.Ring.Int
import Mathlib.Tactic.Linarith

/-!
# A limit over a trailing window

Amounts that move at certain times, where each one is let through only if it fits with those of the
last `span` before it: then every window of that length keeps the limit, wherever it begins.
-/

namespace DogePeg.Windows

open List

/-- An amount, and when it moved. -/
abbrev Move := ℤ × ℤ

def moved (moves : List Move) (p : ℤ → Bool) : ℤ := ((moves.filter fun m => p m.2).map Prod.fst).sum

variable {moves moves' : List Move} {p q : ℤ → Bool}

theorem moved_cons (m : Move) (moves : List Move) (p : ℤ → Bool) :
    moved (m::moves) p = (if p m.2 then m.1 else 0)+moved moves p := by
  unfold moved
  by_cases h : p m.2 = true <;> simp [h]

theorem moved_perm (h : moves.Perm moves') (p : ℤ → Bool) : moved moves p = moved moves' p :=
  ((h.filter _).map _).sum_eq

theorem moved_nonneg (h : ∀ m∈moves, 0 ≤ m.1) : 0 ≤ moved moves p := by
  refine sum_nonneg fun x hx => ?_
  obtain ⟨m,hm,rfl⟩ := mem_map.mp hx
  exact h m (mem_of_mem_filter hm)

/-- A window in another one has no more, moves of nothing aside. -/
theorem moved_mono (hnonneg : ∀ m∈moves, 0 ≤ m.1) (h : ∀ m∈moves, m.1 = 0 ∨ (p m.2 → q m.2)) :
    moved moves p ≤ moved moves q := by
  induction moves with
  | nil => exact le_rfl
  | cons m moves ih =>
    have hm := hnonneg m (mem_cons_self ..)
    have hrest := ih (fun x hx => hnonneg x (mem_cons_of_mem _ hx)) fun x hx => h x (mem_cons_of_mem _ hx)
    have hfirst : (if p m.2 then m.1 else 0) ≤ if q m.2 then m.1 else 0 := by
      rcases h m (mem_cons_self ..) with hzero | hpq
      · simp [hzero]
      · by_cases hp : p m.2 = true
        · simp [hp,hpq hp]
        · rw [if_neg hp]
          split
          · exact hm
          · exact le_rfl
    rw [moved_cons,moved_cons]
    linarith

def between (lo hi : ℤ) : ℤ → Bool := fun t => decide (lo ≤ t ∧ t ≤ hi)

def since (lo : ℤ) : ℤ → Bool := fun t => decide (lo ≤ t)

/-- Moves up to now that keep a limit over every window. -/
structure Limited (span limit clock : ℤ) (moves : List Move) : Prop where
  nonneg : ∀ m∈moves, 0 ≤ m.1
  past : ∀ m∈moves, m.1 = 0 ∨ m.2 ≤ clock
  within : ∀ lo, moved moves (between lo (lo+span)) ≤ limit

namespace Limited

variable {span limit clock now : ℤ}

theorem nil (hlimit : 0≤limit) : Limited span limit clock [] := ⟨by simp, by simp, fun _ => hlimit⟩

variable (h : Limited span limit clock moves)

include h

theorem perm (hperm : moves.Perm moves') : Limited span limit clock moves' where
  nonneg m hm := h.nonneg m (hperm.mem_iff.mpr hm)
  past m hm := h.past m (hperm.mem_iff.mpr hm)
  within lo := moved_perm hperm _ ▸ h.within lo

theorem later (hclock : clock≤now) : Limited span limit now moves :=
  ⟨h.nonneg,fun m hm => (h.past m hm).imp_right (·.trans hclock), h.within⟩

theorem zero (t : ℤ) : Limited span limit clock ((0,t)::moves) where
  nonneg m hm := by
    rcases mem_cons.mp hm with rfl | hm
    · exact le_rfl
    · exact h.nonneg m hm
  past m hm := by
    rcases mem_cons.mp hm with rfl | hm
    · exact .inl rfl
    · exact h.past m hm
  within lo := by simpa [moved_cons] using h.within lo

theorem since_le (hclock : clock≤now) : moved moves (since (now-span)) ≤ limit := by
  refine (moved_mono h.nonneg fun m hm => ?_).trans (h.within (now-span))
  refine (h.past m hm).imp_right fun hpast hsince => ?_
  have hlo : now-span ≤ m.2 := of_decide_eq_true hsince
  exact decide_eq_true ⟨hlo,by omega⟩

theorem add {amount first : ℤ} (hclock : clock≤now) (hfirst : now≤first)
    (hamount : 0≤amount) (hfits : moved moves (since (now-span))+amount≤limit) :
    Limited span limit first ((amount,first)::moves) where
  nonneg m hm := by
    rcases mem_cons.mp hm with rfl | hm
    · exact hamount
    · exact h.nonneg m hm
  past m hm := by
    rcases mem_cons.mp hm with rfl | hm
    · exact .inr le_rfl
    · exact (h.past m hm).imp_right (·.trans (hclock.trans hfirst))
  within lo := by
    rw [moved_cons]
    by_cases hin : between lo (lo+span) first = true
    · -- a window that ends after `first` begins after the trailing one
      obtain ⟨-,hhi⟩ := of_decide_eq_true hin
      have hle : moved moves (between lo (lo+span)) ≤ moved moves (since (now-span)) := by
        refine moved_mono h.nonneg fun m _ => .inr fun hbetween => ?_
        obtain ⟨hlo,-⟩ := of_decide_eq_true hbetween
        exact decide_eq_true (by omega)
      simp only [hin,if_true]
      linarith
    · simpa [hin] using h.within lo

end Limited

end DogePeg.Windows
