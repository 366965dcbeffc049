import Mathlib.Data.List.Basic
import Mathlib.Data.Int.Order.Basic

/-!
# A bounded memory of what has been seen

Keys, each kept until a time of its own, in a memory of bounded size. Something is forgotten only
to make room, and only once its time is over.
-/

namespace DogePeg.Expiry

open List

variable {κ : Type*} [DecidableEq κ]

/-- What has been seen, with the time until which it has to be remembered. -/
abbrev Memory (κ : Type*) := List (κ × ℤ)

def Memory.holds (seen : Memory κ) (key : κ) : Bool := seen.any fun e => e.1 = key

def Memory.atTime (seen : Memory κ) (now : ℤ) : Memory κ := seen.filter fun e => !decide (e.2 < now)

/-- Whether a key is new to the memory, which then remembers it. -/
def remember (capacity : ℕ) (key : κ) (expires now : ℤ) (seen : Memory κ) : Bool × Memory κ :=
  if seen.holds key then (false,seen)
  else if seen.length < capacity then (true,(key,expires)::seen)
  else if (seen.atTime now).length < capacity then (true,(key,expires)::seen.atTime now)
  else (false,seen.atTime now)

variable {capacity : ℕ} {key : κ} {expires now : ℤ} {seen : Memory κ} {e : κ × ℤ}

theorem Memory.holds_of_mem (he : e∈seen) : seen.holds e.1 = true := any_eq_true.mpr ⟨e,he,by simp⟩

omit [DecidableEq κ] in
theorem Memory.mem_atTime (he : e∈seen) (hnow : now≤e.2) : e∈seen.atTime now :=
  mem_filter.mpr ⟨he,by simpa using hnow⟩

theorem of_remember (h : (remember capacity key expires now seen).1=true) :
    seen.holds key = false ∧ (key,expires)∈(remember capacity key expires now seen).2 := by
  unfold remember at h ⊢
  split
  · next hold => simp [hold] at h
  · next hold =>
    refine ⟨Bool.eq_false_iff.mpr hold,?_⟩
    split
    · exact mem_cons_self ..
    · split
      · exact mem_cons_self ..
      · next hroom hleft => simp [hold,hroom,hleft] at h

theorem mem_remember (he : e∈seen) (hnow : now≤e.2) : e∈(remember capacity key expires now seen).2 := by
  have hleft := Memory.mem_atTime he hnow
  unfold remember
  split
  · exact he
  · split
    · exact mem_cons_of_mem _ he
    · split
      · exact mem_cons_of_mem _ hleft
      · exact hleft

theorem remember_of_lt (hkey : seen.holds key=false) (hroom : seen.length<capacity) :
    remember capacity key expires now seen = (true,(key,expires)::seen) := by
  rw [remember,if_neg (by simp [hkey]),if_pos hroom]

theorem remember_of_full (hkey : seen.holds key=false) (hfull : capacity ≤ seen.length)
    (hleft : (seen.atTime now).length<capacity) :
    remember capacity key expires now seen = (true,(key,expires)::seen.atTime now) := by
  rw [remember,if_neg (by simp [hkey]),if_neg (by omega),if_pos hleft]

end DogePeg.Expiry
