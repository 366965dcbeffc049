import Mathlib.Data.List.Basic

/-! # Loops that keep the best of a list

A loop over a list that keeps one of its elements: each round takes the new one or leaves the
one it has. -/

namespace DogePeg.Best

open List

variable {α : Type*} {f : Option α → α → Option α} {l : List α} {best : Option α} {x : α}

theorem mem_of_foldl (hf : ∀ best a, f best a = best ∨ f best a = some a)
    (h : l.foldl f best=some x) : best = some x ∨ x∈l := by
  induction l generalizing best with
  | nil => exact .inl h
  | cons a l ih =>
    rcases ih h with hbest | hmem
    · rcases hf best a with hkeep | htake
      · exact .inl (hkeep ▸ hbest)
      · exact .inr (Option.some.inj (htake.symm.trans hbest) ▸ mem_cons_self ..)
    · exact .inr (mem_cons_of_mem a hmem)

theorem isSome_foldl (hf : ∀ best a, f best a = best ∨ f best a = some a) (hbest : best.isSome=true) :
    (l.foldl f best).isSome = true := by
  induction l generalizing best with
  | nil => exact hbest
  | cons a l ih =>
    apply ih
    rcases hf best a with hkeep | htake
    · rw [hkeep]
      exact hbest
    · rw [htake]
      rfl

/-- A loop that takes whatever comes before the one it has: nothing comes before what it ends
with. -/
theorem not_before_of_foldl {r : α → α → Prop} [DecidableRel r] (hasymm : ∀ a b, r a b → ¬ r b a)
    (hneg : ∀ a b c, ¬ r a b → ¬ r b c → ¬ r a c) (hnone : ∀ a, f none a = some a)
    (hsome : ∀ b a, f (some b) a = if r a b then some a else some b) (h : l.foldl f best=some x) :
    (∀ b∈best, ¬ r b x) ∧ ∀ y∈l, ¬ r y x := by
  induction l generalizing best with
  | nil =>
    obtain rfl : best = some x := h
    refine ⟨fun b hb => ?_, nofun⟩
    obtain rfl := Option.mem_some_iff.mp hb
    exact fun hb => hasymm x x hb hb
  | cons a l ih =>
    obtain ⟨hbest,hl⟩ := ih h
    cases best with
    | none => exact ⟨nofun,forall_mem_cons.mpr ⟨hbest a (hnone a),hl⟩⟩
    | some b =>
      rw [hsome] at hbest
      split at hbest
      · next hab =>
        have ha := hbest a rfl
        exact ⟨fun c hc => Option.mem_some_iff.mp hc ▸ hneg b a x (hasymm a b hab) ha, forall_mem_cons.mpr ⟨ha,hl⟩⟩
      · next hab =>
        have hb := hbest b rfl
        exact ⟨fun c hc => Option.mem_some_iff.mp hc ▸ hb, forall_mem_cons.mpr ⟨hneg a b x hab hb,hl⟩⟩

end DogePeg.Best
