import Mathlib.Algebra.Order.BigOperators.Group.Finset
import Mathlib.Algebra.BigOperators.Ring.Finset
import Mathlib.Tactic.Linarith
import Mathlib.Tactic.Ring

/-! # Shares of a pot among overlapping quorums

Each item is paid from one pot and needs the agreement of `t` of `n` members. An honest
member keeps what it agreed to within one part in `n - t + 1` of the pot. With fewer than
`t` dishonest members the items then fit in the pot together: count every item once for each
honest member behind it. -/

namespace DogePeg.Shares

open Finset

variable {ι τ : Type*} [DecidableEq ι] {items : Finset τ} {cost : τ → ℤ} {behind : τ → Finset ι} {honest : Finset ι}

theorem sum_agreed (items : Finset τ) (cost : τ → ℤ) (behind : τ → Finset ι) (honest : Finset ι) :
    ∑ i ∈ honest, ∑ x ∈ items with i ∈ behind x, cost x = ∑ x ∈ items, ((honest ∩ behind x).card : ℤ)*cost x := by
  simp only [sum_filter]
  rw [sum_comm]
  apply sum_congr rfl
  intro x _
  rw [← sum_filter,filter_mem_eq_inter,sum_const,nsmul_eq_mul]

theorem honest_behind {all behind : Finset ι} (honest : Finset ι) (hbehind : behind ⊆ all) :
    behind.card ≤ (honest ∩ behind).card+(all \ honest).card := by
  have hsplit := card_inter_add_card_sdiff behind honest
  have hrest : (behind \ honest).card ≤ (all \ honest).card := card_le_card (sdiff_subset_sdiff hbehind subset_rfl)
  rw [inter_comm] at hsplit
  omega

/-- The number of honest members is at most their number in a quorum, times the parts. -/
theorem members_le {a p : ℤ} (ha : 1≤a) (hp : 1≤p) : a+p-1 ≤ a*p := by
  nlinarith [mul_nonneg (sub_nonneg.mpr ha) (sub_nonneg.mpr hp)]

theorem sum_cost_le {all : Finset ι} {t : ℕ} {pot : ℤ} (hpot : 0≤pot) (hhonest : honest ⊆ all)
    (hfew : (all \ honest).card<t) (hall : ∀ x∈items, behind x ⊆ all)
    (hquorum : ∀ x∈items, t ≤ (behind x).card) (hcost : ∀ x∈items, 0 ≤ cost x)
    (hshare : ∀ i∈honest, (∑ x ∈ items with i ∈ behind x, cost x)*(all.card-t+1 : ℤ) ≤ pot) :
    ∑ x ∈ items, cost x ≤ pot := by
  rcases items.eq_empty_or_nonempty with rfl | ⟨x₀,hx₀⟩
  · simpa using hpot
  -- `a` honest members at least stand behind each item
  set a : ℤ := t-(all \ honest).card with ha
  set parts : ℤ := all.card-t+1 with hparts
  set sum := ∑ x ∈ items, cost x with hsum
  have hle : t ≤ all.card := (hquorum x₀ hx₀).trans (card_le_card (hall x₀ hx₀))
  have hcard : (honest.card : ℤ) = a+parts-1 := by
    have := card_sdiff_add_card_eq_card hhonest
    omega
  have hnonneg : 0 ≤ sum := sum_nonneg hcost
  have hcount : a*sum ≤ ∑ i ∈ honest, ∑ x ∈ items with i ∈ behind x, cost x := by
    rw [sum_agreed,hsum,mul_sum]
    apply sum_le_sum
    intro x hx
    have hmost := honest_behind honest (hall x hx)
    have := hquorum x hx
    exact mul_le_mul_of_nonneg_right (by omega) (hcost x hx)
  have hagreed : (∑ i ∈ honest, ∑ x ∈ items with i ∈ behind x, cost x)*parts ≤ honest.card*pot := by
    rw [sum_mul,← nsmul_eq_mul]
    exact sum_le_card_nsmul _ _ _ hshare
  have hmembers : a+parts-1 ≤ a*parts := members_le (by omega) (by omega)
  have hpos : 0 < (honest.card : ℤ) := by omega
  have hbound : honest.card*sum ≤ honest.card*pot :=
    calc honest.card*sum ≤ a*parts*sum :=
          mul_le_mul_of_nonneg_right (hcard ▸ hmembers) hnonneg
      _ = a*sum*parts := by ring
      _ ≤ (∑ i ∈ honest, ∑ x ∈ items with i ∈ behind x, cost x)*parts :=
          mul_le_mul_of_nonneg_right hcount (by omega)
      _ ≤ honest.card*pot := hagreed
  exact le_of_mul_le_mul_left hbound hpos

end DogePeg.Shares
