import Mathlib.Algebra.BigOperators.Group.List.Basic
import Mathlib.Algebra.Order.BigOperators.Group.List
import Mathlib.Algebra.Order.Ring.Int
import Mathlib.Tactic.Linarith

/-! # Machine sums and the exact sums behind them

A Go program adds amounts in `int64`, which wraps. These are the facts that let a
guard on the wrapped total speak about the exact one. -/

namespace DogePeg.Amounts

open List Int64

variable {vs : List Int64} {a b : Int64}

/-- The exact total of a list of machine integers. -/
def exact (vs : List Int64) : ℤ := (vs.map Int64.toInt).sum

/-- The loop `total += v`, started at zero. -/
def total (vs : List Int64) : Int64 := vs.foldl (· + ·) 0

@[simp] theorem exact_nil : exact [] = 0 := rfl

@[simp] theorem exact_cons (v : Int64) (vs : List Int64) : exact (v::vs) = v.toInt+exact vs := rfl

theorem exact_append (vs ws : List Int64) : exact (vs++ws) = exact vs+exact ws := by
  simp [exact]

theorem exact_nonneg (h : ∀ v∈vs, 0 ≤ v.toInt) : 0 ≤ exact vs := by
  apply sum_nonneg
  intro x hx
  obtain ⟨v,hv,rfl⟩ := mem_map.mp hx
  exact h v hv

theorem nonneg_iff : 0 ≤ a ↔ 0 ≤ a.toInt := le_iff_toInt_le

theorem pos_iff : 0 < a ↔ 0 < a.toInt := lt_iff_toInt_lt

theorem toInt_add_of_bounds (hlo : -2^63≤a.toInt+b.toInt)
    (hhi : a.toInt+b.toInt<2^63) : (a+b).toInt = a.toInt+b.toInt := by
  rw [toInt_add]
  apply Int.bmod_eq_of_le <;> norm_num <;> omega

theorem toInt_add_or_neg (ha : 0≤a.toInt) (hb : 0≤b.toInt) : (a+b).toInt = a.toInt+b.toInt ∨ (a+b).toInt < 0 := by
  have hla := a.toInt_lt
  have hlb := b.toInt_lt
  by_cases h : a.toInt+b.toInt < 2^63
  · exact .inl (toInt_add_of_bounds (by omega) h)
  · right
    rw [toInt_add,Int.bmod_def]
    split <;> omega

theorem toInt_add_of_nonneg (ha : 0≤a.toInt) (hb : 0≤b.toInt)
    (h : 0≤(a+b).toInt) : (a+b).toInt = a.toInt+b.toInt := by
  rcases toInt_add_or_neg ha hb with h' | h'
  · exact h'
  · omega

/-- The test `total < last` finds every overflow of a sum of amounts. -/
theorem toInt_add_of_not_lt (ha : 0≤a.toInt) (hb : 0≤b.toInt) (h : ¬ a+b<a) : (a+b).toInt = a.toInt+b.toInt := by
  apply toInt_add_of_nonneg ha hb
  rw [lt_iff_toInt_lt] at h
  omega

theorem toInt_sub_of_bounds (hlo : -2^63≤a.toInt-b.toInt)
    (hhi : a.toInt-b.toInt<2^63) : (a-b).toInt = a.toInt-b.toInt := by
  rw [toInt_sub]
  apply Int.bmod_eq_of_le <;> norm_num <;> omega

theorem toInt_sub_of_le (hb : 0≤b.toInt) (h : b.toInt≤a.toInt) : (a-b).toInt = a.toInt-b.toInt := by
  have ha := a.toInt_lt
  exact toInt_sub_of_bounds (by omega) (by omega)

private theorem toInt_foldl_add (vs : List Int64) (acc : Int64) (hacc : 0≤acc.toInt)
    (hvs : ∀ v∈vs, 0 ≤ v.toInt) (h : acc.toInt+exact vs<2^63) :
    (vs.foldl (· + ·) acc).toInt = acc.toInt+exact vs := by
  induction vs generalizing acc with
  | nil => simp
  | cons v vs ih =>
    have hv := hvs v (by simp)
    have hrest := exact_nonneg fun w hw => hvs w (mem_cons_of_mem _ hw)
    rw [exact_cons] at h ⊢
    have hadd : (acc+v).toInt = acc.toInt+v.toInt := toInt_add_of_bounds (by omega) (by omega)
    rw [foldl_cons,ih (acc+v) (by omega) (fun w hw => hvs w (mem_cons_of_mem _ hw)) (by omega),hadd]
    omega

theorem toInt_total (hvs : ∀ v∈vs, 0 ≤ v.toInt) (h : exact vs<2^63) : (total vs).toInt = exact vs := by
  have h0 := toInt_foldl_add vs 0 (by simp) hvs (by simpa using h)
  simpa [total] using h0

theorem exact_take_le (hvs : ∀ v∈vs, 0 ≤ v.toInt) (k : ℕ) : exact (vs.take k) ≤ exact vs := by
  have hdrop : 0 ≤ exact (vs.drop k) := exact_nonneg fun v hv => hvs v (mem_of_mem_drop hv)
  have happ := exact_append (vs.take k) (vs.drop k)
  rw [take_append_drop] at happ
  omega

/-- The accumulator is exact after every step of the loop, not only at its end. -/
theorem toInt_total_take (hvs : ∀ v∈vs, 0 ≤ v.toInt) (h : exact vs<2^63)
    (k : ℕ) : (total (vs.take k)).toInt = exact (vs.take k) :=
  toInt_total (fun v hv => hvs v (mem_of_mem_take hv)) (lt_of_le_of_lt (exact_take_le hvs k) h)

theorem toInt_div_of_nonneg (ha : 0≤a.toInt) (hb : 0<b.toInt) : (a / b).toInt = a.toInt / b.toInt := by
  have hlt := a.toInt_lt
  have hq : 0 ≤ a.toInt / b.toInt := Int.ediv_nonneg ha hb.le
  have hle : a.toInt / b.toInt ≤ a.toInt := Int.ediv_le_self _ ha
  rw [toInt_div,Int.tdiv_eq_ediv_of_nonneg ha]
  apply Int.bmod_eq_of_le <;> norm_num <;> omega

theorem toInt_div_bounds (ha : 0≤a.toInt) (hb : 0<b.toInt) :
    0 ≤ (a / b).toInt ∧ (a / b).toInt*b.toInt ≤ a.toInt := by
  rw [toInt_div_of_nonneg ha hb]
  exact ⟨Int.ediv_nonneg ha hb.le,Int.ediv_mul_le _ hb.ne'⟩

theorem toInt_max (a b : Int64) : (max a b).toInt = max a.toInt b.toInt := by
  have hmax : max a b = if a ≤ b then b else a := rfl
  rw [hmax]
  split
  · next h => rw [max_eq_right (le_iff_toInt_le.mp h)]
  · next h =>
    rw [le_iff_toInt_le,not_le] at h
    rw [max_eq_left h.le]

theorem acc_le_foldl_max (vs : List Int64) (acc : Int64) : acc.toInt ≤ (vs.foldl max acc).toInt := by
  induction vs generalizing acc with
  | nil => exact le_rfl
  | cons v vs ih =>
    have hmax : acc.toInt ≤ (max acc v).toInt := by
      rw [toInt_max]
      exact le_max_left _ _
    exact hmax.trans (ih _)

theorem foldl_max_nonneg {acc : Int64} (h : 0≤acc.toInt) :
    0 ≤ (vs.foldl max acc).toInt := h.trans (acc_le_foldl_max vs acc)

theorem toInt_le_foldl_max {acc v : Int64} (hv : v∈vs) : v.toInt ≤ (vs.foldl max acc).toInt := by
  induction vs generalizing acc with
  | nil => cases hv
  | cons w vs ih =>
    rw [foldl_cons]
    rcases mem_cons.mp hv with rfl | hmem
    · refine le_trans ?_ (acc_le_foldl_max vs _)
      rw [toInt_max]
      exact le_max_right _ _
    · exact ih hmem

theorem exact_filter_le {α : Type*} {f : α → Int64} {l : List α} (hl : ∀ a∈l, 0 ≤ (f a).toInt)
    (p : α → Bool) : exact ((l.filter p).map f) ≤ exact (l.map f) := by
  induction l with
  | nil => simp
  | cons a l ih =>
    have ha := hl a (mem_cons_self ..)
    have hrest := ih fun b hb => hl b (mem_cons_of_mem _ hb)
    cases hp : p a with
    | true => simpa [hp] using hrest
    | false =>
      simp only [filter_cons,hp,Bool.false_eq_true,if_false,map_cons,exact_cons]
      omega

theorem exact_perm {ws : List Int64} (h : vs.Perm ws) : exact vs = exact ws := (h.map Int64.toInt).sum_eq

end DogePeg.Amounts
