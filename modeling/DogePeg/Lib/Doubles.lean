import Mathlib.Data.Nat.Log
import Mathlib.Tactic.Ring

/-!
# Doubles

Numbers rounded to the nearest double, and how far that moves them. A double is counted in units of
the least one. Below `2 ^ 1024` this is IEEE's rounding; beyond, there is no double to round to.
-/

namespace DogePeg.Doubles

variable {p q n : ℕ}

/-- The least double is `2 ^ -1074`. -/
def leastExponent : ℕ := 1074

/-- How many of the least doubles make one. -/
def scale : ℕ := 2^leastExponent

/-- `p / q` to the nearest integer; of two, to the even one. -/
def roundDiv (p q : ℕ) : ℕ :=
  if 2*(p % q) < q ∨ 2*(p % q) = q ∧ p / q % 2 = 0 then p / q else p / q+1

/-- How far apart the doubles around `p / q` are. -/
def spacing (p q : ℕ) : ℕ := 2^((p*scale / q).log2-52)

/-- The double nearest to `p / q`; of two, the one with the even significand. -/
def toDouble (p q : ℕ) : ℕ := roundDiv (p*scale) (q*spacing p q)*spacing p q

theorem roundDiv_bounds (p : ℕ) (hq : 0<q) : 2*p ≤ 2*(roundDiv p q*q)+q ∧ 2*(roundDiv p q*q) ≤ 2*p+q := by
  have hsplit := Nat.div_add_mod' p q
  have hlt := Nat.mod_lt p hq
  unfold roundDiv
  split
  · omega
  · rw [Nat.add_mul,Nat.one_mul]
    omega

theorem scale_pos : 0 < scale := Nat.two_pow_pos _

theorem spacing_pos (p q : ℕ) : 0 < spacing p q := Nat.two_pow_pos _

/-- What is no smaller than the least normal double moves by at most one part in `2 ^ 53`. -/
theorem toDouble_bounds (hq : 0<q) (h : q*2^52≤p*scale) : 2^53*(p*scale) ≤ 2^53*(toDouble p q*q)+p*scale ∧
      2^53*(toDouble p q*q) ≤ 2^53*(p*scale)+p*scale := by
  have hbig : 2^52 ≤ p*scale / q := (Nat.le_div_iff_mul_le hq).mpr (by rwa [Nat.mul_comm])
  have hne : p*scale / q ≠ 0 := by omega
  have hlog : 52 ≤ (p*scale / q).log2 := (Nat.le_log2 hne).mpr hbig
  have hspacing : q*spacing p q*2^52 ≤ p*scale := by
    rw [Nat.mul_assoc,spacing,← Nat.pow_add,Nat.sub_add_cancel hlog,Nat.mul_comm]
    exact (Nat.le_div_iff_mul_le hq).mp (Nat.log2_self_le hne)
  have hround := roundDiv_bounds (p*scale) (Nat.mul_pos hq (spacing_pos p q))
  have hdouble : roundDiv (p*scale) (q*spacing p q)*(q*spacing p q) = toDouble p q*q := by
    unfold toDouble
    ring
  rw [hdouble] at hround
  omega

theorem toDouble_of_dvd (hq : 0<q) (h : q*spacing p q ∣ p*scale) : toDouble p q*q = p*scale := by
  have hround : roundDiv (p*scale) (q*spacing p q) = p*scale / (q*spacing p q) := by
    rw [roundDiv,Nat.mod_eq_zero_of_dvd h,if_pos (.inl (Nat.mul_pos hq (spacing_pos p q)))]
  rw [toDouble,hround,Nat.mul_assoc,Nat.mul_comm (spacing p q),Nat.div_mul_cancel h]

/-- The integers a significand holds are doubles. -/
theorem toDouble_one (h : n<2^53) : toDouble n 1 = n*scale := by
  have hdvd : 1*spacing n 1 ∣ n*scale := by
    rw [Nat.one_mul,spacing,Nat.div_one]
    refine Nat.dvd_mul_left_of_dvd (Nat.pow_dvd_pow 2 ?_) n
    rcases Nat.eq_zero_or_pos n with rfl | hpos
    · simp
    · have hlt : n*scale < 2^(53+leastExponent) := by
        rw [Nat.pow_add,← scale]
        exact Nat.mul_lt_mul_of_pos_right h scale_pos
      have := (Nat.log2_lt (Nat.mul_pos hpos scale_pos).ne').mpr hlt
      omega
  rw [← toDouble_of_dvd Nat.one_pos hdvd,Nat.mul_one]

end DogePeg.Doubles
