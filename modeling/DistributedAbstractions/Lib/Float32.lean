import Mathlib.Data.Nat.Log
import Mathlib.Tactic.Ring

/-! Conversion of a natural number to single precision: 24 significant bits, to
nearest, ties to even. The result is again a natural number. -/

namespace CLib

/-- Distance of the single precision numbers around `n`. -/
def ulp (n : ℕ) : ℕ := 2 ^ (Nat.log2 n - 23)

def toFloat (n : ℕ) : ℕ :=
  if 2 * (n % ulp n) < ulp n ∨ 2 * (n % ulp n) = ulp n ∧ n / ulp n % 2 = 0 then
    n / ulp n * ulp n
  else (n / ulp n + 1) * ulp n

theorem ulp_pos (n : ℕ) : 0 < ulp n := Nat.two_pow_pos _

theorem toFloat_of_dvd {n : ℕ} (h : ulp n ∣ n) : toFloat n = n := by
  have hm : n % ulp n = 0 := Nat.mod_eq_zero_of_dvd h
  rw [toFloat, if_pos (by left; rw [hm]; exact ulp_pos n), Nat.div_mul_cancel h]

/-- Every `n` up to `2 ^ 24` is exact. -/
theorem toFloat_of_le {n : ℕ} (h : n ≤ 2 ^ 24) : toFloat n = n := by
  rcases Nat.lt_or_eq_of_le h with hlt | rfl
  · apply toFloat_of_dvd
    have hlog : Nat.log2 n ≤ 23 := by
      by_cases h0 : n = 0
      · subst h0; decide
      · exact Nat.le_of_lt_succ ((Nat.log2_lt h0).mpr hlt)
    rw [ulp, Nat.sub_eq_zero_of_le hlog, pow_zero]
    exact one_dvd n
  · decide

theorem two_mul_ulp_le {n : ℕ} (h : 2 ^ 24 < n) : 2 * ulp n ≤ n := by
  have h0 : n ≠ 0 := by omega
  have hlog : 24 ≤ Nat.log2 n := (Nat.le_log2 h0).mpr h.le
  calc 2 * ulp n = 2 ^ (Nat.log2 n - 23 + 1) := by rw [ulp, pow_succ]; ring
    _ ≤ 2 ^ Nat.log2 n := Nat.pow_le_pow_right (by omega) (by omega)
    _ ≤ n := Nat.log2_self_le h0

theorem ulp_dvd_toFloat (n : ℕ) : ulp n ∣ toFloat n := by
  unfold toFloat
  split_ifs <;> exact Dvd.intro_left _ rfl

/-- Beyond `2 ^ 24` only even numbers are single precision numbers. -/
theorem two_dvd_toFloat {n : ℕ} (h : 2 ^ 24 < n) : 2 ∣ toFloat n := by
  have hlog : 24 ≤ Nat.log2 n := (Nat.le_log2 (by omega)).mpr h.le
  have hu : 2 ∣ ulp n := dvd_pow_self 2 (by omega)
  exact hu.trans (ulp_dvd_toFloat n)

/-- Rounding never loses more than half of the number. -/
theorem le_two_mul_toFloat (n : ℕ) : n ≤ 2 * toFloat n := by
  by_cases h : n ≤ 2 ^ 24
  · rw [toFloat_of_le h]; omega
  · have hu := two_mul_ulp_le (Nat.lt_of_not_le h)
    have hm := Nat.mod_lt n (ulp_pos n)
    have hdiv : n / ulp n * ulp n + n % ulp n = n := Nat.div_add_mod' n (ulp n)
    have hle : n / ulp n * ulp n ≤ toFloat n := by
      unfold toFloat
      split_ifs
      · exact le_rfl
      · exact Nat.mul_le_mul_right _ (Nat.le_succ _)
    omega

end CLib
