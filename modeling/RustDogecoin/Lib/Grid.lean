import Mathlib.Data.Nat.Size
import Mathlib.Order.Monotone.Basic
import Mathlib.Algebra.Group.Nat.Defs

/-!
# Rounding down to a floating grid

A grid gives every number the unit in which numbers of its magnitude are kept.  Rounding down to
the unit is monotone and idempotent as soon as larger numbers have coarser units and rounding stays
inside the range of its unit.
-/

structure Grid where
  unit : ℕ → ℕ
  unit_dvd {m n : ℕ} (h : m ≤ n) : unit m ∣ unit n
  unit_floor (n : ℕ) : unit (n / unit n * unit n) = unit n

namespace Grid

variable (g : Grid)

/-- The greatest multiple of the unit of `n` that is at most `n`. -/
def floor (n : ℕ) : ℕ := n / g.unit n * g.unit n

theorem floor_le (n : ℕ) : g.floor n ≤ n := Nat.div_mul_le_self n (g.unit n)

theorem floor_of_unit_dvd {n : ℕ} (h : g.unit n ∣ n) : g.floor n = n := Nat.div_mul_cancel h

theorem unit_dvd_floor (n : ℕ) : g.unit (g.floor n) ∣ g.floor n := by
  unfold floor
  rw [g.unit_floor n]
  exact Nat.dvd_mul_left _ _

theorem floor_mono : Monotone g.floor := by
  intro m n h
  by_cases hm : m ≤ g.floor n
  · exact (g.floor_le m).trans hm
  · -- no multiple of the unit of `n` separates the two numbers, which then have the same unit
    have hunit : g.unit m = g.unit n := by
      apply Nat.dvd_antisymm (g.unit_dvd h)
      rw [← g.unit_floor n]
      exact g.unit_dvd (Nat.le_of_not_le hm)
    unfold floor
    rw [hunit]
    exact Nat.mul_le_mul_right _ (Nat.div_le_div_right h)

/-! ## Binary grids -/

theorem size_div_mul {n k : ℕ} (hk : k < n.size) : (n / 2 ^ k * 2 ^ k).size = n.size := by
  apply Nat.le_antisymm
  · exact Nat.size_le_size (Nat.div_mul_le_self n _)
  · have hpred : n.size - 1 < n.size := by omega
    have hsplit : 2 ^ (n.size - 1) = 2 ^ (n.size - 1 - k) * 2 ^ k := by
      rw [← Nat.pow_add]
      congr 1
      omega
    have htop : 2 ^ (n.size - 1) ≤ n := Nat.lt_size.mp hpred
    have hdiv : 2 ^ (n.size - 1 - k) ≤ n / 2 ^ k := by
      rw [Nat.le_div_iff_mul_le (Nat.two_pow_pos k), ← hsplit]
      exact htop
    have hlt : n.size - 1 < (n / 2 ^ k * 2 ^ k).size := by
      rw [Nat.lt_size, hsplit]
      exact Nat.mul_le_mul_right _ hdiv
    omega

/-- Numbers are kept to their leading digits of `w` bits; those below `2 ^ (w * (p + 1))` are kept
whole. -/
def floating (w p : ℕ) (hw : 0 < w) (hp : 0 < p) : Grid where
  unit n := 2 ^ (w * (n.size / w - p))
  unit_dvd h := by
    apply Nat.pow_dvd_pow
    exact Nat.mul_le_mul_left w (Nat.sub_le_sub_right (Nat.div_le_div_right (Nat.size_le_size h)) p)
  unit_floor n := by
    by_cases hn : n.size / w ≤ p
    · rw [Nat.sub_eq_zero_of_le hn]
      simp [Nat.sub_eq_zero_of_le hn]
    · have hlt : w * (n.size / w - p) < n.size := by
        calc w * (n.size / w - p) < w * (n.size / w) := Nat.mul_lt_mul_of_pos_left (by omega) hw
          _ ≤ n.size := Nat.mul_div_le _ _
      rw [size_div_mul hlt]

end Grid
