import Mathlib.Algebra.Order.Field.Power
import Mathlib.Data.Rat.Lemmas
import Mathlib.Tactic.Linarith
import Mathlib.Tactic.Ring

/-!
# Rounding to nearest, ties to even

`roundEven s n` is `n / 2 ^ s` rounded to the nearest integer, and to the even one of two that are equally near.
`NearestEven p x m k` says that `m * 2 ^ k` has a significand of `p` bits and is the number of this kind that `x`
is rounded to.  A number of `p + s` bits is rounded to `roundEven s n * 2 ^ s` (`nearestEven_roundEven`).
-/

/-- `n / 2 ^ s`, rounded to the nearest integer and to the even one of two. -/
def roundEven (s n : ℕ) : ℕ :=
  n / 2 ^ s + if 2 ^ s < 2 * (n % 2 ^ s) ∨ 2 * (n % 2 ^ s) = 2 ^ s ∧ n / 2 ^ s % 2 = 1 then 1 else 0

/-- `m * 2 ^ k` is a nearest number to `x` among those with significands of `p` bits, and the even one of two. -/
structure NearestEven (p : ℕ) (x : ℚ) (m : ℕ) (k : ℤ) : Prop where
  le : 2 ^ (p - 1) ≤ m
  lt : m < 2 ^ p
  nearest : ∀ (m' : ℕ) (k' : ℤ), m' < 2 ^ p → |m * 2 ^ k - x| ≤ |m' * 2 ^ k' - x|
  even : ∀ (m' : ℕ) (k' : ℤ), m' < 2 ^ p → (m' * 2 ^ k' : ℚ) ≠ m * 2 ^ k →
    |m' * 2 ^ k' - x| = |m * 2 ^ k - x| → Even m

/-! ## Among the multiples -/

theorem roundEven_cases (s n : ℕ) :
    (roundEven s n = n / 2 ^ s ∧ (2 * (n % 2 ^ s) < 2 ^ s ∨ 2 * (n % 2 ^ s) = 2 ^ s ∧ n / 2 ^ s % 2 = 0)) ∨
      (roundEven s n = n / 2 ^ s + 1 ∧
        (2 ^ s < 2 * (n % 2 ^ s) ∨ 2 * (n % 2 ^ s) = 2 ^ s ∧ n / 2 ^ s % 2 = 1)) := by
  unfold roundEven
  split_ifs with h
  · exact .inr ⟨rfl, h⟩
  · exact .inl ⟨rfl, by omega⟩

/-- Where the multiples of `P` are, seen from `a * P`. -/
theorem mul_cases (j a : ℤ) {P : ℤ} (hP : 0 ≤ P) :
    (j = a ∧ j * P = a * P) ∨ (j < a ∧ j * P ≤ a * P - P) ∨ (j = a + 1 ∧ j * P = a * P + P) ∨
      (a + 1 < j ∧ a * P + 2 * P ≤ j * P) := by
  rcases lt_trichotomy j a with hj | rfl | hj
  · have hmul := mul_le_mul_of_nonneg_right (Int.le_sub_one_of_lt hj) hP
    exact .inr (.inl ⟨hj, by linarith⟩)
  · exact .inl ⟨rfl, rfl⟩
  · rcases eq_or_lt_of_le (Int.add_one_le_of_lt hj) with rfl | hj'
    · exact .inr (.inr (.inl ⟨rfl, by ring⟩))
    · have hmul := mul_le_mul_of_nonneg_right (Int.add_one_le_of_lt hj') hP
      exact .inr (.inr (.inr ⟨hj', by linarith⟩))

/-- No multiple of `2 ^ s` is nearer to `n`, and of two that are equally near it is the even one. -/
theorem roundEven_nearest (s n : ℕ) (j : ℤ) :
    |(roundEven s n : ℤ) * 2 ^ s - n| ≤ |j * 2 ^ s - n| ∧
      (j ≠ roundEven s n → |j * 2 ^ s - n| = |(roundEven s n : ℤ) * 2 ^ s - n| → Even (roundEven s n)) := by
  have hdiv : ((n / 2 ^ s : ℕ) : ℤ) * (2 ^ s : ℕ) + (n % 2 ^ s : ℕ) = n := by
    exact_mod_cast Nat.div_add_mod' n (2 ^ s)
  have hlt := Nat.mod_lt n (Nat.two_pow_pos s)
  have hcases := roundEven_cases s n
  have hj := mul_cases j (n / 2 ^ s : ℕ) (Int.natCast_nonneg (2 ^ s))
  have hq := mul_cases (roundEven s n) (n / 2 ^ s : ℕ) (Int.natCast_nonneg (2 ^ s))
  have hpow : (2 : ℤ) ^ s = ((2 ^ s : ℕ) : ℤ) := by push_cast; rfl
  rw [hpow, Nat.even_iff]
  generalize n / 2 ^ s = a at *
  generalize n % 2 ^ s = r at *
  generalize roundEven s n = q at *
  generalize 2 ^ s = P at *
  generalize (j * (P : ℤ)) = y at *
  generalize ((q : ℤ) * (P : ℤ)) = z at *
  generalize ((a : ℤ) * (P : ℤ)) = w at *
  rcases abs_cases (z - n) with ⟨hz, hz'⟩ | ⟨hz, hz'⟩ <;> rcases abs_cases (y - n) with ⟨hy, hy'⟩ | ⟨hy, hy'⟩ <;>
    rw [hz, hy] <;> constructor <;> omega

/-! ## Among the numbers with `p` bits -/

/-- A number with a smaller unit in the last place is below the numbers of `p + s` bits. -/
theorem mul_zpow_lt {p s m' : ℕ} {k' : ℤ} (hp : 0 < p) (hm' : m' < 2 ^ p) (hk' : k' < s) :
    (m' * 2 ^ k' : ℚ) < 2 ^ (p - 1) * 2 ^ s := by
  have hunit : (2 : ℚ) ^ k' ≤ 2 ^ ((s : ℤ) - 1) := zpow_le_zpow_right₀ (by norm_num) (by omega)
  have hm : (m' : ℚ) < 2 ^ p := by exact_mod_cast hm'
  have hsplit : (2 : ℚ) ^ p * 2 ^ ((s : ℤ) - 1) = 2 ^ (p - 1) * 2 ^ s := by
    obtain ⟨p, rfl⟩ := Nat.exists_eq_add_of_lt hp
    rw [zpow_sub₀ (by norm_num), zpow_natCast, zpow_one]
    simp only [Nat.zero_add, Nat.add_sub_cancel, pow_succ]
    ring
  calc (m' * 2 ^ k' : ℚ) ≤ m' * 2 ^ ((s : ℤ) - 1) := mul_le_mul_of_nonneg_left hunit (Nat.cast_nonneg _)
    _ < 2 ^ p * 2 ^ ((s : ℤ) - 1) := mul_lt_mul_of_pos_right hm (zpow_pos (by norm_num) _)
    _ = 2 ^ (p - 1) * 2 ^ s := hsplit

/-- The rounded number is nearest, and even if another one is as near. -/
theorem roundEven_nearest_format {p s n : ℕ} (hp : 0 < p) (hn : 2 ^ (p - 1) * 2 ^ s ≤ n) {m' : ℕ} (hm' : m' < 2 ^ p)
    (k' : ℤ) :
    |(roundEven s n * 2 ^ s - n : ℚ)| ≤ |(m' * 2 ^ k' - n : ℚ)| ∧
      ((m' * 2 ^ k' : ℚ) ≠ roundEven s n * 2 ^ s →
        |(m' * 2 ^ k' - n : ℚ)| = |(roundEven s n * 2 ^ s - n : ℚ)| → Even (roundEven s n)) := by
  rcases lt_or_ge k' s with hk' | hk'
  · -- such a number is below `n` and farther than the least of `p + s` bits
    have hlt := mul_zpow_lt hp hm' hk'
    have hn' : (2 ^ (p - 1) * 2 ^ s : ℚ) ≤ n := by exact_mod_cast hn
    have hleast : |(roundEven s n * 2 ^ s - n : ℚ)| ≤ |(2 ^ (p - 1) * 2 ^ s - n : ℚ)| := by
      exact_mod_cast (roundEven_nearest s n (2 ^ (p - 1))).1
    have hfar : |(2 ^ (p - 1) * 2 ^ s - n : ℚ)| < |(m' * 2 ^ k' - n : ℚ)| := by
      rw [abs_of_nonpos (by linarith), abs_of_neg (by linarith)]
      linarith
    exact ⟨(hleast.trans_lt hfar).le, fun _ heq => absurd heq (hleast.trans_lt hfar).ne'⟩
  · -- such a number is a multiple of `2 ^ s`
    obtain ⟨t, ht⟩ := Int.eq_ofNat_of_zero_le (sub_nonneg.2 hk')
    obtain rfl : k' = s + t := by omega
    have hmul : (m' * 2 ^ ((s : ℤ) + t) : ℚ) = ((m' * 2 ^ t : ℕ) : ℤ) * 2 ^ s := by
      rw [zpow_add₀ (by norm_num), zpow_natCast, zpow_natCast]
      push_cast
      ring
    have hnear := roundEven_nearest s n ((m' * 2 ^ t : ℕ) : ℤ)
    rw [hmul]
    constructor
    · exact_mod_cast hnear.1
    · intro hne heq
      refine hnear.2 ?_ (by exact_mod_cast heq)
      intro hj
      exact hne (by rw [hj]; push_cast; rfl)

/-- What is nearest to `n` is so when both are scaled by a power of two. -/
theorem nearestEven_of_scaled {p s n m : ℕ} {c k : ℤ} (hp : 0 < p) (hn : 2 ^ (p - 1) * 2 ^ s ≤ n)
    (hle : 2 ^ (p - 1) ≤ m) (hlt : m < 2 ^ p) (hvalue : (m * 2 ^ k : ℚ) = roundEven s n * 2 ^ s * 2 ^ c)
    (heven : Even (roundEven s n) → Even m) : NearestEven p (n * 2 ^ c) m k := by
  have hc : (0 : ℚ) < 2 ^ c := zpow_pos (by norm_num) c
  have hscale (y : ℚ) : |y * 2 ^ c - n * 2 ^ c| = |y - n| * 2 ^ c := by
    rw [← sub_mul, abs_mul, abs_of_pos hc]
  have hother (m' : ℕ) (k' : ℤ) : (m' * 2 ^ k' : ℚ) = m' * 2 ^ (k' - c) * 2 ^ c := by
    rw [mul_assoc, ← zpow_add₀ (by norm_num), sub_add_cancel]
  refine ⟨hle, hlt, fun m' k' hm' => ?_, fun m' k' hm' hne heq => ?_⟩
  · rw [hvalue, hother m' k', hscale, hscale]
    exact mul_le_mul_of_nonneg_right (roundEven_nearest_format hp hn hm' (k' - c)).1 hc.le
  · rw [hvalue, hother m' k', hscale, hscale] at heq
    refine heven ((roundEven_nearest_format hp hn hm' (k' - c)).2 ?_ (mul_right_cancel₀ hc.ne' heq))
    intro hsame
    exact hne (by rw [hvalue, hother m' k', hsame])

theorem roundEven_bounds {p s n : ℕ} (hn : 2 ^ (p - 1) * 2 ^ s ≤ n) (hn' : n < 2 ^ p * 2 ^ s) :
    2 ^ (p - 1) ≤ roundEven s n ∧ roundEven s n ≤ 2 ^ p := by
  have hlow : 2 ^ (p - 1) ≤ n / 2 ^ s := (Nat.le_div_iff_mul_le (Nat.two_pow_pos s)).2 hn
  have hhigh : n / 2 ^ s < 2 ^ p := (Nat.div_lt_iff_lt_mul (Nat.two_pow_pos s)).2 hn'
  have hcases := roundEven_cases s n
  omega

/-- A number of `p + s` bits is rounded to `p` of them. -/
theorem nearestEven_roundEven {p s n : ℕ} (c : ℤ) (hp : 0 < p) (hn : 2 ^ (p - 1) * 2 ^ s ≤ n)
    (hn' : n < 2 ^ p * 2 ^ s) (hlt : roundEven s n < 2 ^ p) :
    NearestEven p (n * 2 ^ c) (roundEven s n) (s + c) :=
  nearestEven_of_scaled hp hn (roundEven_bounds hn hn').1 hlt
    (by rw [zpow_add₀ (by norm_num), zpow_natCast, mul_assoc]) id

/-- The significand may overflow into one more bit. -/
theorem nearestEven_of_roundEven_eq {p s n : ℕ} (c : ℤ) (hp : 1 < p) (hn : 2 ^ (p - 1) * 2 ^ s ≤ n)
    (hround : roundEven s n = 2 ^ p) : NearestEven p (n * 2 ^ c) (2 ^ (p - 1)) (s + c + 1) := by
  obtain ⟨p, rfl⟩ := Nat.exists_eq_add_of_lt hp
  refine nearestEven_of_scaled (by omega) hn le_rfl (Nat.pow_lt_pow_right (by decide) (by omega)) ?_ fun _ => ?_
  · rw [hround, zpow_add₀ (by norm_num), zpow_add₀ (by norm_num), zpow_natCast, zpow_one]
    simp only [Nat.add_sub_cancel]
    push_cast
    ring
  · exact Nat.even_pow.2 ⟨even_two, by omega⟩
