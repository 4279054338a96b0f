import RustDogecoin.Pow.U256
import Mathlib.Data.Nat.ModEq
import Mathlib.Data.Nat.Prime.Basic
import Mathlib.Data.BitVec

/-!
# Where multiplication is exact

The last of the four partial products of `overflowing_mul` is added without its shift by 192 bits,
and the carries of the other three are dropped.  The exact condition under which the result and the
flag are those of the product says when neither shows.
-/

namespace RustDogecoin

namespace U256

variable {ε : Type}

/-- The wrapped product, a flag that tells whether it was wrapped, and an operator that is exact
whenever the product fits. -/
def MulIsExact (a b : U256) : Prop :=
  (overflowingMul a b).1.toNat = a.toNat * b.toNat % 2 ^ 256 ∧
    ((overflowingMul a b).2 = true ↔ 2 ^ 256 ≤ a.toNat * b.toNat) ∧
    (a.toNat * b.toNat < 2 ^ 256 →
      ∃ r, mul a b = (.ok r : Outcome Empty U256) ∧ r.toNat = a.toNat * b.toNat)

/-- The product with the top word of `b`. -/
def topProduct (a b : U256) : ℕ := a.toNat * (b.toNat / 2 ^ 192)

theorem product_split (a b : U256) :
    a.toNat * b.toNat = a.toNat * (b.toNat % 2 ^ 192) + topProduct a b * 2 ^ 192 := by
  have hb : b.toNat = b.toNat % 2 ^ 192 + b.toNat / 2 ^ 192 * 2 ^ 192 := by omega
  rw [topProduct, Nat.mul_assoc, ← Nat.mul_add, ← hb]

/-- Leaving the shift out is harmless exactly when the top product wraps to zero, as
`2 ^ 192 - 1` is odd. -/
theorem unshifted_mod_iff (m h : ℕ) :
    (m + h) % 2 ^ 256 = (m + h * 2 ^ 192) % 2 ^ 256 ↔ 2 ^ 256 ∣ h := by
  have hodd : Odd (2 ^ 192 - 1) := ⟨2 ^ 191 - 1, by norm_num⟩
  have hcoprime : Nat.Coprime (2 ^ 256) (2 ^ 192 - 1) :=
    Nat.Coprime.pow_left 256 (Nat.coprime_two_left.mpr hodd)
  have hle : m + h ≤ m + h * 2 ^ 192 :=
    Nat.add_le_add_left (Nat.le_mul_of_pos_right h (Nat.two_pow_pos 192)) m
  have hdiff : m + h * 2 ^ 192 - (m + h) = h * (2 ^ 192 - 1) := by
    rw [Nat.add_sub_add_left, Nat.mul_sub_one]
  constructor
  · intro heq
    have hdvd : 2 ^ 256 ∣ h * (2 ^ 192 - 1) := by
      rw [← hdiff]
      exact (Nat.modEq_iff_dvd' hle).mp heq
    exact hcoprime.dvd_of_dvd_mul_right hdvd
  · intro hdvd
    apply (Nat.modEq_iff_dvd' hle).mpr
    rw [hdiff]
    exact Nat.dvd_mul_right_of_dvd hdvd _

theorem mul_ok_of_exact {a b : U256}
    (hval : (overflowingMul a b).1.toNat = a.toNat * b.toNat % 2 ^ 256)
    (hflag : (overflowingMul a b).2 = true ↔ 2 ^ 256 ≤ a.toNat * b.toNat)
    (hfit : a.toNat * b.toNat < 2 ^ 256) :
    ∃ r, mul a b = (.ok r : Outcome ε U256) ∧ r.toNat = a.toNat * b.toNat := by
  have hno : (overflowingMul a b).2 = false := by
    rw [← Bool.not_eq_true, hflag]
    omega
  unfold mul
  rw [Outcome.require_of hno]
  exact ⟨_, rfl, by rw [hval, Nat.mod_eq_of_lt hfit]⟩

/-- The product is exact iff the top product wraps to zero and, where it is zero itself, the whole
product fits. -/
theorem mulIsExact_iff (a b : U256) :
    MulIsExact a b ↔
      2 ^ 256 ∣ topProduct a b ∧ (topProduct a b = 0 → a.toNat * b.toNat < 2 ^ 256) := by
  obtain ⟨hval, hflag⟩ := overflowingMul_eq a b
  have hsplit := product_split a b
  have hmod := unshifted_mod_iff (a.toNat * (b.toNat % 2 ^ 192)) (topProduct a b)
  have hlow : a.toNat * (b.toNat % 2 ^ 192) % 2 ^ 256 < 2 ^ 256 := Nat.mod_lt _ (by decide)
  change _ = (a.toNat * (b.toNat % 2 ^ 192) + topProduct a b) % 2 ^ 256 at hval
  change _ ↔ 2 ^ 256 ≤ topProduct a b ∨ _ ≤ _ + topProduct a b % 2 ^ 256 at hflag
  rw [← hval, ← hsplit] at hmod
  constructor
  · rintro ⟨hexact, hsign, -⟩
    refine ⟨hmod.mp hexact, fun hzero => ?_⟩
    rw [hzero, Nat.zero_mod, Nat.add_zero] at hflag
    by_contra hge
    rcases hflag.mp (hsign.mpr (Nat.le_of_not_lt hge)) with h | h
    · exact absurd h (by decide)
    · exact absurd h (Nat.not_le.mpr hlow)
  · rintro ⟨hdvd, hfit⟩
    have hexact := hmod.mpr hdvd
    have hzero : topProduct a b % 2 ^ 256 = 0 := Nat.mod_eq_zero_of_dvd hdvd
    have hsign : (overflowingMul a b).2 = true ↔ 2 ^ 256 ≤ a.toNat * b.toNat := by
      rw [hflag, hzero]
      by_cases htop : topProduct a b = 0
      · have := hfit htop
        omega
      · have hbig : 2 ^ 256 ≤ topProduct a b :=
          Nat.le_of_dvd (Nat.pos_of_ne_zero htop) hdvd
        omega
    exact ⟨hexact, hsign, mul_ok_of_exact hexact hsign⟩

/-- `1 * 2 ^ 192` fits and comes out as 1; the square of `2 ^ 128` does not fit and no overflow is
reported. -/
theorem overflowingMul_not_exact :
    overflowingMul ONE ⟨2 ^ 64, 0⟩ = (ONE, false) ∧
      overflowingMul ⟨1, 0⟩ ⟨1, 0⟩ = (ZERO, false) ∧
      ¬ MulIsExact ONE ⟨2 ^ 64, 0⟩ ∧ ¬ MulIsExact ⟨1, 0⟩ ⟨1, 0⟩ := by
  have h₁ : overflowingMul ONE ⟨2 ^ 64, 0⟩ = (ONE, false) := by decide +kernel
  have h₂ : overflowingMul ⟨1, 0⟩ ⟨1, 0⟩ = (ZERO, false) := by decide +kernel
  refine ⟨h₁, h₂, fun h => ?_, fun h => ?_⟩
  · have hval := h.1
    rw [h₁] at hval
    exact absurd hval (by decide +kernel)
  · have hflag := h.2.1
    rw [h₂] at hflag
    exact absurd (hflag.mpr (by decide +kernel)) Bool.false_ne_true

end U256

end RustDogecoin
