import RustDogecoin.Pow.Target

/-!
# Work

`U256::inverse`, which gives the work of a target and the target of a work.  As `2 ^ 256` does not
fit, it is the complement that is divided and the quotient is incremented.
-/

namespace RustDogecoin

namespace U256

def MAX : U256 := ⟨BitVec.allOnes 128, BitVec.allOnes 128⟩

def isZero (x : U256) : Bool := x.hi == 0 && x.lo == 0

def isOne (x : U256) : Bool := x.hi == 0 && x.lo == 1

def isMax (x : U256) : Bool := x.hi == BitVec.allOnes 128 && x.lo == BitVec.allOnes 128

/-- Returns `self` incremented by 1 wrapping around at the boundary of the type. -/
def wrappingInc (x : U256) : U256 :=
  let low := x.lo + 1
  if low = 0 then ⟨x.hi + 1, low⟩ else ⟨x.hi, low⟩

/-- Calculates 2^256 / (x + 1) where x is a 256 bit unsigned integer. -/
def inverse {ε : Type} (x : U256) : Outcome ε U256 := do
  if isZero x then return MAX
  else if isOne x then return MAX
  else if isMax x then return ONE
  else
    let ret ← div (not x) (wrappingInc x)
    return wrappingInc ret

theorem toNat_MAX : MAX.toNat = 2 ^ 256 - 1 := by decide

theorem eq_words_iff (x : U256) (hi lo : BitVec 128) :
    (x.hi == hi && x.lo == lo) = true ↔ x = ⟨hi, lo⟩ := by
  obtain ⟨xh, xl⟩ := x
  simp

theorem isZero_iff (x : U256) : isZero x = true ↔ x.toNat = 0 := by
  rw [isZero, eq_words_iff, ← toNat_inj]
  rfl

theorem isOne_iff (x : U256) : isOne x = true ↔ x.toNat = 1 := by
  rw [isOne, eq_words_iff, ← toNat_inj]
  rfl

theorem isMax_iff (x : U256) : isMax x = true ↔ x.toNat = 2 ^ 256 - 1 := by
  rw [isMax, eq_words_iff, ← toNat_inj, ← toNat_MAX]
  rfl

theorem toNat_wrappingInc {x : U256} (h : x.toNat < 2 ^ 256 - 1) :
    (wrappingInc x).toNat = x.toNat + 1 := by
  have hhi := x.hi.isLt
  have hlo := x.lo.isLt
  have hzero : x.lo + 1 = 0 ↔ x.lo.toNat = 2 ^ 128 - 1 := by
    rw [← BitVec.toNat_inj, BitVec.toNat_add, toNat_one, toNat_zero]
    omega
  unfold toNat at h
  unfold wrappingInc
  dsimp only
  by_cases hcarry : x.lo + 1 = 0
  · rw [if_pos hcarry]
    rw [hzero] at hcarry
    simp only [toNat, BitVec.toNat_add, toNat_one]
    omega
  · rw [if_neg hcarry]
    rw [hzero] at hcarry
    simp only [toNat, BitVec.toNat_add, toNat_one]
    omega

/-- `2 ^ 256 / (n + 1)` from numbers that fit. -/
theorem complement_div_succ {n : ℕ} (h : n < 2 ^ 256) :
    (2 ^ 256 - 1 - n) / (n + 1) + 1 = 2 ^ 256 / (n + 1) := by
  have hsplit : 2 ^ 256 - 1 - n + (n + 1) = 2 ^ 256 := by omega
  rw [← Nat.add_div_right _ (Nat.succ_pos n), hsplit]

/-- The inverse in exact arithmetic, 0 and 1 both with the greatest value. -/
def inverseNat (n : ℕ) : ℕ := if n ≤ 1 then 2 ^ 256 - 1 else 2 ^ 256 / (n + 1)

theorem inverse_spec {ε : Type} (x : U256) :
    ∃ r, inverse x = (.ok r : Outcome ε U256) ∧ r.toNat = inverseNat x.toNat := by
  have hlt := x.toNat_lt
  unfold inverse inverseNat
  by_cases h₀ : x.toNat = 0
  · rw [if_pos ((isZero_iff x).mpr h₀), if_pos (by omega)]
    exact ⟨MAX, rfl, toNat_MAX⟩
  rw [if_neg (mt (isZero_iff x).mp h₀)]
  by_cases h₁ : x.toNat = 1
  · rw [if_pos ((isOne_iff x).mpr h₁), if_pos (by omega)]
    exact ⟨MAX, rfl, toNat_MAX⟩
  rw [if_neg (mt (isOne_iff x).mp h₁), if_neg (c := x.toNat ≤ 1) (by omega)]
  by_cases hmax : x.toNat = 2 ^ 256 - 1
  · rw [if_pos ((isMax_iff x).mpr hmax), hmax]
    exact ⟨ONE, rfl, rfl⟩
  · have hinc : (wrappingInc x).toNat = x.toNat + 1 := toNat_wrappingInc (by omega)
    obtain ⟨q, hdiv, hq⟩ := div_spec (ε := ε) (not x) (b := wrappingInc x) (by omega)
    rw [toNat_not, hinc] at hq
    have hsmall : q.toNat < 2 ^ 256 - 1 := by
      rw [hq]
      apply Nat.lt_of_le_of_lt (Nat.div_le_self _ _)
      omega
    rw [if_neg (mt (isMax_iff x).mp hmax), hdiv]
    refine ⟨wrappingInc q, rfl, ?_⟩
    rw [toNat_wrappingInc hsmall, hq, complement_div_succ hlt]

theorem inverseNat_antitone : Antitone inverseNat := by
  intro m n h
  have hbound (k : ℕ) (hk : ¬ k ≤ 1) : 2 ^ 256 / (k + 1) ≤ 2 ^ 256 - 1 := by
    have hdiv : 2 ^ 256 / (k + 1) ≤ 2 ^ 256 / 2 := Nat.div_le_div_left (by omega) (by decide)
    omega
  unfold inverseNat
  by_cases hm : m ≤ 1
  · rw [if_pos hm]
    split_ifs with hn
    · exact le_rfl
    · exact hbound n hn
  · rw [if_neg hm, if_neg (by omega)]
    exact Nat.div_le_div_left (by omega) (Nat.succ_pos m)

/-- Below the square root of `2 ^ 256` rounding down twice gives the number back. -/
theorem inverseNat_inverseNat {n : ℕ} (h2 : 2 ≤ n) (hlt : n < 2 ^ 128) :
    inverseNat (inverseNat n) = n := by
  have hw : inverseNat n = 2 ^ 256 / (n + 1) := if_neg (by omega)
  have hroot : 2 ^ 128 ≤ 2 ^ 256 / (n + 1) := by
    rw [Nat.le_div_iff_mul_le (Nat.succ_pos n)]
    calc 2 ^ 128 * (n + 1) ≤ 2 ^ 128 * 2 ^ 128 := Nat.mul_le_mul_left _ hlt
      _ = 2 ^ 256 := by rw [← Nat.pow_add]
  have hle := Nat.div_mul_le_self (2 ^ 256) (n + 1)
  have hgt : 2 ^ 256 < (2 ^ 256 / (n + 1) + 1) * (n + 1) :=
    Nat.lt_mul_of_div_lt (Nat.lt_succ_self _) (Nat.succ_pos n)
  rw [hw, inverseNat, if_neg (by omega)]
  generalize 2 ^ 256 / (n + 1) = w at *
  rw [Nat.mul_succ] at hle
  apply Nat.div_eq_of_lt_le
  · calc n * (w + 1) = w * n + n := by ring
      _ ≤ w * n + w := by omega
      _ ≤ 2 ^ 256 := hle
  · rw [Nat.mul_comm]
    exact hgt

end U256

/-- A 256-bit integer representing work. -/
abbrev Work := U256

/-- Converts this `Work` to `Target`. -/
def Work.toTarget {ε : Type} (work : Work) : Outcome ε Target := U256.inverse work

/-- Converts this `Target` to `Work`. -/
def Target.toWork {ε : Type} (t : Target) : Outcome ε Work := U256.inverse t

/-- Every target has a work: `2 ^ 256 / (t + 1)` from 2 on, the less the greater the target, and for
targets below `2 ^ 128` one that gives the target back. -/
theorem Target.toWork_is_inverse (t : Target) :
    ∃ work : Work, Target.toWork t = (.ok work : Outcome Empty Work) ∧
      (2 ≤ t.toNat → work.toNat = 2 ^ 256 / (t.toNat + 1)) ∧
      (∀ u : Target, U256.le t u →
        ∃ work' : Work, Target.toWork u = (.ok work' : Outcome Empty Work) ∧ U256.le work' work) ∧
      (2 ≤ t.toNat → t.toNat < 2 ^ 128 →
        Work.toTarget work = (.ok t : Outcome Empty Target)) := by
  obtain ⟨work, hrun, hwork⟩ := U256.inverse_spec (ε := Empty) t
  refine ⟨work, hrun, ?_, ?_, ?_⟩
  · intro h2
    rw [hwork, U256.inverseNat, if_neg (by omega)]
  · intro u hle
    obtain ⟨work', hrun', hwork'⟩ := U256.inverse_spec (ε := Empty) u
    refine ⟨work', hrun', ?_⟩
    rw [U256.le_iff] at hle
    rw [U256.le_iff, hwork, hwork']
    exact U256.inverseNat_antitone hle
  · intro h2 hlt
    obtain ⟨back, hback, hval⟩ := U256.inverse_spec (ε := Empty) work
    rw [hwork, U256.inverseNat_inverseNat h2 hlt] at hval
    rw [Work.toTarget, hback, U256.toNat_inj.mp hval]

end RustDogecoin
