import RustDogecoin.Pow.U256
import RustDogecoin.Lib.Rounding

/-!
# Conversion to a double

`U256::to_f64` computes the bits of a double with integers only.  The 203 bits that the significand drops are
merged into a word of 128 bits that keeps the highest of them and tells whether another one is set, which is
all that rounding to nearest, ties to even, asks for (`U256.toF64Bits_encodes`).
-/

namespace RustDogecoin

namespace U256

/-- `wrapping_shl` with the check of its addition. -/
def wrappingShlChecked {ε : Type} (x : U256) (rhs : ℕ) : Outcome ε U256 := do
  let shift := rhs % 256
  let bitShift := shift % 128
  .require (shift < 128 → 0 < bitShift →
    BitVec.uaddOverflow (x.hi <<< bitShift) (x.lo >>> (128 - bitShift)) = false) .overflow
  return wrappingShl x rhs

/-- `wrapping_shr` with the check of its addition. -/
def wrappingShrChecked {ε : Type} (x : U256) (rhs : ℕ) : Outcome ε U256 := do
  let shift := rhs % 256
  let bitShift := shift % 128
  .require (shift < 128 → 0 < bitShift →
    BitVec.uaddOverflow (x.lo >>> bitShift) (x.hi <<< (128 - bitShift)) = false) .overflow
  return wrappingShr x rhs

/-- `U256::to_f64`, up to the bits that are handed to `f64::from_bits`. -/
def toF64Bits {ε : Type} (x : U256) : Outcome ε (BitVec 64) := do
  .require (bits x ≤ 256) .overflow
  let leadingZeroes := 256 - bits x
  let leftAligned ← wrappingShlChecked x leadingZeroes
  let middleAligned ← wrappingShrChecked leftAligned 75
  let mantissa := middleAligned.hi
  let droppedBits := middleAligned.lo ||| (leftAligned.lo &&& 0x7FFFFFFFFFFFFFFFFFF)
  let tie := (droppedBits >>> 127) &&& ~~~mantissa
  .require (tie ≤ droppedBits) .overflow
  let roundUp := (droppedBits - tie) >>> 127
  .require (mantissa.toNat + roundUp.toNat < 2 ^ 128) .overflow
  let mantissa : BitVec 64 := (mantissa + roundUp).setWidth 64
  .require (x = ZERO ∨ leadingZeroes ≤ 1277) .overflow
  let exponent : BitVec 64 := if x = ZERO then 0 else BitVec.ofNat 64 (1277 - leadingZeroes)
  .require ((exponent <<< 52).toNat + mantissa.toNat < 2 ^ 64) .overflow
  return (exponent <<< 52) + mantissa

/-! ## The shifts -/

theorem wrappingShlChecked_eq {ε : Type} (x : U256) (s : ℕ) :
    (wrappingShlChecked x s : Outcome ε U256) = .ok (wrappingShl x s) := by
  refine (Outcome.require_bind_eq_ok_iff (p := .overflow)).2 ⟨fun hword hpos => ?_, rfl⟩
  have hparts := shl_parts_lt x.hi.toNat x.lo.toNat (s % 256 % 128) (by omega) x.lo.isLt
  simp only [BitVec.uaddOverflow, BitVec.toNat_shiftLeft, BitVec.toNat_ushiftRight, Nat.shiftLeft_eq,
    Nat.shiftRight_eq_div_pow, ge_iff_le, decide_eq_false_iff_not, not_le]
  exact hparts

theorem wrappingShrChecked_eq {ε : Type} (x : U256) (s : ℕ) :
    (wrappingShrChecked x s : Outcome ε U256) = .ok (wrappingShr x s) := by
  refine (Outcome.require_bind_eq_ok_iff (p := .overflow)).2 ⟨fun hword hpos => ?_, rfl⟩
  have hparts := shl_parts_lt x.hi.toNat x.lo.toNat (128 - s % 256 % 128) (by omega) x.lo.isLt
  rw [Nat.sub_sub_self (by omega)] at hparts
  simp only [BitVec.uaddOverflow, BitVec.toNat_shiftLeft, BitVec.toNat_ushiftRight, Nat.shiftLeft_eq,
    Nat.shiftRight_eq_div_pow, ge_iff_le, decide_eq_false_iff_not, not_le]
  rw [Nat.add_comm]
  exact hparts

/-! ## The dropped bits -/

/-- The bit that is subtracted is set when the highest dropped bit is and the significand is even. -/
theorem toNat_tie (d m : BitVec 128) :
    ((d >>> 127) &&& ~~~m).toNat = if 2 ^ 127 ≤ d.toNat ∧ m.toNat % 2 = 0 then 1 else 0 := by
  have hd := d.isLt
  have hm := m.isLt
  rw [BitVec.toNat_and, BitVec.toNat_ushiftRight, Nat.shiftRight_eq_div_pow, BitVec.toNat_not]
  rcases lt_or_ge d.toNat (2 ^ 127) with hlow | hhigh
  · have hzero : d.toNat / 2 ^ 127 = 0 := Nat.div_eq_of_lt hlow
    rw [hzero, Nat.zero_and, if_neg (by omega)]
  · have hone : d.toNat / 2 ^ 127 = 1 := by omega
    rw [hone, Nat.one_and_eq_mod_two]
    split_ifs <;> omega

/-- One is added when more than half of a unit is dropped, or just half of it from an odd significand. -/
theorem toNat_roundUp (d m : BitVec 128) :
    (d >>> 127) &&& ~~~m ≤ d ∧ ((d - ((d >>> 127) &&& ~~~m)) >>> 127).toNat =
      if 2 ^ 127 < d.toNat ∨ d.toNat = 2 ^ 127 ∧ m.toNat % 2 = 1 then 1 else 0 := by
  have hd := d.isLt
  have htie := toNat_tie d m
  have hle : ((d >>> 127) &&& ~~~m).toNat ≤ d.toNat := by
    rw [htie]
    split_ifs <;> omega
  refine ⟨hle, ?_⟩
  rw [BitVec.toNat_ushiftRight, Nat.shiftRight_eq_div_pow, BitVec.toNat_sub_of_le hle, htie]
  split_ifs <;> omega

/-- The merged word keeps the highest dropped bit, and what else is set. -/
theorem merged_spec {high low : ℕ} (hhigh : high < 2 ^ 128) (hlow : low < 2 ^ 75) :
    (2 ^ 127 < high ||| low ↔ 2 ^ 127 < high ∨ high = 2 ^ 127 ∧ 0 < low) ∧
      (high ||| low = 2 ^ 127 ↔ high = 2 ^ 127 ∧ low = 0) := by
  have hleft : high ≤ high ||| low := Nat.left_le_or
  have hhalf : high = 2 ^ 127 → high ||| low = 2 ^ 127 + low := by
    rintro rfl
    have hor := Nat.two_pow_add_eq_or_of_lt (hlow.trans (by decide : 2 ^ 75 < 2 ^ 127)) 1
    rw [Nat.mul_one] at hor
    exact hor.symm
  have hsmall (h : high < 2 ^ 127) : high ||| low < 2 ^ 127 :=
    Nat.or_lt_two_pow h (hlow.trans (by decide : 2 ^ 75 < 2 ^ 127))
  omega

/-- The dropped bits are compared with one half in two parts. -/
theorem roundEven_203 (n : ℕ) :
    roundEven 203 n = n / 2 ^ 203 +
      if (2 ^ 127 < n / 2 ^ 75 % 2 ^ 128 ∨ n / 2 ^ 75 % 2 ^ 128 = 2 ^ 127 ∧ 0 < n % 2 ^ 75) ∨
        (n / 2 ^ 75 % 2 ^ 128 = 2 ^ 127 ∧ n % 2 ^ 75 = 0) ∧ n / 2 ^ 203 % 2 = 1 then 1 else 0 := by
  unfold roundEven
  split_ifs <;> omega

/-- Significand and rounding bit of a number with its highest bit set. -/
theorem add_roundUp_eq (a : U256) :
    let m := wrappingShr a 75
    let d := m.lo ||| (a.lo &&& 0x7FFFFFFFFFFFFFFFFFF)
    m.hi.toNat + ((d - ((d >>> 127) &&& ~~~m.hi)) >>> 127).toNat = roundEven 203 a.toNat := by
  dsimp only
  have hshr := toNat_wrappingShr a (by decide : 75 < 256)
  have hlo : (wrappingShr a 75).lo.toNat = a.toNat / 2 ^ 75 % 2 ^ 128 := by
    rw [← hshr, toNat]
    have := (wrappingShr a 75).lo.isLt
    omega
  have hhi : (wrappingShr a 75).hi.toNat = a.toNat / 2 ^ 203 := by
    have hlt := (wrappingShr a 75).lo.isLt
    rw [toNat] at hshr
    omega
  have hmask : (a.lo &&& 0x7FFFFFFFFFFFFFFFFFF).toNat = a.toNat % 2 ^ 75 := by
    have hand : (a.lo &&& 0x7FFFFFFFFFFFFFFFFFF).toNat = a.lo.toNat &&& (2 ^ 75 - 1) := by
      rw [BitVec.toNat_and]
      rfl
    rw [hand, Nat.and_two_pow_sub_one_eq_mod, toNat]
    omega
  have hmerged := merged_spec (Nat.mod_lt (a.toNat / 2 ^ 75) (by decide : 0 < 2 ^ 128))
    (Nat.mod_lt a.toNat (by decide : 0 < 2 ^ 75))
  rw [(toNat_roundUp _ _).2, BitVec.toNat_or, hmask, hhi, hlo, roundEven_203]
  simp only [hmerged.1, hmerged.2]

/-! ## The double -/

/-- Aligned to the left, the highest bit of a number is that of the word. -/
theorem leftAligned_spec {x : U256} (hx : x ≠ ZERO) :
    256 - bits x ≤ 255 ∧ (wrappingShl x (256 - bits x)).toNat = x.toNat * 2 ^ (256 - bits x) ∧
      2 ^ 255 ≤ x.toNat * 2 ^ (256 - bits x) ∧ x.toNat * 2 ^ (256 - bits x) < 2 ^ 256 := by
  have hle := bits_le x
  have hpos : bits x ≠ 0 := fun h => hx (toNat_inj.1 (bits_eq_zero_iff.1 h))
  have hlow := two_pow_le_of_lt_bits (by omega : bits x - 1 < bits x)
  have hhigh := toNat_lt_two_pow_bits x
  have hmin : 2 ^ 255 ≤ x.toNat * 2 ^ (256 - bits x) := by
    calc 2 ^ 255 = 2 ^ (bits x - 1) * 2 ^ (256 - bits x) := by rw [← Nat.pow_add]; congr 1; omega
      _ ≤ x.toNat * 2 ^ (256 - bits x) := Nat.mul_le_mul_right _ hlow
  have hmax : x.toNat * 2 ^ (256 - bits x) < 2 ^ 256 := by
    calc x.toNat * 2 ^ (256 - bits x)
        < 2 ^ bits x * 2 ^ (256 - bits x) := Nat.mul_lt_mul_of_pos_right hhigh (Nat.two_pow_pos _)
      _ = 2 ^ 256 := by rw [← Nat.pow_add]; congr 1; omega
  refine ⟨by omega, ?_, hmin, hmax⟩
  rw [toNat_wrappingShl x (by omega), Nat.mod_eq_of_lt hmax]

/-- The exponent is that of the highest bit less one, and the significand is added with its highest bit. -/
theorem toF64Bits_eq {ε : Type} {x : U256} (hx : x ≠ ZERO) :
    ∃ pattern : BitVec 64, (toF64Bits x : Outcome ε (BitVec 64)) = .ok pattern ∧
      pattern.toNat = (1277 - (256 - bits x)) * 2 ^ 52 + roundEven 203 (x.toNat * 2 ^ (256 - bits x)) := by
  obtain ⟨hzeroes, halign, hmin, hmax⟩ := leftAligned_spec hx
  have hround := add_roundUp_eq (wrappingShl x (256 - bits x))
  have hbounds := roundEven_bounds (p := 53) (s := 203) (n := x.toNat * 2 ^ (256 - bits x)) (by omega) (by omega)
  rw [halign] at hround
  dsimp only at hround
  generalize roundEven 203 (x.toNat * 2 ^ (256 - bits x)) = r at *
  rw [toF64Bits, Outcome.require_of (bits_le x), Outcome.ok_bind]
  dsimp only
  rw [wrappingShlChecked_eq, Outcome.ok_bind, wrappingShrChecked_eq, Outcome.ok_bind]
  generalize wrappingShr (wrappingShl x (256 - bits x)) 75 = m at *
  generalize m.lo ||| ((wrappingShl x (256 - bits x)).lo &&& 0x7FFFFFFFFFFFFFFFFFF) = d at *
  have hadd : (m.hi + (d - ((d >>> 127) &&& ~~~m.hi)) >>> 127).toNat = r := by
    rw [BitVec.toNat_add, hround, Nat.mod_eq_of_lt (by omega)]
  have hmantissa : ((m.hi + (d - ((d >>> 127) &&& ~~~m.hi)) >>> 127).setWidth 64).toNat = r := by
    rw [BitVec.toNat_setWidth, hadd, Nat.mod_eq_of_lt (by omega)]
  have hexponent : (BitVec.ofNat 64 (1277 - (256 - bits x)) <<< 52).toNat = (1277 - (256 - bits x)) * 2 ^ 52 := by
    rw [BitVec.toNat_shiftLeft, BitVec.toNat_ofNat, Nat.shiftLeft_eq]
    omega
  rw [Outcome.require_of (toNat_roundUp d m.hi).1, Outcome.ok_bind, Outcome.require_of (by omega), Outcome.ok_bind,
    Outcome.require_of (.inr (by omega)), Outcome.ok_bind, if_neg hx, Outcome.require_of (by omega), Outcome.ok_bind]
  refine ⟨_, rfl, ?_⟩
  rw [BitVec.toNat_add, hexponent, hmantissa, Nat.mod_eq_of_lt (by omega)]

end U256

/-! ### IEEE 754 -/

namespace F64

/-- The sign, the exponent and the fraction of the bits of a double. -/
def sign (pattern : BitVec 64) : ℕ := pattern.toNat / 2 ^ 63

def exponent (pattern : BitVec 64) : ℕ := pattern.toNat / 2 ^ 52 % 2 ^ 11

def fraction (pattern : BitVec 64) : ℕ := pattern.toNat % 2 ^ 52

/-- The bits are those of the double that a number is rounded to: zero, or a positive normal number whose significand
is the fraction with a one in front. -/
def Encodes (pattern : BitVec 64) (n : ℕ) : Prop :=
  if n = 0 then pattern = 0
  else sign pattern = 0 ∧ 0 < exponent pattern ∧ exponent pattern < 2047 ∧
    NearestEven 53 n (2 ^ 52 + fraction pattern) (exponent pattern - 1075)

end F64

namespace U256

/-- Nothing overflows, and the bits are those of the number rounded to nearest, ties to even. -/
theorem toF64Bits_encodes (x : U256) :
    ∃ pattern : BitVec 64, (toF64Bits x : Outcome Empty (BitVec 64)) = .ok pattern ∧
      F64.Encodes pattern x.toNat := by
  by_cases hx : x = ZERO
  · subst hx
    refine ⟨0, by decide +kernel, ?_⟩
    rw [F64.Encodes, toNat_ZERO, if_pos rfl]
  · obtain ⟨pattern, hrun, hpattern⟩ := toF64Bits_eq hx (ε := Empty)
    obtain ⟨hzeroes, -, hmin, hmax⟩ := leftAligned_spec hx
    have hn : x.toNat ≠ 0 := fun h => hx (toNat_inj.1 h)
    have hbounds := roundEven_bounds (p := 53) (s := 203) (n := x.toNat * 2 ^ (256 - bits x)) (by omega) (by omega)
    refine ⟨pattern, hrun, ?_⟩
    rw [F64.Encodes, if_neg hn, F64.sign, F64.exponent, F64.fraction]
    generalize 256 - bits x = zeroes at *
    have hvalue : ((x.toNat * 2 ^ zeroes : ℕ) : ℚ) * 2 ^ (-(zeroes : ℤ)) = x.toNat := by
      rw [zpow_neg, zpow_natCast]
      push_cast
      rw [mul_inv_cancel_right₀ (by positivity)]
    rcases lt_or_eq_of_le hbounds.2 with hfits | hcarry
    · have hnearest := nearestEven_roundEven (p := 53) (s := 203) (-(zeroes : ℤ)) (by omega) (by omega) (by omega) hfits
      have hexponent : pattern.toNat / 2 ^ 52 % 2 ^ 11 = 1278 - zeroes := by omega
      have hsignificand : 2 ^ 52 + pattern.toNat % 2 ^ 52 = roundEven 203 (x.toNat * 2 ^ zeroes) := by omega
      have hunit : ((1278 - zeroes : ℕ) : ℤ) - 1075 = (203 : ℕ) + -(zeroes : ℤ) := by omega
      rw [hexponent, hsignificand, hunit]
      rw [hvalue] at hnearest
      exact ⟨by omega, by omega, by omega, hnearest⟩
    · -- the carry goes into the exponent
      have hnearest := nearestEven_of_roundEven_eq (p := 53) (s := 203) (-(zeroes : ℤ)) (by omega) (by omega) hcarry
      have hexponent : pattern.toNat / 2 ^ 52 % 2 ^ 11 = 1279 - zeroes := by omega
      have hsignificand : 2 ^ 52 + pattern.toNat % 2 ^ 52 = 2 ^ 52 := by omega
      have hunit : ((1279 - zeroes : ℕ) : ℤ) - 1075 = (203 : ℕ) + -(zeroes : ℤ) + 1 := by omega
      rw [hexponent, hsignificand, hunit]
      rw [hvalue] at hnearest
      exact ⟨by omega, by omega, by omega, hnearest⟩

example : (toF64Bits ⟨-1, -1⟩ : Outcome Empty (BitVec 64)) = .ok 0x4FF0000000000000 := by decide +kernel

end U256

end RustDogecoin
