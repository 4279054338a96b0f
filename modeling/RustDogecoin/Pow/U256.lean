import RustDogecoin.Lib.Outcome
import Mathlib.Tactic.Ring
import Mathlib.Data.Nat.Bitwise

/-!
# 256-bit arithmetic

`U256` of `pow.rs`, two words of 128 bits with hand-written addition, subtraction, multiplication by
a word, long division and shifts.  Every operation has one specification lemma that says what it
computes on `toNat`; nothing outside this module unfolds an operation.
-/

namespace RustDogecoin

/-- The high word, then the low word. -/
structure U256 where
  hi : BitVec 128
  lo : BitVec 128
  deriving DecidableEq, Repr

namespace U256

def toNat (x : U256) : ℕ := x.hi.toNat * 2 ^ 128 + x.lo.toNat

def ZERO : U256 := ⟨0, 0⟩

def ONE : U256 := ⟨0, 1⟩

/-- `U256::from`, for the smaller integer types. -/
def ofWord (x : BitVec 128) : U256 := ⟨0, x⟩

/-- The derived order compares the high words first. -/
def le (a b : U256) : Bool := a.hi.ult b.hi || (a.hi == b.hi && a.lo.ule b.lo)

/-! ## Operations -/

/-- `u128::leading_zeros`. -/
def leadingZeros (x : BitVec 128) : ℕ := if x = 0 then 128 else 127 - x.toNat.log2

/-- Returns the least number of bits needed to represent the number. -/
def bits (x : U256) : ℕ :=
  if x.hi ≠ 0 then 256 - leadingZeros x.hi else 128 - leadingZeros x.lo

def lowU32 (x : U256) : BitVec 32 := x.lo.setWidth 32

def lowU64 (x : U256) : BitVec 64 := x.lo.setWidth 64

def overflowingAdd (a b : U256) : U256 × Bool :=
  let hi := a.hi + b.hi
  let overflow := BitVec.uaddOverflow a.hi b.hi
  let lo := a.lo + b.lo
  if BitVec.uaddOverflow a.lo b.lo then (⟨hi + 1, lo⟩, overflow || BitVec.uaddOverflow hi 1)
  else (⟨hi, lo⟩, overflow)

def wrappingAdd (a b : U256) : U256 := (overflowingAdd a b).1

def not (x : U256) : U256 := ⟨~~~x.hi, ~~~x.lo⟩

def overflowingSub (a b : U256) : U256 × Bool :=
  (wrappingAdd (wrappingAdd a (not b)) ONE, !le b a)

def wrappingSub (a b : U256) : U256 := (overflowingSub a b).1

/-- The shift is taken modulo 256. -/
def wrappingShl (x : U256) (rhs : ℕ) : U256 :=
  let shift := rhs % 256
  let bitShift := shift % 128
  if 128 ≤ shift then ⟨x.lo <<< bitShift, 0⟩
  else if 0 < bitShift then ⟨(x.hi <<< bitShift) + (x.lo >>> (128 - bitShift)), x.lo <<< bitShift⟩
  else ⟨x.hi <<< bitShift, x.lo <<< bitShift⟩

/-- The shift is taken modulo 256. -/
def wrappingShr (x : U256) (rhs : ℕ) : U256 :=
  let shift := rhs % 256
  let bitShift := shift % 128
  if 128 ≤ shift then ⟨0, x.hi >>> bitShift⟩
  else if 0 < bitShift then ⟨x.hi >>> bitShift, (x.lo >>> bitShift) + (x.hi <<< (128 - bitShift))⟩
  else ⟨x.hi >>> bitShift, x.lo >>> bitShift⟩

/-- One turn of the loop of `mul_u64`: the low word of the product and the carry. -/
def mulStep (rhs : BitVec 64) (carry : BitVec 128) (word : BitVec 64) : BitVec 64 × BitVec 128 :=
  let n := carry + rhs.setWidth 128 * word.setWidth 128
  (n.setWidth 64, n >>> 64)

/-- Wrapping multiplication by `u64`, with a flag for overflow. -/
def mulU64 (x : U256) (rhs : BitVec 64) : U256 × Bool :=
  let s₀ := mulStep rhs 0 (x.lo.setWidth 64)
  let s₁ := mulStep rhs s₀.2 ((x.lo >>> 64).setWidth 64)
  let s₂ := mulStep rhs s₁.2 (x.hi.setWidth 64)
  let s₃ := mulStep rhs s₂.2 ((x.hi >>> 64).setWidth 64)
  let low := s₀.1.setWidth 128 ||| (s₁.1.setWidth 128 <<< 64)
  let high := s₂.1.setWidth 128 ||| (s₃.1.setWidth 128 <<< 64)
  (⟨high, low⟩, s₃.2 != 0)

/-- One turn of the loop of `overflowing_mul`. -/
def mulRound (a b ret : U256) (i : ℕ) : U256 :=
  wrappingAdd ret (wrappingShl (mulU64 a (lowU64 (wrappingShr b (64 * i)))).1 (64 * i))

def overflowingMul (a b : U256) : U256 × Bool :=
  let ret := [0, 1, 2].foldl (mulRound a b) ZERO
  let m := mulU64 a (lowU64 (wrappingShr b 192))
  let s := overflowingAdd ret m.1
  (s.1, m.2 || s.2)

/-- `ret[1 - shift / 128] |= 1 << (shift % 128)`. -/
def setBit (x : U256) (shift : ℕ) : U256 :=
  if shift / 128 = 0 then ⟨x.hi, x.lo ||| ((1 : BitVec 128) <<< (shift % 128))⟩
  else ⟨x.hi ||| ((1 : BitVec 128) <<< (shift % 128)), x.lo⟩

/-- The loop of `div_rem`, with the quotient and the remainder so far. -/
def divRemLoop : ℕ → U256 → U256 → U256 → U256 × U256
  | shift, subCopy, shiftCopy, ret =>
    let s := if le shiftCopy subCopy then (setBit ret shift, wrappingSub subCopy shiftCopy)
      else (ret, subCopy)
    match shift with
    | 0 => s
    | shift + 1 => divRemLoop shift s.2 (wrappingShr shiftCopy 1) s.1

/-- Calculates quotient and remainder. -/
def divRem {ε : Type} (a b : U256) : Outcome ε (U256 × U256) := do
  .require (bits b ≠ 0) .assertion
  if bits a < bits b then return (ZERO, a)
  else
    let shift := bits a - bits b
    return divRemLoop shift a (wrappingShl b shift) ZERO

/-! The operators, which check for overflow in debug builds. -/

def add {ε : Type} (a b : U256) : Outcome ε U256 := do
  .require ((overflowingAdd a b).2 = false) .overflow
  return (overflowingAdd a b).1

def sub {ε : Type} (a b : U256) : Outcome ε U256 := do
  .require ((overflowingSub a b).2 = false) .overflow
  return (overflowingSub a b).1

def mul {ε : Type} (a b : U256) : Outcome ε U256 := do
  .require ((overflowingMul a b).2 = false) .overflow
  return (overflowingMul a b).1

def div {ε : Type} (a b : U256) : Outcome ε U256 := do return (← divRem a b).1

def rem {ε : Type} (a b : U256) : Outcome ε U256 := do return (← divRem a b).2

/-! ## Specifications -/

theorem toNat_lt (x : U256) : x.toNat < 2 ^ 256 := by
  have h₁ := x.hi.isLt
  have h₂ := x.lo.isLt
  unfold toNat
  omega

theorem toNat_inj {a b : U256} : a.toNat = b.toNat ↔ a = b := by
  constructor
  · intro h
    obtain ⟨ah, al⟩ := a
    obtain ⟨bh, bl⟩ := b
    have ha := al.isLt
    have hb := bl.isLt
    simp only [toNat] at h
    have h₁ : ah.toNat = bh.toNat := by omega
    have h₂ : al.toNat = bl.toNat := by omega
    rw [BitVec.eq_of_toNat_eq h₁, BitVec.eq_of_toNat_eq h₂]
  · rintro rfl
    rfl

@[simp] theorem toNat_ZERO : ZERO.toNat = 0 := rfl

@[simp] theorem toNat_ONE : ONE.toNat = 1 := rfl

@[simp] theorem toNat_ofWord (x : BitVec 128) : (ofWord x).toNat = x.toNat := by
  simp [ofWord, toNat]

theorem le_iff {a b : U256} : le a b = true ↔ a.toNat ≤ b.toNat := by
  have ha := a.lo.isLt
  have hb := b.lo.isLt
  simp only [le, toNat, Bool.or_eq_true, Bool.and_eq_true, beq_iff_eq, BitVec.ult, BitVec.ule,
    decide_eq_true_eq, BitVec.toNat_eq]
  omega

theorem toNat_zero : (0 : BitVec 128).toNat = 0 := rfl

theorem toNat_one : (1 : BitVec 128).toNat = 1 := rfl

theorem overflowingAdd_spec (a b : U256) :
    (overflowingAdd a b).1.toNat = (a.toNat + b.toNat) % 2 ^ 256 ∧
      ((overflowingAdd a b).2 = true ↔ 2 ^ 256 ≤ a.toNat + b.toNat) := by
  have h₁ := a.hi.isLt
  have h₂ := a.lo.isLt
  have h₃ := b.hi.isLt
  have h₄ := b.lo.isLt
  unfold overflowingAdd
  dsimp only
  split_ifs with h <;>
    simp only [BitVec.uaddOverflow, toNat, BitVec.toNat_add, ge_iff_le, decide_eq_true_eq,
      Bool.or_eq_true, toNat_one] at h ⊢ <;>
    constructor <;> omega

theorem toNat_wrappingAdd (a b : U256) : (wrappingAdd a b).toNat = (a.toNat + b.toNat) % 2 ^ 256 :=
  (overflowingAdd_spec a b).1

theorem toNat_not (x : U256) : (not x).toNat = 2 ^ 256 - 1 - x.toNat := by
  have h₁ := x.hi.isLt
  have h₂ := x.lo.isLt
  simp only [not, toNat, BitVec.toNat_not]
  omega

theorem overflowingSub_spec (a b : U256) :
    (overflowingSub a b).1.toNat = (a.toNat + (2 ^ 256 - b.toNat)) % 2 ^ 256 ∧
      ((overflowingSub a b).2 = true ↔ a.toNat < b.toNat) := by
  have ha := a.toNat_lt
  have hb := b.toNat_lt
  constructor
  · simp only [overflowingSub, toNat_wrappingAdd, toNat_not, toNat_ONE]
    omega
  · simp only [overflowingSub, Bool.not_eq_true', ← Bool.not_eq_true, le_iff]
    omega

theorem toNat_wrappingSub {a b : U256} (h : b.toNat ≤ a.toNat) :
    (wrappingSub a b).toNat = a.toNat - b.toNat := by
  have ha := a.toNat_lt
  have hs := (overflowingSub_spec a b).1
  rw [wrappingSub, hs]
  omega

/-- The two parts that `wrapping_shl` adds up in the high word do not overlap. -/
theorem shl_parts_lt (hi lo k : ℕ) (hk : k ≤ 128) (hlo : lo < 2 ^ 128) :
    hi * 2 ^ k % 2 ^ 128 + lo / 2 ^ (128 - k) < 2 ^ 128 := by
  have hsplit : 2 ^ 128 = 2 ^ (128 - k) * 2 ^ k := (Nat.pow_sub_mul_pow 2 hk).symm
  have hdiv : lo / 2 ^ (128 - k) < 2 ^ k := by
    rw [Nat.div_lt_iff_lt_mul (Nat.two_pow_pos _), Nat.mul_comm, ← hsplit]
    exact hlo
  rw [hsplit, Nat.mul_mod_mul_right]
  have hmod : hi % 2 ^ (128 - k) < 2 ^ (128 - k) := Nat.mod_lt _ (Nat.two_pow_pos _)
  calc hi % 2 ^ (128 - k) * 2 ^ k + lo / 2 ^ (128 - k)
      < hi % 2 ^ (128 - k) * 2 ^ k + 2 ^ k := by omega
    _ = (hi % 2 ^ (128 - k) + 1) * 2 ^ k := by ring
    _ ≤ 2 ^ (128 - k) * 2 ^ k := Nat.mul_le_mul_right _ hmod

theorem toNat_wrappingShl (x : U256) {s : ℕ} (hs : s < 256) :
    (wrappingShl x s).toNat = x.toNat * 2 ^ s % 2 ^ 256 := by
  have hlo := x.lo.isLt
  unfold wrappingShl
  rw [Nat.mod_eq_of_lt hs]
  dsimp only
  by_cases hword : 128 ≤ s
  · obtain ⟨k, rfl⟩ := Nat.exists_eq_add_of_le hword
    have hk : (128 + k) % 128 = k := by omega
    rw [if_pos hword, hk]
    simp only [toNat, BitVec.toNat_shiftLeft, Nat.shiftLeft_eq, toNat_zero, Nat.add_zero]
    have hpow : (x.hi.toNat * 2 ^ 128 + x.lo.toNat) * 2 ^ (128 + k) =
        x.hi.toNat * 2 ^ k * 2 ^ 256 + x.lo.toNat * 2 ^ k * 2 ^ 128 := by
      rw [Nat.pow_add]
      ring
    rw [hpow]
    omega
  · have hk : s % 128 = s := by omega
    rw [if_neg hword, hk]
    by_cases hpos : 0 < s
    · rw [if_pos hpos]
      have hparts := shl_parts_lt x.hi.toNat x.lo.toNat s (by omega) hlo
      have hdiv : x.lo.toNat * 2 ^ s / 2 ^ 128 = x.lo.toNat / 2 ^ (128 - s) := by
        have hsplit : 2 ^ 128 = 2 ^ (128 - s) * 2 ^ s := (Nat.pow_sub_mul_pow 2 (by omega)).symm
        rw [hsplit, Nat.mul_div_mul_right _ _ (Nat.two_pow_pos s)]
      have hx : (x.hi.toNat * 2 ^ 128 + x.lo.toNat) * 2 ^ s =
          x.hi.toNat * 2 ^ s * 2 ^ 128 + x.lo.toNat * 2 ^ s := by ring
      simp only [toNat, BitVec.toNat_add, BitVec.toNat_shiftLeft, BitVec.toNat_ushiftRight,
        Nat.shiftLeft_eq, Nat.shiftRight_eq_div_pow]
      rw [hx]
      generalize x.hi.toNat * 2 ^ s = a at *
      generalize x.lo.toNat * 2 ^ s = b at *
      generalize x.lo.toNat / 2 ^ (128 - s) = d at *
      omega
    · obtain rfl : s = 0 := by omega
      have hx := x.toNat_lt
      have hhi := x.hi.isLt
      unfold toNat at hx
      simp only [toNat, Nat.lt_irrefl, if_false, BitVec.shiftLeft_zero, Nat.pow_zero, Nat.mul_one]
      omega

theorem toNat_wrappingShl_mod (x : U256) (s : ℕ) :
    (wrappingShl x s).toNat = x.toNat * 2 ^ (s % 256) % 2 ^ 256 := by
  have h : wrappingShl x s = wrappingShl x (s % 256) := by
    unfold wrappingShl
    rw [Nat.mod_mod]
  rw [h, toNat_wrappingShl _ (Nat.mod_lt _ (by decide))]

theorem toNat_wrappingShr (x : U256) {s : ℕ} (hs : s < 256) :
    (wrappingShr x s).toNat = x.toNat / 2 ^ s := by
  have hlo := x.lo.isLt
  have hhi := x.hi.isLt
  unfold wrappingShr
  rw [Nat.mod_eq_of_lt hs]
  dsimp only
  by_cases hword : 128 ≤ s
  · obtain ⟨k, rfl⟩ := Nat.exists_eq_add_of_le hword
    have hk : (128 + k) % 128 = k := by omega
    rw [if_pos hword, hk]
    simp only [toNat, BitVec.toNat_ushiftRight, Nat.shiftRight_eq_div_pow, toNat_zero, Nat.zero_mul,
      Nat.zero_add]
    rw [Nat.pow_add, ← Nat.div_div_eq_div_mul]
    congr 1
    omega
  · have hk : s % 128 = s := by omega
    rw [if_neg hword, hk]
    by_cases hpos : 0 < s
    · rw [if_pos hpos]
      -- the low bits of the high word move to the top of the low word
      have hsplit : 2 ^ 128 = 2 ^ (128 - s) * 2 ^ s := (Nat.pow_sub_mul_pow 2 (by omega)).symm
      have hsplit' : 2 ^ 128 = 2 ^ s * 2 ^ (128 - s) := by rw [hsplit, Nat.mul_comm]
      have hx : (x.hi.toNat * 2 ^ 128 + x.lo.toNat) / 2 ^ s =
          x.hi.toNat * 2 ^ (128 - s) + x.lo.toNat / 2 ^ s := by
        rw [hsplit, ← Nat.mul_assoc, Nat.add_comm, Nat.add_mul_div_right _ _ (Nat.two_pow_pos s),
          Nat.add_comm]
      have hdiv : x.hi.toNat * 2 ^ (128 - s) / 2 ^ 128 = x.hi.toNat / 2 ^ s := by
        rw [hsplit', Nat.mul_div_mul_right _ _ (Nat.two_pow_pos (128 - s))]
      have hparts := shl_parts_lt x.hi.toNat x.lo.toNat (128 - s) (by omega) hlo
      rw [show 128 - (128 - s) = s by omega] at hparts
      simp only [toNat, BitVec.toNat_add, BitVec.toNat_shiftLeft, BitVec.toNat_ushiftRight,
        Nat.shiftLeft_eq, Nat.shiftRight_eq_div_pow]
      rw [hx]
      generalize x.hi.toNat * 2 ^ (128 - s) = a at *
      generalize x.lo.toNat / 2 ^ s = b at *
      generalize x.hi.toNat / 2 ^ s = d at *
      omega
    · obtain rfl : s = 0 := by omega
      simp [toNat]

/-! Multiplication -/

theorem mulStep_spec (rhs word : BitVec 64) {carry : BitVec 128} (hc : carry.toNat < 2 ^ 64) :
    (mulStep rhs carry word).2.toNat < 2 ^ 64 ∧
      (mulStep rhs carry word).1.toNat + 2 ^ 64 * (mulStep rhs carry word).2.toNat =
        carry.toNat + rhs.toNat * word.toNat := by
  have hr := rhs.isLt
  have hw := word.isLt
  have hmul : rhs.toNat * word.toNat ≤ (2 ^ 64 - 1) * (2 ^ 64 - 1) :=
    Nat.mul_le_mul (by omega) (by omega)
  simp only [mulStep, BitVec.toNat_setWidth, BitVec.toNat_ushiftRight, BitVec.toNat_add,
    BitVec.toNat_mul, Nat.shiftRight_eq_div_pow]
  rw [Nat.mod_eq_of_lt (a := rhs.toNat) (by omega), Nat.mod_eq_of_lt (a := word.toNat) (by omega)]
  generalize rhs.toNat * word.toNat = m at *
  omega

/-- Two words of 64 bits, or-ed together. -/
theorem toNat_join (a b : BitVec 64) :
    (a.setWidth 128 ||| (b.setWidth 128 <<< 64)).toNat = a.toNat + 2 ^ 64 * b.toNat := by
  have ha := a.isLt
  have hb := b.isLt
  have hor := Nat.two_pow_add_eq_or_of_lt ha b.toNat
  simp only [BitVec.toNat_or, BitVec.toNat_setWidth, BitVec.toNat_shiftLeft, Nat.shiftLeft_eq]
  rw [Nat.mod_eq_of_lt (a := a.toNat) (by omega), Nat.mod_eq_of_lt (a := b.toNat) (by omega),
    Nat.mod_eq_of_lt (by omega), Nat.mul_comm b.toNat, Nat.or_comm, ← hor, Nat.add_comm]

theorem toNat_eq_words (x : U256) :
    x.toNat = (x.lo.setWidth 64).toNat + 2 ^ 64 * ((x.lo >>> 64).setWidth 64).toNat +
      2 ^ 128 * ((x.hi.setWidth 64).toNat + 2 ^ 64 * ((x.hi >>> 64).setWidth 64).toNat) := by
  have h₁ := x.hi.isLt
  have h₂ := x.lo.isLt
  simp only [toNat, BitVec.toNat_setWidth, BitVec.toNat_ushiftRight, Nat.shiftRight_eq_div_pow]
  omega

theorem mulU64_spec (x : U256) (rhs : BitVec 64) :
    (mulU64 x rhs).1.toNat = x.toNat * rhs.toNat % 2 ^ 256 ∧
      ((mulU64 x rhs).2 = true ↔ 2 ^ 256 ≤ x.toNat * rhs.toNat) := by
  unfold mulU64
  dsimp only
  rw [toNat_eq_words x]
  generalize x.lo.setWidth 64 = w₀
  generalize (x.lo >>> 64).setWidth 64 = w₁
  generalize x.hi.setWidth 64 = w₂
  generalize (x.hi >>> 64).setWidth 64 = w₃
  obtain ⟨hc₀, h₀⟩ := @mulStep_spec rhs w₀ 0 (by decide)
  obtain ⟨hc₁, h₁⟩ := mulStep_spec rhs w₁ hc₀
  obtain ⟨hc₂, h₂⟩ := mulStep_spec rhs w₂ hc₁
  obtain ⟨hc₃, h₃⟩ := mulStep_spec rhs w₃ hc₂
  generalize mulStep rhs 0 w₀ = s₀ at *
  generalize mulStep rhs s₀.2 w₁ = s₁ at *
  generalize mulStep rhs s₁.2 w₂ = s₂ at *
  generalize mulStep rhs s₂.2 w₃ = s₃ at *
  have hprod : (w₀.toNat + 2 ^ 64 * w₁.toNat + 2 ^ 128 * (w₂.toNat + 2 ^ 64 * w₃.toNat)) * rhs.toNat =
      rhs.toNat * w₀.toNat + 2 ^ 64 * (rhs.toNat * w₁.toNat) +
        2 ^ 128 * (rhs.toNat * w₂.toNat + 2 ^ 64 * (rhs.toNat * w₃.toNat)) := by
    ring
  have b₀ := s₀.1.isLt
  have b₁ := s₁.1.isLt
  have b₂ := s₂.1.isLt
  have b₃ := s₃.1.isLt
  rw [toNat_zero] at h₀
  rw [hprod]
  simp only [toNat, toNat_join, bne_iff_ne, ne_eq, BitVec.toNat_eq, toNat_zero]
  omega

theorem toNat_lowU32 (x : U256) : (lowU32 x).toNat = x.toNat % 2 ^ 32 := by
  simp only [lowU32, toNat, BitVec.toNat_setWidth]
  omega

theorem toNat_lowU64 (x : U256) : (lowU64 x).toNat = x.toNat % 2 ^ 64 := by
  simp only [lowU64, toNat, BitVec.toNat_setWidth]
  omega

theorem toNat_mulRound (a b ret : U256) {i : ℕ} (hi : i < 4) :
    (mulRound a b ret i).toNat =
      (ret.toNat + a.toNat * (b.toNat / 2 ^ (64 * i) % 2 ^ 64) * 2 ^ (64 * i)) % 2 ^ 256 := by
  have hs : 64 * i < 256 := by omega
  rw [mulRound, toNat_wrappingAdd, toNat_wrappingShl _ hs, (mulU64_spec _ _).1, toNat_lowU64,
    toNat_wrappingShr _ hs, Nat.mod_mul_mod, Nat.add_mod_mod]

/-- The three rounds add up the product with the low 192 bits. -/
theorem toNat_mulRounds (a b : U256) :
    ([0, 1, 2].foldl (mulRound a b) ZERO).toNat = a.toNat * (b.toNat % 2 ^ 192) % 2 ^ 256 := by
  have hdigits : b.toNat % 2 ^ 192 = b.toNat / 2 ^ (64 * 0) % 2 ^ 64 * 2 ^ (64 * 0) +
      b.toNat / 2 ^ (64 * 1) % 2 ^ 64 * 2 ^ (64 * 1) +
      b.toNat / 2 ^ (64 * 2) % 2 ^ 64 * 2 ^ (64 * 2) := by omega
  have hprod : a.toNat * (b.toNat % 2 ^ 192) =
      0 + a.toNat * (b.toNat / 2 ^ (64 * 0) % 2 ^ 64) * 2 ^ (64 * 0) +
        (a.toNat * (b.toNat / 2 ^ (64 * 1) % 2 ^ 64) * 2 ^ (64 * 1) +
          a.toNat * (b.toNat / 2 ^ (64 * 2) % 2 ^ 64) * 2 ^ (64 * 2)) := by
    rw [hdigits]
    ring
  rw [List.foldl_cons, List.foldl_cons, List.foldl_cons, List.foldl_nil,
    toNat_mulRound _ _ _ (by decide), toNat_mulRound _ _ _ (by decide),
    toNat_mulRound _ _ _ (by decide), toNat_ZERO, Nat.mod_add_mod, Nat.add_assoc (_ % _),
    Nat.mod_add_mod, ← hprod]

/-- What `overflowing_mul` computes: the last round neither shifts its product nor sees the carries
of the others. -/
theorem overflowingMul_eq (a b : U256) :
    (overflowingMul a b).1.toNat =
        (a.toNat * (b.toNat % 2 ^ 192) + a.toNat * (b.toNat / 2 ^ 192)) % 2 ^ 256 ∧
      ((overflowingMul a b).2 = true ↔ 2 ^ 256 ≤ a.toNat * (b.toNat / 2 ^ 192) ∨
        2 ^ 256 ≤ a.toNat * (b.toNat % 2 ^ 192) % 2 ^ 256 +
          a.toNat * (b.toNat / 2 ^ 192) % 2 ^ 256) := by
  have hb := b.toNat_lt
  have hlast : (lowU64 (wrappingShr b 192)).toNat = b.toNat / 2 ^ 192 := by
    rw [toNat_lowU64, toNat_wrappingShr _ (by decide)]
    omega
  have hm := mulU64_spec a (lowU64 (wrappingShr b 192))
  rw [hlast] at hm
  unfold overflowingMul
  dsimp only
  have hsum := overflowingAdd_spec ([0, 1, 2].foldl (mulRound a b) ZERO)
    (mulU64 a (lowU64 (wrappingShr b 192))).1
  rw [toNat_mulRounds, hm.1] at hsum
  constructor
  · rw [hsum.1, ← Nat.add_mod]
  · rw [Bool.or_eq_true, hm.2, hsum.2]

/-- Below `2 ^ 192` a product that does not fit is wrapped without a sign. -/
theorem overflowingMul_spec (a : U256) {b : U256} (hb : b.toNat < 2 ^ 192) :
    (overflowingMul a b).1.toNat = a.toNat * b.toNat % 2 ^ 256 ∧ (overflowingMul a b).2 = false := by
  obtain ⟨hval, hflag⟩ := overflowingMul_eq a b
  rw [Nat.div_eq_of_lt hb, Nat.mul_zero, Nat.mod_eq_of_lt hb] at hval hflag
  constructor
  · rw [hval, Nat.add_zero]
  · rw [← Bool.not_eq_true, hflag]
    omega

/-! Division -/

theorem bits_le_iff {x : U256} {k : ℕ} : bits x ≤ k ↔ x.toNat < 2 ^ k := by
  have hhi := x.hi.isLt
  have hlo := x.lo.isLt
  unfold bits leadingZeros
  by_cases h : x.hi = 0
  · rw [if_neg (not_not.mpr h)]
    have hx : x.toNat = x.lo.toNat := by simp [toNat, h]
    by_cases h₀ : x.lo = 0
    · rw [hx, if_pos h₀, h₀]
      simp
    · have hne : x.lo.toNat ≠ 0 := fun h => h₀ (BitVec.eq_of_toNat_eq h)
      have hlog := (Nat.log2_lt hne).mpr hlo
      rw [if_neg h₀, hx, ← Nat.log2_lt hne]
      omega
  · have hne : x.hi.toNat ≠ 0 := fun h' => h (BitVec.eq_of_toNat_eq h')
    have hlog := (Nat.log2_lt hne).mpr hhi
    rw [if_pos h, if_neg h]
    by_cases hk : 128 ≤ k
    · obtain ⟨j, rfl⟩ := Nat.exists_eq_add_of_le hk
      have hpow : x.toNat < 2 ^ (128 + j) ↔ x.hi.toNat < 2 ^ j := by
        rw [toNat, Nat.pow_add]
        constructor
        · intro h
          by_contra hge
          have := Nat.mul_le_mul_right (2 ^ 128) (Nat.le_of_not_lt hge)
          omega
        · intro h
          have := Nat.mul_le_mul_right (2 ^ 128) (Nat.succ_le_of_lt h)
          omega
      rw [hpow, ← Nat.log2_lt hne]
      omega
    · have hpow : 2 ^ k < 2 ^ 128 := Nat.pow_lt_pow_right (by decide) (by omega)
      have hx : 2 ^ 128 ≤ x.toNat := by
        unfold toNat
        omega
      omega

theorem bits_le (x : U256) : bits x ≤ 256 := bits_le_iff.mpr x.toNat_lt

theorem toNat_lt_two_pow_bits (x : U256) : x.toNat < 2 ^ bits x := bits_le_iff.mp le_rfl

theorem two_pow_le_of_lt_bits {x : U256} {k : ℕ} (h : k < bits x) : 2 ^ k ≤ x.toNat := by
  by_contra hlt
  have := bits_le_iff.mpr (Nat.lt_of_not_le hlt)
  omega

theorem bits_eq_zero_iff {x : U256} : bits x = 0 ↔ x.toNat = 0 := by
  rw [← Nat.le_zero, bits_le_iff]
  omega

theorem toNat_or_bit {w : BitVec 128} {k : ℕ} (hk : k < 128) (hw : 2 ^ (k + 1) ∣ w.toNat) :
    (w ||| ((1 : BitVec 128) <<< k)).toNat = w.toNat + 2 ^ k := by
  obtain ⟨d, hd⟩ := hw
  have hpow : (2 : ℕ) ^ k < 2 ^ 128 := Nat.pow_lt_pow_right (by decide) hk
  have hbit : (2 : ℕ) ^ k < 2 ^ (k + 1) := Nat.pow_lt_pow_right (by decide) (Nat.lt_succ_self k)
  rw [BitVec.toNat_or, BitVec.toNat_shiftLeft, toNat_one, Nat.shiftLeft_eq, Nat.one_mul,
    Nat.mod_eq_of_lt hpow, hd, ← Nat.two_pow_add_eq_or_of_lt hbit]

theorem toNat_setBit {x : U256} {k : ℕ} (hk : k < 256) (hx : 2 ^ (k + 1) ∣ x.toNat) :
    (setBit x k).toNat = x.toNat + 2 ^ k := by
  have hlt := x.lo.isLt
  unfold setBit
  by_cases hword : k < 128
  · have hlo : 2 ^ (k + 1) ∣ x.lo.toNat := by
      have hmod : x.lo.toNat = x.toNat % 2 ^ 128 := by
        unfold toNat
        omega
      rw [hmod]
      exact (Nat.dvd_mod_iff (Nat.pow_dvd_pow 2 hword)).mpr hx
    rw [if_pos (by omega), Nat.mod_eq_of_lt hword]
    simp only [toNat, toNat_or_bit hword hlo]
    omega
  · obtain ⟨j, rfl⟩ := Nat.exists_eq_add_of_le (Nat.le_of_not_lt hword)
    have hhi : 2 ^ (j + 1) ∣ x.hi.toNat := by
      have hdiv : x.hi.toNat = x.toNat / 2 ^ 128 := by
        unfold toNat
        omega
      rw [hdiv]
      apply Nat.dvd_div_of_mul_dvd
      rw [← Nat.pow_add]
      exact hx
    have hmod : (128 + j) % 128 = j := by omega
    rw [if_neg (by omega), hmod, Nat.pow_add]
    simp only [toNat, toNat_or_bit (show j < 128 by omega) hhi]
    omega

/-- The invariant of the loop: `shift_copy` is the divisor shifted, what is left is less than twice
that, and no bit of the quotient up to the current one is set. -/
theorem divRemLoop_spec {b : ℕ} (hb : 0 < b) {shift : ℕ} {subCopy shiftCopy ret : U256}
    (hshift : shift < 256) (hcopy : shiftCopy.toNat = b * 2 ^ shift)
    (hsub : subCopy.toNat < b * 2 ^ (shift + 1)) (hret : 2 ^ (shift + 1) ∣ ret.toNat) :
    (divRemLoop shift subCopy shiftCopy ret).1.toNat = ret.toNat + subCopy.toNat / b ∧
      (divRemLoop shift subCopy shiftCopy ret).2.toNat = subCopy.toNat % b := by
  induction shift generalizing subCopy shiftCopy ret with
  | zero =>
    unfold divRemLoop
    dsimp only
    split_ifs with h
    · rw [Nat.pow_zero, Nat.mul_one] at hcopy
      rw [le_iff] at h
      rw [toNat_setBit hshift hret, toNat_wrappingSub h, hcopy]
      rw [hcopy] at h
      have hrest : subCopy.toNat - b < b := by omega
      rw [Nat.div_eq_sub_div hb h, Nat.mod_eq_sub_mod h, Nat.div_eq_of_lt hrest,
        Nat.mod_eq_of_lt hrest]
      exact ⟨rfl, rfl⟩
    · rw [le_iff, hcopy, Nat.pow_zero, Nat.mul_one, Nat.not_le] at h
      rw [Nat.div_eq_of_lt h, Nat.mod_eq_of_lt h, Nat.add_zero]
      exact ⟨rfl, rfl⟩
  | succ n ih =>
    have hhalf : (wrappingShr shiftCopy 1).toNat = b * 2 ^ n := by
      rw [toNat_wrappingShr _ (by decide), hcopy, Nat.pow_succ, ← Nat.mul_assoc]
      omega
    unfold divRemLoop
    dsimp only
    split_ifs with h
    · rw [le_iff, hcopy] at h
      have hrest : (wrappingSub subCopy shiftCopy).toNat = subCopy.toNat - b * 2 ^ (n + 1) := by
        rw [toNat_wrappingSub (by omega), hcopy]
      have hbit := toNat_setBit hshift hret
      have hdvd : 2 ^ (n + 1) ∣ (setBit ret (n + 1)).toNat := by
        rw [hbit]
        exact Nat.dvd_add (Nat.dvd_trans (Nat.pow_dvd_pow 2 (by omega)) hret) (Nat.dvd_refl _)
      have hlt : (wrappingSub subCopy shiftCopy).toNat < b * 2 ^ (n + 1) := by
        rw [hrest]
        rw [Nat.pow_succ 2 (n + 1), ← Nat.mul_assoc] at hsub
        omega
      obtain ⟨hq, hr⟩ := ih (by omega) hhalf hlt hdvd
      have hsplit : subCopy.toNat = subCopy.toNat - b * 2 ^ (n + 1) + b * 2 ^ (n + 1) := by omega
      rw [hq, hr, hbit, hrest]
      constructor
      · conv_rhs => rw [hsplit, Nat.add_mul_div_left _ _ hb]
        omega
      · conv_rhs => rw [hsplit, Nat.add_mul_mod_self_left]
    · rw [le_iff, hcopy, Nat.not_le] at h
      exact ih (by omega) hhalf h (Nat.dvd_trans (Nat.pow_dvd_pow 2 (by omega)) hret)

/-- Shifting a divisor up to the length of the dividend loses no bit. -/
theorem shl_bits_lt {a b : U256} (h : bits b ≤ bits a) :
    b.toNat * 2 ^ (bits a - bits b) < 2 ^ 256 := by
  calc b.toNat * 2 ^ (bits a - bits b)
      < 2 ^ bits b * 2 ^ (bits a - bits b) :=
        Nat.mul_lt_mul_of_pos_right b.toNat_lt_two_pow_bits (Nat.two_pow_pos _)
    _ = 2 ^ bits a := by rw [Nat.mul_comm, Nat.pow_sub_mul_pow 2 h]
    _ ≤ 2 ^ 256 := Nat.pow_le_pow_right (by decide) a.bits_le

theorem divRem_spec {ε : Type} (a : U256) {b : U256} (hb : 0 < b.toNat) :
    ∃ q r : U256, divRem a b = (.ok (q, r) : Outcome ε (U256 × U256)) ∧
      q.toNat = a.toNat / b.toNat ∧ r.toNat = a.toNat % b.toNat := by
  have hbits : bits b ≠ 0 := by
    rw [Ne, bits_eq_zero_iff]
    omega
  have ha := a.toNat_lt_two_pow_bits
  have hlow := two_pow_le_of_lt_bits (x := b) (k := bits b - 1) (by omega)
  unfold divRem
  rw [Outcome.require_of hbits, Outcome.ok_bind]
  by_cases hlt : bits a < bits b
  · have hpow : 2 ^ bits a ≤ 2 ^ (bits b - 1) := Nat.pow_le_pow_right (by decide) (by omega)
    rw [if_pos hlt]
    refine ⟨ZERO, a, rfl, ?_, ?_⟩
    · rw [toNat_ZERO, Nat.div_eq_of_lt (by omega)]
    · rw [Nat.mod_eq_of_lt (by omega)]
  · rw [if_neg hlt]
    have hle := a.bits_le
    have hshl : (wrappingShl b (bits a - bits b)).toNat = b.toNat * 2 ^ (bits a - bits b) := by
      rw [toNat_wrappingShl _ (by omega), Nat.mod_eq_of_lt (shl_bits_lt (Nat.le_of_not_lt hlt))]
    have hsub : a.toNat < b.toNat * 2 ^ (bits a - bits b + 1) := by
      calc a.toNat < 2 ^ bits a := ha
        _ = 2 ^ (bits b - 1) * 2 ^ (bits a - bits b + 1) := by rw [← Nat.pow_add]; congr 1; omega
        _ ≤ b.toNat * 2 ^ (bits a - bits b + 1) := Nat.mul_le_mul_right _ hlow
    have hret : 2 ^ (bits a - bits b + 1) ∣ ZERO.toNat := by simp
    obtain ⟨hq, hr⟩ := divRemLoop_spec hb (by omega) hshl hsub hret
    rw [toNat_ZERO, Nat.zero_add] at hq
    exact ⟨_, _, rfl, hq, hr⟩

/-! The operators -/

variable {ε : Type}

theorem add_spec {a b : U256} (h : a.toNat + b.toNat < 2 ^ 256) :
    ∃ r, add a b = (.ok r : Outcome ε U256) ∧ r.toNat = a.toNat + b.toNat := by
  obtain ⟨hval, hflag⟩ := overflowingAdd_spec a b
  have hno : (overflowingAdd a b).2 = false := by
    rw [← Bool.not_eq_true, hflag]
    omega
  unfold add
  rw [Outcome.require_of hno]
  exact ⟨_, rfl, by rw [hval, Nat.mod_eq_of_lt h]⟩

theorem sub_spec {a b : U256} (h : b.toNat ≤ a.toNat) :
    ∃ r, sub a b = (.ok r : Outcome ε U256) ∧ r.toNat = a.toNat - b.toNat := by
  have hno : (overflowingSub a b).2 = false := by
    rw [← Bool.not_eq_true, (overflowingSub_spec a b).2]
    omega
  unfold sub
  rw [Outcome.require_of hno]
  exact ⟨_, rfl, toNat_wrappingSub h⟩

theorem mul_spec {a b : U256} (hb : b.toNat < 2 ^ 192) (h : a.toNat * b.toNat < 2 ^ 256) :
    ∃ r, mul a b = (.ok r : Outcome ε U256) ∧ r.toNat = a.toNat * b.toNat := by
  obtain ⟨hval, hno⟩ := overflowingMul_spec a hb
  unfold mul
  rw [Outcome.require_of hno]
  exact ⟨_, rfl, by rw [hval, Nat.mod_eq_of_lt h]⟩

theorem div_spec (a : U256) {b : U256} (hb : 0 < b.toNat) :
    ∃ r, div a b = (.ok r : Outcome ε U256) ∧ r.toNat = a.toNat / b.toNat := by
  obtain ⟨q, r, hrun, hq, -⟩ := divRem_spec (ε := ε) a hb
  unfold div
  rw [hrun]
  exact ⟨q, rfl, hq⟩

theorem rem_spec (a : U256) {b : U256} (hb : 0 < b.toNat) :
    ∃ r, rem a b = (.ok r : Outcome ε U256) ∧ r.toNat = a.toNat % b.toNat := by
  obtain ⟨q, r, hrun, -, hr⟩ := divRem_spec (ε := ε) a hb
  unfold rem
  rw [hrun]
  exact ⟨r, rfl, hr⟩

end U256

end RustDogecoin
