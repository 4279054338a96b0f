import RustDogecoin.Lib.Outcome
import Mathlib.Data.Nat.Bitwise

/-!
# Relative lock times

`relative::LockTime` with its `Height` and `Time`, and the part of `Sequence` that encodes them.  Both
`Sequence` and `Time` turn seconds into intervals of 512 seconds on their own; the two agree exactly
as long as rounding up does not leave 32 bits.
-/

namespace RustDogecoin

/-- `a + b` on `u32`, which panics on overflow in builds with overflow checks and wraps in others. -/
def addU32 {ε : Type} (checks : Bool) (a b : UInt32) : Outcome ε UInt32 := do
  .require (checks = true → a.toNat + b.toNat < 2 ^ 32) .overflow
  return a + b

/-- `u16::try_from`. -/
def u16TryFrom (x : UInt32) : Option UInt16 := if x.toNat < 2 ^ 16 then some x.toUInt16 else none

namespace Relative

/-- A relative lock time lock-by-blockheight value. -/
structure Height where
  value : UInt16
  deriving DecidableEq, Repr

/-- A relative lock time lock-by-blocktime value, in intervals of 512 seconds. -/
structure Time where
  value : UInt16
  deriving DecidableEq, Repr

/-- Input time in seconds was too large to be encoded to a 16 bit 512 second interval. -/
structure TimeOverflowError where
  seconds : UInt32
  deriving DecidableEq, Repr

/-- Creates a new `TimeOverflowError` using `seconds`, which are asserted to overflow. -/
def TimeOverflowError.new {ε : Type} (checks : Bool) (seconds : UInt32) :
    Outcome ε TimeOverflowError := do
  let rounded ← addU32 checks seconds 511
  .require (u16TryFrom (rounded / 512) = none) .assertion
  return ⟨seconds⟩

def Height.toConsensusU32 (h : Height) : UInt32 := h.value.toUInt32

namespace Time

/-- Create a `Time` using time intervals where each interval is equivalent to 512 seconds. -/
def from512SecondIntervals (intervals : UInt16) : Time := ⟨intervals⟩

/-- Create a `Time` from seconds with truncating division. -/
def fromSecondsFloor (seconds : UInt32) : Outcome TimeOverflowError Time :=
  let interval := seconds / 512
  if interval ≤ 0xFFFF then .ok (from512SecondIntervals interval.toUInt16) else .err ⟨seconds⟩

/-- Create a `Time` from seconds with ceiling division. -/
def fromSecondsCeil (checks : Bool) (seconds : UInt32) : Outcome TimeOverflowError Time := do
  let rounded ← addU32 checks seconds 511
  let interval := rounded / 512
  if interval ≤ 0xFFFF then .ok (from512SecondIntervals interval.toUInt16) else .err ⟨seconds⟩

def toConsensusU32 (t : Time) : UInt32 := ((1 : UInt32) <<< 22) ||| t.value.toUInt32

end Time

/-- A relative lock time value, representing either a block height or time. -/
inductive LockTime where
  | blocks (h : Height)
  | time (t : Time)
  deriving DecidableEq, Repr

end Relative

/-- Bitcoin transaction input sequence number. -/
abbrev Sequence := UInt32

namespace Sequence

open Relative

/-- BIP-68 relative lock time disable flag mask. -/
def LOCK_TIME_DISABLE_FLAG_MASK : UInt32 := 0x80000000

/-- BIP-68 relative lock time type flag mask. -/
def LOCK_TYPE_MASK : UInt32 := 0x00400000

/-- Returns `true` if the sequence has a relative lock-time. -/
def isRelativeLockTime (s : Sequence) : Bool := s &&& LOCK_TIME_DISABLE_FLAG_MASK == 0

/-- Returns `true` if the sequence number encodes a time interval based relative lock-time. -/
def isTimeLocked (s : Sequence) : Bool := isRelativeLockTime s && s &&& LOCK_TYPE_MASK > 0

/-- Returns the low 16 bits from sequence number. -/
def lowU16 (s : Sequence) : UInt16 := s.toUInt16

/-- Creates a `relative::LockTime` from this `Sequence` number. -/
def toRelativeLockTime (s : Sequence) : Option LockTime :=
  if isRelativeLockTime s then
    let lockValue := lowU16 s
    if isTimeLocked s then some (.time (Time.from512SecondIntervals lockValue))
    else some (.blocks ⟨lockValue⟩)
  else none

/-- Creates a relative lock-time using block height. -/
def fromHeight (height : UInt16) : Sequence := height.toUInt32

/-- Creates a relative lock-time using time intervals of 512 seconds. -/
def from512SecondIntervals (intervals : UInt16) : Sequence := intervals.toUInt32 ||| LOCK_TYPE_MASK

/-- Creates a relative lock-time from seconds with floor division. -/
def fromSecondsFloor (checks : Bool) (seconds : UInt32) : Outcome TimeOverflowError Sequence :=
  match u16TryFrom (seconds / 512) with
  | some interval => .ok (from512SecondIntervals interval)
  | none => do
    let e ← TimeOverflowError.new checks seconds
    .err e

/-- Creates a relative lock-time from seconds with ceiling division. -/
def fromSecondsCeil (checks : Bool) (seconds : UInt32) : Outcome TimeOverflowError Sequence := do
  let rounded ← addU32 checks seconds 511
  match u16TryFrom (rounded / 512) with
  | some interval => .ok (from512SecondIntervals interval)
  | none => do
    let e ← TimeOverflowError.new checks seconds
    .err e

end Sequence

namespace Relative.LockTime

/-- Create a `LockTime` from seconds with truncating division. -/
def fromSecondsFloor (seconds : UInt32) : Outcome TimeOverflowError LockTime := do
  let time ← Time.fromSecondsFloor seconds
  return .time time

/-- Create a `LockTime` from seconds with ceiling division. -/
def fromSecondsCeil (checks : Bool) (seconds : UInt32) : Outcome TimeOverflowError LockTime := do
  let time ← Time.fromSecondsCeil checks seconds
  return .time time

def toConsensusU32 : LockTime → UInt32
  | blocks h => h.toConsensusU32
  | time t => t.toConsensusU32

/-- Encodes the locktime as a sequence number. -/
def toSequence (l : LockTime) : Sequence := l.toConsensusU32

end Relative.LockTime

open Relative

/-! ## The bits of a sequence number -/

namespace Sequence

theorem and_two_pow_eq_zero_iff (s mask : UInt32) {k : ℕ} (hmask : mask.toNat = 2 ^ k) :
    s &&& mask = 0 ↔ s.toNat / 2 ^ k % 2 = 0 := by
  rw [← UInt32.toNat_inj, UInt32.toNat_and, hmask, Nat.and_two_pow,
    Nat.testBit_eq_decide_div_mod_eq]
  have hpos := Nat.two_pow_pos k
  by_cases h : s.toNat / 2 ^ k % 2 = 1
  · rw [h]
    exact iff_of_false (by simp) (by decide)
  · have hzero : s.toNat / 2 ^ k % 2 = 0 := by omega
    rw [hzero]
    exact iff_of_true (by simp) rfl

theorem isRelativeLockTime_iff (s : Sequence) :
    isRelativeLockTime s = true ↔ s.toNat / 2 ^ 31 % 2 = 0 := by
  rw [isRelativeLockTime, beq_iff_eq]
  exact and_two_pow_eq_zero_iff s LOCK_TIME_DISABLE_FLAG_MASK rfl

theorem isTimeLocked_iff (s : Sequence) :
    isTimeLocked s = true ↔ s.toNat / 2 ^ 31 % 2 = 0 ∧ s.toNat / 2 ^ 22 % 2 = 1 := by
  have htype : s &&& LOCK_TYPE_MASK > 0 ↔ s.toNat / 2 ^ 22 % 2 = 1 := by
    have hzero := and_two_pow_eq_zero_iff s LOCK_TYPE_MASK (k := 22) rfl
    rw [gt_iff_lt, UInt32.pos_iff_ne_zero, Ne, hzero]
    omega
  rw [isTimeLocked, Bool.and_eq_true, isRelativeLockTime_iff, decide_eq_true_iff, htype]

theorem toNat_from512SecondIntervals (intervals : UInt16) :
    (from512SecondIntervals intervals).toNat = intervals.toNat + 2 ^ 22 := by
  have hlt := intervals.toNat_lt
  have hmask : LOCK_TYPE_MASK.toNat = 2 ^ 22 * 1 := rfl
  rw [from512SecondIntervals, UInt32.toNat_or, UInt16.toNat_toUInt32, hmask, Nat.or_comm,
    ← Nat.two_pow_add_eq_or_of_lt (by omega), Nat.add_comm, Nat.mul_one]

theorem toNat_fromHeight (height : UInt16) : (fromHeight height).toNat = height.toNat :=
  UInt16.toNat_toUInt32 height

theorem lowU16_eq {s : Sequence} {x : UInt16} (h : s.toNat % 2 ^ 16 = x.toNat) : lowU16 s = x := by
  rw [← UInt16.toNat_inj, ← h]
  exact UInt32.toNat_toUInt16 s

theorem toRelativeLockTime_from512SecondIntervals (intervals : UInt16) :
    toRelativeLockTime (from512SecondIntervals intervals) = some (.time ⟨intervals⟩) := by
  have hlt := intervals.toNat_lt
  have hval := toNat_from512SecondIntervals intervals
  have hlow : lowU16 (from512SecondIntervals intervals) = intervals := lowU16_eq (by omega)
  have htime : isTimeLocked (from512SecondIntervals intervals) = true := by
    rw [isTimeLocked_iff]
    omega
  have hrelative : isRelativeLockTime (from512SecondIntervals intervals) = true := by
    rw [isRelativeLockTime_iff]
    omega
  unfold toRelativeLockTime
  rw [if_pos hrelative, hlow, if_pos htime]
  rfl

theorem toRelativeLockTime_fromHeight (height : UInt16) :
    toRelativeLockTime (fromHeight height) = some (.blocks ⟨height⟩) := by
  have hlt := height.toNat_lt
  have hval := toNat_fromHeight height
  have hlow : lowU16 (fromHeight height) = height := lowU16_eq (by omega)
  have htime : ¬ isTimeLocked (fromHeight height) = true := by
    rw [isTimeLocked_iff]
    omega
  have hrelative : isRelativeLockTime (fromHeight height) = true := by
    rw [isRelativeLockTime_iff]
    omega
  unfold toRelativeLockTime
  rw [if_pos hrelative, hlow, if_neg htime]

/-- A lock time comes back from its sequence number. -/
theorem toRelativeLockTime_toSequence (l : LockTime) : toRelativeLockTime l.toSequence = some l := by
  cases l with
  | blocks h => exact toRelativeLockTime_fromHeight h.value
  | time t =>
    have hsame : (LockTime.time t).toSequence = from512SecondIntervals t.value := UInt32.or_comm _ _
    rw [hsame]
    exact toRelativeLockTime_from512SecondIntervals t.value

end Sequence

/-! ## Seconds as intervals -/

theorem addU32_of {ε : Type} (checks : Bool) {a b : UInt32} (h : a.toNat + b.toNat < 2 ^ 32) :
    (addU32 checks a b : Outcome ε UInt32) = .ok (a + b) := by
  unfold addU32
  rw [Outcome.require_of fun _ => h]
  rfl

theorem u16TryFrom_of_lt {x : UInt32} (h : x.toNat < 2 ^ 16) : u16TryFrom x = some x.toUInt16 :=
  if_pos h

theorem u16TryFrom_of_ge {x : UInt32} (h : 2 ^ 16 ≤ x.toNat) : u16TryFrom x = none :=
  if_neg (Nat.not_lt.mpr h)

theorem toNat_div_512 (s : UInt32) : (s / 512).toNat = s.toNat / 512 := UInt32.toNat_div s 512

theorem toNat_add_511 {s : UInt32} (h : s.toNat + 511 < 2 ^ 32) : (s + 511).toNat = s.toNat + 511 := by
  rw [UInt32.toNat_add]
  exact Nat.mod_eq_of_lt h

/-- Both results stand for `n` intervals if these fit in 16 bits, and are errors otherwise. -/
def AgreeOn (n : ℕ) (sequence : Outcome TimeOverflowError Sequence)
    (lockTime : Outcome TimeOverflowError LockTime) : Prop :=
  if n < 2 ^ 16 then
    ∃ s t, sequence = .ok s ∧ Sequence.toRelativeLockTime s = some (.time t) ∧
      lockTime = .ok (.time t) ∧ t.value.toNat = n
  else ∃ e e', sequence = .err e ∧ lockTime = .err e'

/-- `Sequence` and `LockTime` agree on the intervals in `s` seconds, rounded down and up. -/
def SecondsAgree (checks : Bool) (s : UInt32) : Prop :=
  AgreeOn (s.toNat / 512) (Sequence.fromSecondsFloor checks s) (LockTime.fromSecondsFloor s) ∧
    AgreeOn ((s.toNat + 511) / 512) (Sequence.fromSecondsCeil checks s)
      (LockTime.fromSecondsCeil checks s)

/-- Intervals that fit are the same on both sides. -/
theorem agreeOn_ok {n : ℕ} {interval : UInt32} (hn : n < 2 ^ 16) (hval : interval.toNat = n) :
    AgreeOn n (.ok (Sequence.from512SecondIntervals interval.toUInt16))
      (.ok (.time (Time.from512SecondIntervals interval.toUInt16))) := by
  unfold AgreeOn
  rw [if_pos hn]
  refine ⟨_, ⟨interval.toUInt16⟩, rfl,
    Sequence.toRelativeLockTime_from512SecondIntervals _, rfl, ?_⟩
  show interval.toUInt16.toNat = n
  rw [UInt32.toNat_toUInt16, hval, Nat.mod_eq_of_lt hn]

/-- Below the top of the range the assertion of the error holds. -/
theorem timeOverflowError_new {ε : Type} (checks : Bool) {s : UInt32} (h : s.toNat + 511 < 2 ^ 32)
    (hbig : 2 ^ 16 ≤ (s.toNat + 511) / 512) :
    (TimeOverflowError.new checks s : Outcome ε TimeOverflowError) = .ok ⟨s⟩ := by
  have hround : u16TryFrom ((s + 511) / 512) = none := by
    apply u16TryFrom_of_ge
    rw [toNat_div_512, toNat_add_511 h]
    exact hbig
  unfold TimeOverflowError.new
  rw [addU32_of checks h, Outcome.ok_bind, Outcome.require_of hround]
  rfl

theorem le_ffff_iff (x : UInt32) : x ≤ 0xFFFF ↔ x.toNat < 2 ^ 16 := by
  rw [UInt32.le_iff_toNat_le]
  show x.toNat ≤ 0xFFFF ↔ _
  omega

theorem agree_floor (checks : Bool) {s : UInt32} (h : s.toNat + 511 < 2 ^ 32) :
    AgreeOn (s.toNat / 512) (Sequence.fromSecondsFloor checks s) (LockTime.fromSecondsFloor s) := by
  have hval := toNat_div_512 s
  unfold Sequence.fromSecondsFloor LockTime.fromSecondsFloor Time.fromSecondsFloor
  dsimp only
  by_cases hfit : s.toNat / 512 < 2 ^ 16
  · rw [u16TryFrom_of_lt (by rw [hval]; exact hfit), if_pos ((le_ffff_iff _).mpr (by rw [hval]; exact hfit))]
    exact agreeOn_ok hfit hval
  · have hnone : u16TryFrom (s / 512) = none :=
      u16TryFrom_of_ge (by rw [hval]; exact Nat.le_of_not_lt hfit)
    rw [hnone, if_neg (by rw [le_ffff_iff, hval]; exact hfit)]
    dsimp only
    rw [timeOverflowError_new checks h (by omega)]
    unfold AgreeOn
    rw [if_neg hfit]
    exact ⟨⟨s⟩, ⟨s⟩, rfl, rfl⟩

theorem agree_ceil (checks : Bool) {s : UInt32} (h : s.toNat + 511 < 2 ^ 32) :
    AgreeOn ((s.toNat + 511) / 512) (Sequence.fromSecondsCeil checks s)
      (LockTime.fromSecondsCeil checks s) := by
  have hval : ((s + 511) / 512).toNat = (s.toNat + 511) / 512 := by
    rw [toNat_div_512, toNat_add_511 h]
  unfold Sequence.fromSecondsCeil LockTime.fromSecondsCeil Time.fromSecondsCeil
  rw [addU32_of checks h, Outcome.ok_bind, Outcome.ok_bind]
  dsimp only
  by_cases hfit : (s.toNat + 511) / 512 < 2 ^ 16
  · rw [u16TryFrom_of_lt (by rw [hval]; exact hfit),
      if_pos ((le_ffff_iff _).mpr (by rw [hval]; exact hfit))]
    exact agreeOn_ok hfit hval
  · have hnone : u16TryFrom ((s + 511) / 512) = none :=
      u16TryFrom_of_ge (by rw [hval]; exact Nat.le_of_not_lt hfit)
    rw [hnone, if_neg (by rw [le_ffff_iff, hval]; exact hfit)]
    dsimp only
    rw [timeOverflowError_new checks h (Nat.le_of_not_lt hfit)]
    unfold AgreeOn
    rw [if_neg hfit]
    exact ⟨⟨s⟩, ⟨s⟩, rfl, rfl⟩

/-- At the top of the range the error itself panics: on the addition, or on its assertion once that
has wrapped. -/
theorem timeOverflowError_new_panics {ε : Type} (checks : Bool) {s : UInt32}
    (h : ¬ s.toNat + 511 < 2 ^ 32) :
    ∃ p, (TimeOverflowError.new checks s : Outcome ε TimeOverflowError) = .panic p := by
  have hs := s.toNat_lt
  unfold TimeOverflowError.new addU32
  cases checks with
  | true =>
    refine ⟨.overflow, ?_⟩
    rw [Outcome.require, if_neg fun hle => h (hle rfl)]
    rfl
  | false =>
    have hwrap : ((s + 511) / 512).toNat = (s.toNat + 511) % 2 ^ 32 / 512 := by
      rw [toNat_div_512, UInt32.toNat_add]
      rfl
    have hfit : ¬ u16TryFrom ((s + 511) / 512) = none := by
      rw [u16TryFrom_of_lt (by omega)]
      exact Option.some_ne_none _
    refine ⟨.assertion, ?_⟩
    rw [Outcome.require_of fun hfalse => absurd hfalse Bool.false_ne_true, Outcome.ok_bind]
    show (Outcome.require (u16TryFrom ((s + 511) / 512) = none) .assertion >>= _) = _
    rw [Outcome.require, if_neg hfit]
    rfl

/-- The two agree on every number of seconds but the last 511, in builds with overflow checks and in
builds without. -/
theorem secondsAgree_iff (checks : Bool) (s : UInt32) :
    SecondsAgree checks s ↔ s.toNat + 511 < 2 ^ 32 := by
  constructor
  · intro hagree
    by_contra h
    have hbig : ¬ s.toNat / 512 < 2 ^ 16 := by omega
    obtain ⟨p, hpanic⟩ := timeOverflowError_new_panics (ε := TimeOverflowError) checks h
    have hnone : u16TryFrom (s / 512) = none :=
      u16TryFrom_of_ge (by rw [toNat_div_512]; exact Nat.le_of_not_lt hbig)
    have hfloor := hagree.1
    unfold AgreeOn Sequence.fromSecondsFloor at hfloor
    rw [if_neg hbig, hnone] at hfloor
    dsimp only at hfloor
    rw [hpanic] at hfloor
    obtain ⟨e, e', hseq, -⟩ := hfloor
    cases hseq
  · intro h
    exact ⟨agree_floor checks h, agree_ceil checks h⟩

/-- The last second of the range: rounding down panics, and without overflow checks rounding up
gives a lock time of zero. -/
theorem secondsAgree_fails_at_max :
    Sequence.fromSecondsFloor true 0xFFFFFFFF = .panic .overflow ∧
      Sequence.fromSecondsFloor false 0xFFFFFFFF = .panic .assertion ∧
      LockTime.fromSecondsCeil false 0xFFFFFFFF = .ok (.time ⟨0⟩) ∧
      ¬ SecondsAgree true 0xFFFFFFFF ∧ ¬ SecondsAgree false 0xFFFFFFFF := by
  have hchecked : Sequence.fromSecondsFloor true 0xFFFFFFFF = .panic .overflow := by decide
  have hunchecked : Sequence.fromSecondsFloor false 0xFFFFFFFF = .panic .assertion := by decide
  have hbig : ¬ (0xFFFFFFFF : UInt32).toNat / 512 < 2 ^ 16 := by decide
  refine ⟨hchecked, hunchecked, by decide, fun h => ?_, fun h => ?_⟩
  · have hfloor := h.1
    rw [AgreeOn, if_neg hbig, hchecked] at hfloor
    obtain ⟨e, e', hseq, -⟩ := hfloor
    cases hseq
  · have hfloor := h.1
    rw [AgreeOn, if_neg hbig, hunchecked] at hfloor
    obtain ⟨e, e', hseq, -⟩ := hfloor
    cases hseq

end RustDogecoin
