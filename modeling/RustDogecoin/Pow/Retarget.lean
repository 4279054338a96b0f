import RustDogecoin.Dogecoin.Header
import RustDogecoin.Dogecoin.Params
import Mathlib.Data.Int.Bitwise

/-!
# Retargeting

The Dogecoin difficulty adjustment of `pow.rs` and the thresholds that are to bound one step of it.
`fromNextWorkRequiredDogecoin_spec` computes a step in exact arithmetic; the thresholds are then
compared with the two ends of its range.
-/

namespace RustDogecoin

open Dogecoin

/-- The result of an operation on `i64`, which panics on overflow. -/
def checkedI64 {ε : Type} (x : ℤ) : Outcome ε ℤ := do
  .require (-2 ^ 63 ≤ x ∧ x < 2 ^ 63) .overflow
  return x

/-- `i64 << k`, which drops the high bits. -/
def shlI64 (x : ℤ) (k : ℕ) : ℤ := Int.bmod (x * 2 ^ k) (2 ^ 64)

/-- `x as u64`, as a 256-bit number. -/
def U256.ofI64 (x : ℤ) : U256 := .ofWord ((BitVec.ofInt 64 x).setWidth 128)

/-- `Ord::clamp`. -/
def clamp {ε : Type} (x min max : ℤ) : Outcome ε ℤ := do
  .require (min ≤ max) .assertion
  return if x < min then min else if max < x then max else x

/-- `cmp::min`. -/
def U256.cmpMin (a b : U256) : U256 := if le a b then a else b

theorem checkedI64_of {ε : Type} {x : ℤ} (h : -2 ^ 63 ≤ x ∧ x < 2 ^ 63) :
    (checkedI64 x : Outcome ε ℤ) = .ok x := by
  unfold checkedI64
  rw [Outcome.require_of h]
  rfl

theorem clamp_of {ε : Type} {x lo hi : ℤ} (h : lo ≤ hi) :
    (clamp x lo hi : Outcome ε ℤ) = .ok (max lo (min hi x)) := by
  unfold clamp
  rw [Outcome.require_of h]
  simp only [Outcome.ok_bind, Outcome.pure_eq_ok, Outcome.ok.injEq]
  split_ifs <;> omega

theorem U256.toNat_ofI64 {x : ℤ} (h₀ : 0 ≤ x) (h₁ : x < 2 ^ 64) : (U256.ofI64 x).toNat = x.toNat := by
  rw [U256.ofI64, U256.toNat_ofWord, BitVec.toNat_setWidth, BitVec.toNat_ofInt]
  omega

theorem U256.toNat_cmpMin (a b : U256) : (U256.cmpMin a b).toNat = min a.toNat b.toNat := by
  unfold U256.cmpMin
  split_ifs with h
  · exact (Nat.min_eq_left (U256.le_iff.mp h)).symm
  · rw [U256.le_iff] at h
    exact (Nat.min_eq_right (by omega)).symm

namespace Target

/-- Computes the minimum valid `Target` threshold allowed for a block in which a difficulty
adjustment occurs for Dogecoin. -/
def minTransitionThresholdDogecoin (t : Target) (params : Params) (height : UInt32) :
    Outcome Empty Target :=
  if params.isDigishieldActivated height then U256.sub t (U256.wrappingShr t 2)
  else if height.toNat ≤ 5000 then return U256.wrappingShr t 4
  else if height.toNat ≤ 10000 then return U256.wrappingShr t 3
  else return U256.wrappingShr t 2

def maxTransitionThresholdUnchecked (t : Target) : Target := U256.wrappingShl t 2

/-- Computes the maximum valid `Target` threshold allowed for a block in which a difficulty
adjustment occurs for Dogecoin. -/
def maxTransitionThresholdDogecoin (t : Target) (params : Params) (height : UInt32) :
    Outcome Empty Target := do
  if params.isDigishieldActivated height then
    let s ← U256.add t (U256.wrappingShr t 1)
    return U256.cmpMin s params.maxAttainableTarget
  else return U256.cmpMin (maxTransitionThresholdUnchecked t) params.maxAttainableTarget

end Target

namespace CompactTarget

/-- The timespan that the retarget works with, before and after it is clamped. -/
def modulateTimespan (timespan : ℤ) (params : Params) (height : UInt32) : Outcome Empty ℤ := do
  let retargetTimespan := params.powTargetTimespan height
  if params.isDigishieldActivated height then
    let deviation ← checkedI64 (timespan - retargetTimespan)
    let modulatedTimespan ← checkedI64 (retargetTimespan + deviation.tdiv 8)
    let minTimespan ← checkedI64 (retargetTimespan - (retargetTimespan >>> 2))
    let maxTimespan ← checkedI64 (retargetTimespan + (retargetTimespan >>> 1))
    clamp modulatedTimespan minTimespan maxTimespan
  else
    let maxTimespan := shlI64 retargetTimespan 2
    let minTimespan :=
      if height.toNat ≤ 5000 then retargetTimespan >>> 4
      else if height.toNat ≤ 10000 then retargetTimespan >>> 3
      else retargetTimespan >>> 2
    clamp timespan minTimespan maxTimespan

/-- Computes the `CompactTarget` from a difficulty adjustment in Dogecoin. -/
def fromNextWorkRequiredDogecoin (last : CompactTarget) (timespan : ℤ) (params : Params)
    (height : UInt32) : Outcome Empty CompactTarget := do
  if params.noPowRetargeting then return last
  else
    let modulatedTimespan ← modulateTimespan timespan params height
    let prevTarget := Target.fromCompact last
    let maximumRetarget ← Target.maxTransitionThresholdDogecoin prevTarget params height
    let retarget ← U256.mul prevTarget (.ofI64 modulatedTimespan)
    let retarget ← U256.div retarget (.ofI64 (params.powTargetTimespan height))
    if U256.le maximumRetarget retarget then return Target.toCompactLossy maximumRetarget
    else return Target.toCompactLossy retarget

/-- The signed difference of two header times. -/
def headerTimespan (first last : UInt32) : ℤ := (last.toNat : ℤ) - (first.toNat : ℤ)

/-- Computes the `CompactTarget` from a difficulty adjustment, assuming these are the relevant block
headers, in the Dogecoin network. -/
def fromHeaderDifficultyAdjustmentDogecoin (lastEpochBoundary current : Dogecoin.Header)
    (params : Params) (height : UInt32) : Outcome Empty CompactTarget := do
  let timespan ← checkedI64 (headerTimespan lastEpochBoundary.pureHeader.time
    current.pureHeader.time)
  fromNextWorkRequiredDogecoin current.pureHeader.bits timespan params height

/-! ## One step in exact arithmetic -/

/-- The timespan of a step: damped and clamped around the expected one under Digishield, clamped
only before it. -/
def expectedTimespan (params : Params) (height : UInt32) (d : ℤ) : ℤ :=
  let R := params.powTargetTimespan height
  if params.isDigishieldActivated height then
    max (R - R / 4) (min (R + R / 2) (R + (d - R).tdiv 8))
  else
    max (R / (if height.toNat ≤ 5000 then 16 else if height.toNat ≤ 10000 then 8 else 4))
      (min (4 * R) d)

/-! The values on the public networks. -/

def publicTimespan (height : UInt32) : ℕ := if 145000 ≤ height.toNat then 60 else 14400

/-- The least timespan that a step at this height works with. -/
def leastTimespan (height : UInt32) : ℕ :=
  if 145000 ≤ height.toNat then 45
  else if height.toNat ≤ 5000 then 900 else if height.toNat ≤ 10000 then 1800 else 3600

/-- The greatest timespan that a step at this height works with. -/
def greatestTimespan (height : UInt32) : ℕ := if 145000 ≤ height.toNat then 90 else 57600

theorem publicTimespan_pos (height : UInt32) : 0 < publicTimespan height := by
  unfold publicTimespan
  split_ifs <;> decide

theorem leastTimespan_pos (height : UInt32) : 0 < leastTimespan height := by
  unfold leastTimespan
  split_ifs <;> decide

theorem leastTimespan_le (height : UInt32) : leastTimespan height ≤ greatestTimespan height := by
  unfold leastTimespan greatestTimespan
  split_ifs <;> decide

theorem greatestTimespan_le (height : UInt32) : greatestTimespan height ≤ 57600 := by
  unfold greatestTimespan
  split_ifs <;> decide

theorem mul_greatestTimespan_div (n : ℕ) (height : UInt32) :
    n * greatestTimespan height / publicTimespan height =
      if 145000 ≤ height.toNat then n + n / 2 else n * 4 := by
  unfold greatestTimespan publicTimespan
  split_ifs <;> omega

section

variable {p : Params} (hp : p.IsPublic)

include hp

theorem modulateTimespan_spec (height first last : UInt32) :
    modulateTimespan (headerTimespan first last) p height =
      .ok (expectedTimespan p height (headerTimespan first last)) := by
  have hfirst := first.toNat_lt
  have hlast := last.toNat_lt
  have hR := hp.powTargetTimespan height
  have hd := hp.isDigishieldActivated height
  unfold modulateTimespan expectedTimespan headerTimespan
  by_cases h : 145000 ≤ height.toNat
  · rw [if_pos h] at hR
    have hdamp := Int.natAbs_tdiv_le_natAbs ((last.toNat : ℤ) - (first.toNat : ℤ) - 60) 8
    rw [hR, if_pos (hd.mpr h), if_pos (hd.mpr h), checkedI64_of (by omega), Outcome.ok_bind,
      checkedI64_of (by omega), Outcome.ok_bind, checkedI64_of (by decide), Outcome.ok_bind,
      checkedI64_of (by decide), Outcome.ok_bind, clamp_of (by decide)]
    rfl
  · rw [if_neg h] at hR
    rw [hR, if_neg (mt hd.mp h), if_neg (mt hd.mp h)]
    dsimp only
    split_ifs <;> rw [clamp_of (by decide)] <;> rfl

theorem powTargetTimespan_eq (height : UInt32) :
    p.powTargetTimespan height = (publicTimespan height : ℤ) := by
  rw [hp.powTargetTimespan height, publicTimespan]
  split_ifs <;> rfl

theorem expectedTimespan_eq (height : UInt32) (d : ℤ) :
    expectedTimespan p height d =
      max (leastTimespan height : ℤ) (min (greatestTimespan height : ℤ)
        (if 145000 ≤ height.toNat then 60 + (d - 60).tdiv 8 else d)) := by
  have hR := hp.powTargetTimespan height
  have hd := hp.isDigishieldActivated height
  unfold expectedTimespan leastTimespan greatestTimespan
  by_cases h : 145000 ≤ height.toNat
  · rw [if_pos h] at hR
    rw [hR, if_pos (hd.mpr h), if_pos h, if_pos h, if_pos h]
    rfl
  · rw [if_neg h] at hR
    rw [hR, if_neg (mt hd.mp h), if_neg h, if_neg h, if_neg h]
    split_ifs <;> rfl

theorem expectedTimespan_mem (height : UInt32) (d : ℤ) :
    ∃ s : ℕ, expectedTimespan p height d = (s : ℤ) ∧ leastTimespan height ≤ s ∧
      s ≤ greatestTimespan height := by
  have hle := leastTimespan_le height
  rw [expectedTimespan_eq hp]
  generalize (if 145000 ≤ height.toNat then 60 + (d - 60).tdiv 8 else d) = m
  exact ⟨(max (leastTimespan height : ℤ) (min (greatestTimespan height : ℤ) m)).toNat,
    by omega, by omega, by omega⟩

theorem maxTransitionThresholdDogecoin_spec {t : Target}
    (ht : t.toNat ≤ p.maxAttainableTarget.toNat) (height : UInt32) :
    ∃ r, Target.maxTransitionThresholdDogecoin t p height = .ok r ∧
      r.toNat = min (if 145000 ≤ height.toNat then t.toNat + t.toNat / 2 else t.toNat * 4)
        p.maxAttainableTarget.toNat := by
  have hd := hp.isDigishieldActivated height
  have hmax := hp.maxAttainableTarget
  unfold Target.maxTransitionThresholdDogecoin
  by_cases h : 145000 ≤ height.toNat
  · have hshr := U256.toNat_wrappingShr t (s := 1) (by decide)
    obtain ⟨s, hs, hval⟩ := U256.add_spec (ε := Empty) (a := t) (b := U256.wrappingShr t 1)
      (by rw [hshr]; omega)
    rw [if_pos (hd.mpr h), if_pos h, hs]
    refine ⟨_, rfl, ?_⟩
    rw [U256.toNat_cmpMin, hval, hshr, Nat.pow_one]
  · rw [if_neg (mt hd.mp h), if_neg h]
    refine ⟨_, rfl, ?_⟩
    rw [U256.toNat_cmpMin, Target.maxTransitionThresholdUnchecked,
      U256.toNat_wrappingShl _ (by decide), Nat.mod_eq_of_lt (by omega)]
    rfl

/-- The product of a step fits, which the overflow flag of `mul` would not tell. -/
theorem product_lt {t : Target} (ht : t.toNat ≤ p.maxAttainableTarget.toNat) {s : ℕ}
    (hs : s ≤ 57600) : t.toNat * s < 2 ^ 256 := by
  rw [hp.maxAttainableTarget] at ht
  calc t.toNat * s ≤ (0xFFFFF * 2 ^ 216) * 57600 := Nat.mul_le_mul ht hs
    _ < 2 ^ 256 := by decide

theorem fromNextWorkRequiredDogecoin_spec (c : CompactTarget)
    (hc : (Target.fromCompact c).toNat ≤ p.maxAttainableTarget.toNat)
    (height first last : UInt32) :
    ∃ t : Target, fromNextWorkRequiredDogecoin c (headerTimespan first last) p height =
        .ok (Target.toCompactLossy t) ∧
      t.toNat = min ((Target.fromCompact c).toNat *
          (expectedTimespan p height (headerTimespan first last)).toNat /
            (p.powTargetTimespan height).toNat)
        p.maxAttainableTarget.toNat := by
  obtain ⟨s, hs, -, hle⟩ := expectedTimespan_mem hp height (headerTimespan first last)
  obtain ⟨maximumRetarget, hthreshold, hval⟩ := maxTransitionThresholdDogecoin_spec hp hc height
  have hR := powTargetTimespan_eq hp height
  have hRpos := publicTimespan_pos height
  have hRlt : publicTimespan height < 2 ^ 64 := by
    unfold publicTimespan
    split_ifs <;> decide
  have hslt := Nat.le_trans hle (greatestTimespan_le height)
  have hprod := product_lt hp hc hslt
  -- a product with the greatest timespan is what the threshold is the minimum of
  have hstep : (Target.fromCompact c).toNat * s / publicTimespan height ≤
      if 145000 ≤ height.toNat then (Target.fromCompact c).toNat + (Target.fromCompact c).toNat / 2
      else (Target.fromCompact c).toNat * 4 := by
    rw [← mul_greatestTimespan_div]
    exact Nat.div_le_div_right (Nat.mul_le_mul_left _ hle)
  have hsval : (U256.ofI64 s).toNat = s := by
    rw [U256.toNat_ofI64 (by omega) (by omega), Int.toNat_natCast]
  have hRval : (U256.ofI64 (publicTimespan height)).toNat = publicTimespan height := by
    rw [U256.toNat_ofI64 (by omega) (by omega), Int.toNat_natCast]
  obtain ⟨product, hmul, hproduct⟩ := U256.mul_spec (ε := Empty) (a := Target.fromCompact c)
    (b := .ofI64 s) (by omega) (by rw [hsval]; exact hprod)
  obtain ⟨retarget, hdiv, hretarget⟩ := U256.div_spec (ε := Empty) product
    (b := .ofI64 (publicTimespan height)) (by omega)
  rw [hproduct, hsval, hRval] at hretarget
  unfold fromNextWorkRequiredDogecoin
  rw [hp.noPowRetargeting, if_neg Bool.false_ne_true, modulateTimespan_spec hp, Outcome.ok_bind]
  dsimp only
  rw [hthreshold, Outcome.ok_bind, hs, hR, hmul, Outcome.ok_bind, hdiv, Outcome.ok_bind,
    Int.toNat_natCast, Int.toNat_natCast, ← hretarget]
  rw [← hretarget] at hstep
  have hmin : min retarget.toNat maximumRetarget.toNat =
      min retarget.toNat p.maxAttainableTarget.toNat := by
    rw [hval, ← Nat.min_assoc, Nat.min_eq_left hstep]
  rw [← hmin]
  split_ifs with hge
  · rw [U256.le_iff] at hge
    exact ⟨maximumRetarget, rfl, (Nat.min_eq_right hge).symm⟩
  · rw [U256.le_iff] at hge
    exact ⟨retarget, rfl, (Nat.min_eq_left (Nat.le_of_not_le hge)).symm⟩

/-- On the public networks a step gives the compact form of `min (T * S / R) max`, with nothing
divided by zero and no product or shift that does not fit. -/
theorem retarget_is_exact (c : CompactTarget)
    (hc : (Target.fromCompact c).toNat ≤ p.maxAttainableTarget.toNat)
    (height first last : UInt32) :
    0 < p.powTargetTimespan height ∧
      0 < expectedTimespan p height (headerTimespan first last) ∧
      (Target.fromCompact c).toNat *
        (expectedTimespan p height (headerTimespan first last)).toNat < 2 ^ 256 ∧
      (Target.fromCompact c).toNat * 4 < 2 ^ 256 ∧
      ∃ t : Target, fromNextWorkRequiredDogecoin c (headerTimespan first last) p height =
          .ok (Target.toCompactLossy t) ∧
        t.toNat = min ((Target.fromCompact c).toNat *
            (expectedTimespan p height (headerTimespan first last)).toNat /
              (p.powTargetTimespan height).toNat)
          p.maxAttainableTarget.toNat := by
  obtain ⟨s, hs, hleast, hgreatest⟩ := expectedTimespan_mem hp height (headerTimespan first last)
  have hmax := hp.maxAttainableTarget
  have hpos : 0 < s := Nat.lt_of_lt_of_le (leastTimespan_pos height) hleast
  have hprod := product_lt hp hc (Nat.le_trans hgreatest (greatestTimespan_le height))
  refine ⟨?_, ?_, ?_, by omega, fromNextWorkRequiredDogecoin_spec hp c hc height first last⟩
  · rw [powTargetTimespan_eq hp]
    exact_mod_cast publicTimespan_pos height
  · rw [hs]
    exact_mod_cast hpos
  · rw [hs, Int.toNat_natCast]
    exact hprod

end

theorem retarget_is_exact_genesis :
    (Target.fromCompact 0x1e0ffff0).toNat ≤ Params.MAINNET.maxAttainableTarget.toNat ∧
      ∃ t : Target, fromNextWorkRequiredDogecoin 0x1e0ffff0 (headerTimespan 1386325540 1386475638)
          .MAINNET 240 = .ok (Target.toCompactLossy t) ∧
        t.toNat = min ((Target.fromCompact 0x1e0ffff0).toNat *
            (expectedTimespan .MAINNET 240 (headerTimespan 1386325540 1386475638)).toNat /
              (Params.MAINNET.powTargetTimespan 240).toNat)
          Params.MAINNET.maxAttainableTarget.toNat :=
  ⟨by decide +kernel, (retarget_is_exact (Or.inl rfl) 0x1e0ffff0 (by decide +kernel) 240 1386325540
    1386475638).2.2.2.2⟩

/-! ## The thresholds against the range of a step -/

/-- The thresholds, rounded to the compact form, are the least and the greatest target that one step
can lead to, and the two ends of the time axis lead there. -/
def ThresholdsAreRange (p : Params) (height : UInt32) (c : CompactTarget) : Prop :=
  ∃ lo hi : Target,
    Target.minTransitionThresholdDogecoin (Target.fromCompact c) p height = .ok lo ∧
    Target.maxTransitionThresholdDogecoin (Target.fromCompact c) p height = .ok hi ∧
    (∀ first last : UInt32, ∃ r,
      fromNextWorkRequiredDogecoin c (headerTimespan first last) p height = .ok r ∧
        (Target.fromCompact (Target.toCompactLossy lo)).toNat ≤ (Target.fromCompact r).toNat ∧
        (Target.fromCompact r).toNat ≤ (Target.fromCompact (Target.toCompactLossy hi)).toNat) ∧
    (∃ r, fromNextWorkRequiredDogecoin c (headerTimespan 0xFFFFFFFF 0) p height = .ok r ∧
      Target.fromCompact r = Target.fromCompact (Target.toCompactLossy lo)) ∧
    (∃ r, fromNextWorkRequiredDogecoin c (headerTimespan 0 0xFFFFFFFF) p height = .ok r ∧
      Target.fromCompact r = Target.fromCompact (Target.toCompactLossy hi))

theorem mul_leastTimespan_div_le (n : ℕ) (height : UInt32) :
    n * leastTimespan height / publicTimespan height ≤ n := by
  unfold leastTimespan publicTimespan
  split_ifs <;> omega

/-- When the lower threshold is the least step in exact arithmetic. -/
theorem minThreshold_eq_iff (n : ℕ) (height : UInt32) :
    (if 145000 ≤ height.toNat then n - n / 4
      else n * leastTimespan height / publicTimespan height) =
        n * leastTimespan height / publicTimespan height ↔ height.toNat < 145000 ∨ 4 ∣ n := by
  by_cases h : 145000 ≤ height.toNat
  · simp only [leastTimespan, publicTimespan, if_pos h]
    omega
  · simp only [if_neg h, true_iff]
    omega

section

variable {p : Params} (hp : p.IsPublic)

include hp

theorem minTransitionThresholdDogecoin_spec (t : Target) (height : UInt32) :
    ∃ r, Target.minTransitionThresholdDogecoin t p height = .ok r ∧
      r.toNat = if 145000 ≤ height.toNat then t.toNat - t.toNat / 4
        else t.toNat * leastTimespan height / publicTimespan height := by
  have hd := hp.isDigishieldActivated height
  unfold Target.minTransitionThresholdDogecoin leastTimespan publicTimespan
  by_cases h : 145000 ≤ height.toNat
  · have hshr := U256.toNat_wrappingShr t (s := 2) (by decide)
    obtain ⟨r, hr, hval⟩ := U256.sub_spec (ε := Empty) (a := t) (b := U256.wrappingShr t 2)
      (by rw [hshr]; omega)
    rw [if_pos (hd.mpr h), if_pos h]
    exact ⟨r, hr, by rw [hval, hshr]; rfl⟩
  · rw [if_neg (mt hd.mp h)]
    simp only [if_neg h]
    split_ifs
    · exact ⟨_, rfl, by rw [U256.toNat_wrappingShr _ (by decide)]; omega⟩
    · exact ⟨_, rfl, by rw [U256.toNat_wrappingShr _ (by decide)]; omega⟩
    · exact ⟨_, rfl, by rw [U256.toNat_wrappingShr _ (by decide)]; omega⟩

/-- The target that a step leads to, read back from the compact form. -/
theorem toNat_fromNextWorkRequiredDogecoin (c : CompactTarget)
    (hc : (Target.fromCompact c).toNat ≤ p.maxAttainableTarget.toNat)
    (height first last : UInt32) :
    ∃ r, fromNextWorkRequiredDogecoin c (headerTimespan first last) p height = .ok r ∧
      (Target.fromCompact r).toNat = Target.compactGrid.floor (min ((Target.fromCompact c).toNat *
        (expectedTimespan p height (headerTimespan first last)).toNat / publicTimespan height)
          p.maxAttainableTarget.toNat) := by
  obtain ⟨t, hrun, ht⟩ := fromNextWorkRequiredDogecoin_spec hp c hc height first last
  refine ⟨_, hrun, ?_⟩
  rw [Target.toNat_fromCompact_toCompactLossy, ht, powTargetTimespan_eq hp, Int.toNat_natCast]

theorem expectedTimespan_shortest (height : UInt32) :
    expectedTimespan p height (headerTimespan 0xFFFFFFFF 0) = leastTimespan height := by
  have hle := leastTimespan_le height
  rw [expectedTimespan_eq hp]
  have hearly : (if 145000 ≤ height.toNat then
      60 + (headerTimespan 0xFFFFFFFF 0 - 60).tdiv 8 else headerTimespan 0xFFFFFFFF 0) < 0 := by
    split_ifs <;> decide
  omega

theorem expectedTimespan_longest (height : UInt32) :
    expectedTimespan p height (headerTimespan 0 0xFFFFFFFF) = greatestTimespan height := by
  have hle := leastTimespan_le height
  have hgreatest := greatestTimespan_le height
  rw [expectedTimespan_eq hp]
  have hlate : 57600 < (if 145000 ≤ height.toNat then
      60 + (headerTimespan 0 0xFFFFFFFF - 60).tdiv 8 else headerTimespan 0 0xFFFFFFFF) := by
    split_ifs <;> decide
  omega

/-- The range is right as soon as the lower threshold is the least step in exact arithmetic. -/
theorem thresholdsAreRange_of_exact {c : CompactTarget}
    (hc : (Target.fromCompact c).toNat ≤ p.maxAttainableTarget.toNat) {height : UInt32}
    {lo : Target} (hlo : Target.minTransitionThresholdDogecoin (Target.fromCompact c) p height = .ok lo)
    (hexact : lo.toNat = (Target.fromCompact c).toNat * leastTimespan height / publicTimespan height) :
    ThresholdsAreRange p height c := by
  obtain ⟨hi, hhi, hhival⟩ := maxTransitionThresholdDogecoin_spec hp hc height
  rw [← mul_greatestTimespan_div] at hhival
  have hlomin : lo.toNat = min ((Target.fromCompact c).toNat * leastTimespan height /
      publicTimespan height) p.maxAttainableTarget.toNat := by
    rw [hexact, Nat.min_eq_left (Nat.le_trans (mul_leastTimespan_div_le _ height) hc)]
  refine ⟨lo, hi, hlo, hhi, ?_, ?_, ?_⟩
  · intro first last
    obtain ⟨r, hr, hrval⟩ := toNat_fromNextWorkRequiredDogecoin hp c hc height first last
    obtain ⟨s, hs, hleast, hgreatest⟩ := expectedTimespan_mem hp height (headerTimespan first last)
    refine ⟨r, hr, ?_, ?_⟩
    · rw [Target.toNat_fromCompact_toCompactLossy, hrval, hlomin, hs, Int.toNat_natCast]
      apply Target.compactGrid.floor_mono
      exact min_le_min_right _ (Nat.div_le_div_right (Nat.mul_le_mul_left _ hleast))
    · rw [Target.toNat_fromCompact_toCompactLossy, hrval, hhival, hs, Int.toNat_natCast]
      apply Target.compactGrid.floor_mono
      exact min_le_min_right _ (Nat.div_le_div_right (Nat.mul_le_mul_left _ hgreatest))
  · obtain ⟨r, hr, hrval⟩ := toNat_fromNextWorkRequiredDogecoin hp c hc height 0xFFFFFFFF 0
    refine ⟨r, hr, U256.toNat_inj.mp ?_⟩
    rw [hrval, Target.toNat_fromCompact_toCompactLossy, hlomin, expectedTimespan_shortest hp,
      Int.toNat_natCast]
  · obtain ⟨r, hr, hrval⟩ := toNat_fromNextWorkRequiredDogecoin hp c hc height 0 0xFFFFFFFF
    refine ⟨r, hr, U256.toNat_inj.mp ?_⟩
    rw [hrval, Target.toNat_fromCompact_toCompactLossy, hhival, expectedTimespan_longest hp,
      Int.toNat_natCast]

/-- A target that is not a multiple of four is small enough not to be rounded, so that the two ends
of the range can be told apart. -/
theorem exact_of_thresholdsAreRange {c : CompactTarget} (hcanon : Target.IsCanonical c)
    (hc : (Target.fromCompact c).toNat ≤ p.maxAttainableTarget.toNat) {height : UInt32}
    (h : ThresholdsAreRange p height c) :
    height.toNat < 145000 ∨ 4 ∣ (Target.fromCompact c).toNat := by
  obtain ⟨lo, hi, hlo, -, -, ⟨r, hr, heq⟩, -⟩ := h
  obtain ⟨lo', hlo', hloval⟩ := minTransitionThresholdDogecoin_spec hp (Target.fromCompact c) height
  obtain ⟨r', hr', hrval⟩ := toNat_fromNextWorkRequiredDogecoin hp c hc height 0xFFFFFFFF 0
  obtain rfl : lo = lo' := Outcome.ok.inj (hlo.symm.trans hlo')
  obtain rfl : r = r' := Outcome.ok.inj (hr.symm.trans hr')
  have hle := mul_leastTimespan_div_le (Target.fromCompact c).toNat height
  rw [expectedTimespan_shortest hp, Int.toNat_natCast, Nat.min_eq_left (Nat.le_trans hle hc), heq,
    Target.toNat_fromCompact_toCompactLossy] at hrval
  by_cases h4 : 4 ∣ (Target.fromCompact c).toNat
  · exact Or.inr h4
  · have hlole : lo.toNat ≤ (Target.fromCompact c).toNat := by
      rw [hloval]
      split_ifs
      · omega
      · exact hle
    rw [Target.floor_eq_self hcanon.unit_dvd h4 hle,
      Target.floor_eq_self hcanon.unit_dvd h4 hlole] at hrval
    rw [← minThreshold_eq_iff, ← hloval]
    exact hrval

/-- The lower threshold rounds `3 * T / 4` up and the retarget rounds it down, so under Digishield they
agree on multiples of four only. -/
theorem thresholds_are_range_iff (c : CompactTarget) (hcanon : Target.IsCanonical c)
    (hc : (Target.fromCompact c).toNat ≤ p.maxAttainableTarget.toNat) (height : UInt32) :
    ThresholdsAreRange p height c ↔
      height.toNat < 145000 ∨ 4 ∣ (Target.fromCompact c).toNat := by
  constructor
  · intro h
    exact exact_of_thresholdsAreRange hp hcanon hc h
  · intro h
    obtain ⟨lo, hlo, hloval⟩ := minTransitionThresholdDogecoin_spec hp (Target.fromCompact c) height
    rw [← minThreshold_eq_iff, ← hloval] at h
    exact thresholdsAreRange_of_exact hp hc hlo h

end

theorem thresholds_are_range_iff_typical :
    Target.IsCanonical 0x1b02f5b6 ∧
      (ThresholdsAreRange .MAINNET 145000 0x1b02f5b6 ↔
        (145000 : UInt32).toNat < 145000 ∨ 4 ∣ (Target.fromCompact 0x1b02f5b6).toNat) :=
  ⟨by decide +kernel, thresholds_are_range_iff (Or.inl rfl) 0x1b02f5b6 (by decide +kernel)
    (by decide +kernel) 145000⟩

/-- The target `1` can drop to `0` under Digishield, below its threshold `1`. -/
theorem thresholds_are_not_range :
    ¬ ∀ (p : Params) (height : UInt32) (c : CompactTarget), p.IsPublic → Target.IsCanonical c →
      (Target.fromCompact c).toNat ≤ p.maxAttainableTarget.toNat → ThresholdsAreRange p height c := by
  intro h
  have hrange := h .MAINNET 145000 0x01010000 (Or.inl rfl) (by decide +kernel) (by decide +kernel)
  have hcond := exact_of_thresholdsAreRange (Or.inl rfl) (by decide +kernel) (by decide +kernel)
    hrange
  exact absurd hcond (by decide +kernel)

end CompactTarget

end RustDogecoin
