import RustDogecoin.Pow.Retarget

/-!
# Retargeting in Bitcoin

`CompactTarget::from_header_difficulty_adjustment` of `pow.rs`, with the parameters of the public networks.  A step
is computed in exact arithmetic (`fromNextWorkRequired_spec`), but the times of the two headers are subtracted as
unsigned numbers, where the Dogecoin function and Core subtract signed ones.
-/

namespace RustDogecoin

namespace Target

def MAX_ATTAINABLE_MAINNET : Target := ⟨0xFFFF <<< 80, 0⟩

def MAX_ATTAINABLE_TESTNET : Target := ⟨0xFFFF <<< 80, 0⟩

def MAX_ATTAINABLE_SIGNET : Target := ⟨0x0377AE00 <<< 80, 0⟩

end Target

namespace Bitcoin

/-- Parameters that influence chain consensus, as far as retargeting reads them. -/
structure Params where
  maxAttainableTarget : Target
  powTargetTimespan : UInt64
  noPowRetargeting : Bool
  deriving DecidableEq, Repr

namespace Params

def MAINNET : Params where
  maxAttainableTarget := Target.MAX_ATTAINABLE_MAINNET
  powTargetTimespan := 14 * 24 * 60 * 60
  noPowRetargeting := false

def TESTNET3 : Params where
  maxAttainableTarget := Target.MAX_ATTAINABLE_TESTNET
  powTargetTimespan := 14 * 24 * 60 * 60
  noPowRetargeting := false

def TESTNET4 : Params where
  maxAttainableTarget := Target.MAX_ATTAINABLE_TESTNET
  powTargetTimespan := 14 * 24 * 60 * 60
  noPowRetargeting := false

def SIGNET : Params where
  maxAttainableTarget := Target.MAX_ATTAINABLE_SIGNET
  powTargetTimespan := 14 * 24 * 60 * 60
  noPowRetargeting := false

/-- The networks whose difficulty is adjusted. -/
def IsPublic (p : Params) : Prop := p = MAINNET ∨ p = TESTNET3 ∨ p = TESTNET4 ∨ p = SIGNET

variable {p : Params}

theorem IsPublic.noPowRetargeting (hp : p.IsPublic) : p.noPowRetargeting = false := by
  rcases hp with rfl | rfl | rfl | rfl <;> rfl

theorem IsPublic.powTargetTimespan (hp : p.IsPublic) : p.powTargetTimespan = 1209600 := by
  rcases hp with rfl | rfl | rfl | rfl <;> rfl

/-- The greatest product that a step can form; on signet it is close to the limit. -/
theorem IsPublic.product_lt (hp : p.IsPublic) : p.maxAttainableTarget.toNat * 4838400 < 2 ^ 256 := by
  rcases hp with rfl | rfl | rfl | rfl <;> decide

end Params

end Bitcoin

/-- `max_transition_threshold`. -/
def Target.maxTransitionThreshold (t : Target) (params : Bitcoin.Params) : Target :=
  U256.cmpMin (maxTransitionThresholdUnchecked t) params.maxAttainableTarget

/-- A `u64` as a 256-bit number. -/
def U256.ofU64 (x : UInt64) : U256 := .ofWord (x.toBitVec.setWidth 128)

/-- `Ord::clamp` on `u64`. -/
def clampU64 {ε : Type} (x min max : UInt64) : Outcome ε UInt64 := do
  .require (min ≤ max) .assertion
  return if x < min then min else if max < x then max else x

/-- The difference of two `u32`, which panics on overflow. -/
def subU32 {ε : Type} (a b : UInt32) : Outcome ε UInt32 := do
  .require (b ≤ a) .overflow
  return a - b

namespace CompactTarget

/-- Computes the `CompactTarget` from a difficulty adjustment. -/
def fromNextWorkRequired (last : CompactTarget) (timespan : UInt64) (params : Bitcoin.Params) :
    Outcome Empty CompactTarget := do
  if params.noPowRetargeting then return last
  else
    let minTimespan := params.powTargetTimespan >>> 2
    let maxTimespan := params.powTargetTimespan <<< 2
    let actualTimespan ← clampU64 timespan minTimespan maxTimespan
    let prevTarget := Target.fromCompact last
    let maximumRetarget := Target.maxTransitionThreshold prevTarget params
    let retarget ← U256.mul prevTarget (.ofU64 actualTimespan)
    let retarget ← U256.div retarget (.ofU64 params.powTargetTimespan)
    if U256.le maximumRetarget retarget then return Target.toCompactLossy maximumRetarget
    else return Target.toCompactLossy retarget

/-- Computes the `CompactTarget` from a difficulty adjustment, assuming these are the relevant block headers. -/
def fromHeaderDifficultyAdjustment (lastEpochBoundary current : Blockdata.Header) (params : Bitcoin.Params) :
    Outcome Empty CompactTarget := do
  let timespan ← subU32 current.time lastEpochBoundary.time
  let bits := current.bits
  fromNextWorkRequired bits timespan.toUInt64 params

/-! ## One step in exact arithmetic -/

/-- The timespan of a step: the signed difference of two times, but no less than a quarter of the expected
timespan and no more than four times as much. -/
def clampedTimespan (params : Bitcoin.Params) (d : ℤ) : ℤ :=
  let R : ℤ := params.powTargetTimespan.toNat
  max (R / 4) (min (4 * R) d)

theorem toNat_ofU64 (x : UInt64) : (U256.ofU64 x).toNat = x.toNat := by
  have hx := x.toNat_lt
  rw [U256.ofU64, U256.toNat_ofWord, BitVec.toNat_setWidth, UInt64.toNat_toBitVec, Nat.mod_eq_of_lt (by omega)]

theorem clampU64_of {ε : Type} (x : UInt64) {lo hi : UInt64} (h : lo ≤ hi) :
    ∃ r, (clampU64 x lo hi : Outcome ε UInt64) = .ok r ∧ r.toNat = max lo.toNat (min hi.toNat x.toNat) := by
  rw [clampU64, Outcome.require_of h]
  refine ⟨_, rfl, ?_⟩
  rw [UInt64.le_iff_toNat_le] at h
  split_ifs with hlo hhi
  · rw [UInt64.lt_iff_toNat_lt] at hlo
    omega
  · rw [UInt64.lt_iff_toNat_lt] at hhi
    omega
  · rw [UInt64.lt_iff_toNat_lt] at hlo hhi
    omega

section

variable {p : Bitcoin.Params} (hp : p.IsPublic)

include hp

theorem clampedTimespan_eq (d : ℤ) : clampedTimespan p d = max 302400 (min 4838400 d) := by
  rw [clampedTimespan, hp.powTargetTimespan]
  rfl

/-- Neither the product nor the threshold of a step leaves 256 bits. -/
theorem mul_lt {t : Target} (ht : t.toNat ≤ p.maxAttainableTarget.toNat) {s : ℕ} (hs : s ≤ 4838400) :
    t.toNat * s < 2 ^ 256 :=
  Nat.lt_of_le_of_lt (Nat.mul_le_mul ht hs) hp.product_lt

theorem toNat_maxTransitionThreshold {t : Target} (ht : t.toNat ≤ p.maxAttainableTarget.toNat) :
    (Target.maxTransitionThreshold t p).toNat = min (t.toNat * 4) p.maxAttainableTarget.toNat := by
  have hfits := mul_lt hp ht (s := 4) (by decide)
  rw [Target.maxTransitionThreshold, U256.toNat_cmpMin, Target.maxTransitionThresholdUnchecked,
    U256.toNat_wrappingShl _ (by decide), Nat.mod_eq_of_lt (by omega)]
  rfl

theorem fromNextWorkRequired_spec (c : CompactTarget)
    (hc : (Target.fromCompact c).toNat ≤ p.maxAttainableTarget.toNat) (timespan : UInt64) :
    ∃ t : Target, fromNextWorkRequired c timespan p = .ok (Target.toCompactLossy t) ∧
      t.toNat = min ((Target.fromCompact c).toNat * (clampedTimespan p timespan.toNat).toNat / 1209600)
        p.maxAttainableTarget.toNat := by
  have hle : (1209600 : UInt64) >>> 2 ≤ (1209600 : UInt64) <<< 2 := by decide
  obtain ⟨s, hclamp, hs⟩ := clampU64_of (ε := Empty) timespan hle
  have hsval : s.toNat = (clampedTimespan p timespan.toNat).toNat := by
    have hlo : ((1209600 : UInt64) >>> 2).toNat = 302400 := rfl
    have hhi : ((1209600 : UInt64) <<< 2).toNat = 4838400 := rfl
    rw [hs, clampedTimespan_eq hp, hlo, hhi]
    omega
  have hsmax : s.toNat ≤ 4838400 := by
    rw [hsval, clampedTimespan_eq hp]
    omega
  obtain ⟨product, hmul, hproduct⟩ := U256.mul_spec (ε := Empty) (a := Target.fromCompact c) (b := .ofU64 s)
    (by rw [toNat_ofU64]; omega) (by rw [toNat_ofU64]; exact mul_lt hp hc hsmax)
  have hR : (U256.ofU64 1209600).toNat = 1209600 := toNat_ofU64 _
  obtain ⟨retarget, hdiv, hretarget⟩ := U256.div_spec (ε := Empty) product (b := .ofU64 1209600) (by omega)
  rw [hproduct, toNat_ofU64, hR] at hretarget
  rw [fromNextWorkRequired, hp.noPowRetargeting, if_neg Bool.false_ne_true]
  dsimp only
  rw [hp.powTargetTimespan, hclamp, Outcome.ok_bind, hmul, Outcome.ok_bind, hdiv, Outcome.ok_bind, ← hsval,
    ← hretarget]
  -- a step by the greatest timespan is what the threshold is the minimum of
  have hstep : retarget.toNat ≤ (Target.fromCompact c).toNat * 4 := by
    have hprod := Nat.mul_le_mul_left (Target.fromCompact c).toNat hsmax
    omega
  have hmin : min retarget.toNat (Target.maxTransitionThreshold (Target.fromCompact c) p).toNat =
      min retarget.toNat p.maxAttainableTarget.toNat := by
    rw [toNat_maxTransitionThreshold hp hc, ← Nat.min_assoc, Nat.min_eq_left hstep]
  rw [← hmin]
  split_ifs with hge
  · rw [U256.le_iff] at hge
    exact ⟨_, rfl, (Nat.min_eq_right hge).symm⟩
  · rw [U256.le_iff] at hge
    exact ⟨_, rfl, (Nat.min_eq_left (Nat.le_of_not_le hge)).symm⟩

/-- On the public networks the step is the one of `CalculateNextWorkRequired` exactly if the current header is not
earlier than the other one; an earlier one makes the subtraction overflow. -/
theorem headerDifficultyAdjustment_iff (lastEpochBoundary current : Blockdata.Header)
    (ht : (Target.fromCompact current.bits).toNat ≤ p.maxAttainableTarget.toNat) :
    ((Target.fromCompact current.bits).toNat * 4 < 2 ^ 256 ∧
      (Target.fromCompact current.bits).toNat *
        (clampedTimespan p (headerTimespan lastEpochBoundary.time current.time)).toNat < 2 ^ 256 ∧
      ∃ t : Target, fromHeaderDifficultyAdjustment lastEpochBoundary current p =
          .ok (Target.toCompactLossy t) ∧
        t.toNat = min ((Target.fromCompact current.bits).toNat *
            (clampedTimespan p (headerTimespan lastEpochBoundary.time current.time)).toNat /
              p.powTargetTimespan.toNat)
          p.maxAttainableTarget.toNat) ↔
      lastEpochBoundary.time ≤ current.time := by
  constructor
  · rintro ⟨-, -, t, hrun, -⟩
    rw [fromHeaderDifficultyAdjustment, subU32, bind_assoc, Outcome.require_bind_eq_ok_iff] at hrun
    exact hrun.1
  · intro hle
    have hsmax : (clampedTimespan p (headerTimespan lastEpochBoundary.time current.time)).toNat ≤ 4838400 := by
      rw [clampedTimespan_eq hp]
      omega
    refine ⟨mul_lt hp ht (by decide), mul_lt hp ht hsmax, ?_⟩
    obtain ⟨t, hrun, hval⟩ := fromNextWorkRequired_spec hp current.bits ht
      (current.time - lastEpochBoundary.time).toUInt64
    have hspan : ((current.time - lastEpochBoundary.time).toUInt64.toNat : ℤ) =
        headerTimespan lastEpochBoundary.time current.time := by
      rw [UInt32.toNat_toUInt64, UInt32.toNat_sub_of_le _ _ hle, headerTimespan]
      rw [UInt32.le_iff_toNat_le] at hle
      omega
    refine ⟨t, ?_, ?_⟩
    · rw [fromHeaderDifficultyAdjustment, subU32, Outcome.require_of hle]
      exact hrun
    · rw [hval, hspan, hp.powTargetTimespan]
      rfl

end

/-- A header of the least difficulty. -/
def sampleHeader (time : UInt32) : Blockdata.Header where
  version := 1
  prevBlockhash := U8Array.replicate 32 0
  merkleRoot := U8Array.replicate 32 0
  time
  bits := 0x1d00ffff
  nonce := 0

theorem headerDifficultyAdjustment_iff_sample :
    ∃ t : Target, fromHeaderDifficultyAdjustment (sampleHeader 1231006505) (sampleHeader 1233061996) .MAINNET =
        .ok (Target.toCompactLossy t) ∧
      t.toNat = min ((Target.fromCompact 0x1d00ffff).toNat *
          (clampedTimespan .MAINNET (headerTimespan 1231006505 1233061996)).toNat /
            Bitcoin.Params.MAINNET.powTargetTimespan.toNat)
        Bitcoin.Params.MAINNET.maxAttainableTarget.toNat :=
  ((headerDifficultyAdjustment_iff (.inl rfl) (sampleHeader 1231006505) (sampleHeader 1233061996)
    (by decide +kernel)).2 (by decide)).2.2

/-- The current header is one second earlier. -/
theorem headerDifficultyAdjustment_overflows :
    (Target.fromCompact (sampleHeader 0).bits).toNat ≤ Bitcoin.Params.MAINNET.maxAttainableTarget.toNat ∧
      fromHeaderDifficultyAdjustment (sampleHeader 1) (sampleHeader 0) .MAINNET = .panic .overflow ∧
      ¬∃ t : Target, fromHeaderDifficultyAdjustment (sampleHeader 1) (sampleHeader 0) .MAINNET =
          .ok (Target.toCompactLossy t) ∧
        t.toNat = min ((Target.fromCompact (sampleHeader 0).bits).toNat *
            (clampedTimespan .MAINNET (headerTimespan 1 0)).toNat /
              Bitcoin.Params.MAINNET.powTargetTimespan.toNat)
          Bitcoin.Params.MAINNET.maxAttainableTarget.toNat := by
  have hrun : fromHeaderDifficultyAdjustment (sampleHeader 1) (sampleHeader 0) .MAINNET = .panic .overflow := rfl
  refine ⟨by decide +kernel, hrun, ?_⟩
  rintro ⟨t, hok, -⟩
  rw [hrun] at hok
  cases hok

end CompactTarget

end RustDogecoin
