import RustDogecoin.Pow.Target

/-!
# Consensus parameters

`Params` of `dogecoin/params.rs`, with the fields that retargeting and merged mining read.  Times
are `i64` in the source and stand here as integers.
-/

namespace RustDogecoin

namespace Target

def MAX_ATTAINABLE_MAINNET_DOGE : Target := ⟨0xFFFFF000 <<< 76, 0⟩

def MAX_ATTAINABLE_TESTNET_DOGE : Target := ⟨0xFFFFF000 <<< 76, 0⟩

def MAX_ATTAINABLE_REGTEST_DOGE : Target := ⟨0x7FFFFF00 <<< 96, 0⟩

end Target

namespace Dogecoin

inductive Network where
  | dogecoin
  | testnet
  | regtest
  deriving DecidableEq, Repr

/-- Parameters that influence chain consensus. -/
structure Params where
  network : Network
  maxAttainableTarget : Target
  noPowRetargeting : Bool
  digishieldActivationHeight : UInt32
  auxpowHeight : UInt32
  deriving DecidableEq, Repr

def ONE_SECOND : ℤ := 1

def ONE_MINUTE : ℤ := 60

def FOUR_HOURS : ℤ := 4 * 60 * 60

namespace Params

def MAINNET : Params where
  network := .dogecoin
  maxAttainableTarget := Target.MAX_ATTAINABLE_MAINNET_DOGE
  noPowRetargeting := false
  digishieldActivationHeight := 145000
  auxpowHeight := 371337

def TESTNET : Params where
  network := .testnet
  maxAttainableTarget := Target.MAX_ATTAINABLE_TESTNET_DOGE
  noPowRetargeting := false
  digishieldActivationHeight := 145000
  auxpowHeight := 158100

def REGTEST : Params where
  network := .regtest
  maxAttainableTarget := Target.MAX_ATTAINABLE_REGTEST_DOGE
  noPowRetargeting := true
  digishieldActivationHeight := 10
  auxpowHeight := 20

/-- Checks if Digishield difficulty adjustment is activated at the given block height. -/
def isDigishieldActivated (p : Params) (height : UInt32) : Bool :=
  height ≥ p.digishieldActivationHeight

/-- Returns the target timespan (in seconds) used for PoW retargeting at the given block height. -/
def powTargetTimespan (p : Params) (height : UInt32) : ℤ :=
  if !p.isDigishieldActivated height then FOUR_HOURS
  else
    match p.network with
    | .dogecoin => ONE_MINUTE
    | .testnet => ONE_MINUTE
    | .regtest => ONE_SECOND

/-- Checks if legacy blocks can be mined at the given block height. -/
def allowLegacyBlocks (p : Params) (height : UInt32) : Bool := height < p.auxpowHeight

/-- The networks with real proof of work, whose parameters retargeting reads agree. -/
def IsPublic (p : Params) : Prop := p = MAINNET ∨ p = TESTNET

variable {p : Params}

theorem IsPublic.noPowRetargeting (hp : p.IsPublic) : p.noPowRetargeting = false := by
  rcases hp with rfl | rfl <;> rfl

theorem IsPublic.maxAttainableTarget (hp : p.IsPublic) :
    p.maxAttainableTarget.toNat = 0xFFFFF * 2 ^ 216 := by
  rcases hp with rfl | rfl <;> rfl

theorem IsPublic.isDigishieldActivated (hp : p.IsPublic) (height : UInt32) :
    p.isDigishieldActivated height = true ↔ 145000 ≤ height.toNat := by
  rcases hp with rfl | rfl <;>
    simp only [Params.isDigishieldActivated, MAINNET, TESTNET, decide_eq_true_eq, ge_iff_le,
      UInt32.le_iff_toNat_le] <;>
    rfl

theorem IsPublic.powTargetTimespan (hp : p.IsPublic) (height : UInt32) :
    p.powTargetTimespan height = if 145000 ≤ height.toNat then 60 else 14400 := by
  have hd := hp.isDigishieldActivated height
  unfold Params.powTargetTimespan
  by_cases h : 145000 ≤ height.toNat
  · rw [hd.mpr h, if_pos h]
    rcases hp with rfl | rfl <;> rfl
  · rw [Bool.eq_false_iff.mpr (mt hd.mp h), if_neg h]
    rfl

end Params

end Dogecoin

end RustDogecoin
