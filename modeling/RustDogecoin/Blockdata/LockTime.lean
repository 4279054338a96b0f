import RustDogecoin.Blockdata.RelativeLockTime
import RustDogecoin.Blockdata.Transaction
import RustDogecoin.Lib.TwoClocks

/-!
# Timelocks

When transactions with lock times are valid, and when a lock time in a script is satisfied.  An absolute lock time
waits for a block height or for a time, a relative one for a number of blocks or intervals after the spent output.
The comparisons that stand for the checks of a script (`is_implied_by`, `is_implied_by_sequence`) hold exactly when
the transaction is only valid in states that satisfy the lock time of the script, but for lock times that every
state satisfies (`timelocks_exact`).
-/

namespace RustDogecoin

/-! ## Absolute lock times -/

/-- `absolute::Height`. -/
structure Absolute.Height where
  value : UInt32
  lt : value < LOCK_TIME_THRESHOLD

/-- `absolute::Time`. -/
structure Absolute.Time where
  value : UInt32
  not_lt : ¬value < LOCK_TIME_THRESHOLD

namespace LockTime

/-- `absolute::LockTime::is_satisfied_by`. -/
def isSatisfiedBy (l : LockTime) (height : Absolute.Height) (time : Absolute.Time) : Bool :=
  match l with
  | blocks n _ => n ≤ height.value
  | seconds n _ => n ≤ time.value

/-- `absolute::LockTime::is_implied_by`. -/
def isImpliedBy : LockTime → LockTime → Bool
  | blocks this _, blocks other _ => this ≤ other
  | seconds this _, seconds other _ => this ≤ other
  | _, _ => false

end LockTime

/-- `TxIn::enables_lock_time`. -/
def TxIn.enablesLockTime (i : TxIn) : Bool := i.sequence != 0xFFFFFFFF

/-- `Transaction::is_lock_time_enabled`. -/
def Transaction.isLockTimeEnabled (tx : Transaction) : Bool := tx.input.any TxIn.enablesLockTime

/-- `Transaction::is_absolute_timelock_satisfied`. -/
def Transaction.isAbsoluteTimelockSatisfied (tx : Transaction) (height : Absolute.Height) (time : Absolute.Time) :
    Bool :=
  if !tx.isLockTimeEnabled then true else tx.lockTime.isSatisfiedBy height time

/-! ## Relative lock times -/

namespace Relative

/-- `DisabledLockTimeError`. -/
structure DisabledLockTimeError where
  n : UInt32
  deriving DecidableEq, Repr

/-- `IncompatibleHeightError`. -/
structure IncompatibleHeightError where
  height : Height
  time : Time
  deriving DecidableEq, Repr

/-- `IncompatibleTimeError`. -/
structure IncompatibleTimeError where
  time : Time
  height : Height
  deriving DecidableEq, Repr

namespace LockTime

/-- `relative::LockTime::from_consensus`. -/
def fromConsensus (n : UInt32) : Except DisabledLockTimeError LockTime :=
  match Sequence.toRelativeLockTime n with
  | some l => .ok l
  | none => .error ⟨n⟩

/-- `relative::LockTime::from_sequence`. -/
def fromSequence (n : Sequence) : Except DisabledLockTimeError LockTime := fromConsensus n

/-- `relative::LockTime::is_satisfied_by_height`. -/
def isSatisfiedByHeight (l : LockTime) (height : Height) : Except IncompatibleHeightError Bool :=
  match l with
  | blocks h => .ok (h.value ≤ height.value)
  | time t => .error ⟨height, t⟩

/-- `relative::LockTime::is_satisfied_by_time`. -/
def isSatisfiedByTime (l : LockTime) (time : Time) : Except IncompatibleTimeError Bool :=
  match l with
  | .time t => .ok (t.value ≤ time.value)
  | blocks height => .error ⟨time, height⟩

/-- `relative::LockTime::is_satisfied_by`. -/
def isSatisfiedBy (l : LockTime) (h : Height) (t : Time) : Bool :=
  match l.isSatisfiedByHeight h with
  | .ok true => true
  | _ =>
    match l.isSatisfiedByTime t with
    | .ok true => true
    | _ => false

/-- `relative::LockTime::is_implied_by`. -/
def isImpliedBy : LockTime → LockTime → Bool
  | blocks this, blocks other => this.value ≤ other.value
  | time this, time other => this.value ≤ other.value
  | _, _ => false

/-- `relative::LockTime::is_implied_by_sequence`. -/
def isImpliedBySequence (l : LockTime) (other : Sequence) : Bool :=
  match fromSequence other with
  | .ok other => l.isImpliedBy other
  | .error _ => false

end LockTime

end Relative

/-! ## Lock times as locks on two clocks -/

open TwoClocks

instance : Preorder Absolute.Height := Preorder.lift fun h => h.value.toNat

instance : Preorder Absolute.Time := Preorder.lift fun t => t.value.toNat

instance : OrderBot Absolute.Height where
  bot := ⟨0, by decide⟩
  bot_le _ := Nat.zero_le _

instance : OrderBot Absolute.Time where
  bot := ⟨LOCK_TIME_THRESHOLD, by decide⟩
  bot_le t := UInt32.le_iff_toNat_le.1 (UInt32.not_lt.1 t.not_lt)

instance : Preorder Relative.Height := Preorder.lift fun h => h.value.toNat

instance : Preorder Relative.Time := Preorder.lift fun t => t.value.toNat

instance : OrderBot Relative.Height where
  bot := ⟨0⟩
  bot_le _ := Nat.zero_le _

instance : OrderBot Relative.Time where
  bot := ⟨0⟩
  bot_le _ := Nat.zero_le _

/-- The lock that a lock time is. -/
def LockTime.lock : LockTime → Lock Absolute.Height Absolute.Time
  | blocks n h => .first ⟨n, h⟩
  | seconds n h => .second ⟨n, h⟩

def Relative.LockTime.lock : Relative.LockTime → Lock Relative.Height Relative.Time
  | blocks h => .first h
  | time t => .second t

namespace LockTime

theorem isSatisfiedBy_iff {l : LockTime} {height : Absolute.Height} {time : Absolute.Time} :
    l.isSatisfiedBy height time = true ↔ l.lock.IsOpen height time := by
  cases l with
  | blocks n h => exact decide_eq_true_iff.trans UInt32.le_iff_toNat_le
  | seconds n h => exact decide_eq_true_iff.trans UInt32.le_iff_toNat_le

/-- The lock times that every state satisfies. -/
theorem trivial_iff {l : LockTime} :
    l.lock.Trivial ↔ l.toConsensusU32 = 0 ∨ l.toConsensusU32 = LOCK_TIME_THRESHOLD := by
  cases l with
  | blocks n h =>
    have hne : n ≠ LOCK_TIME_THRESHOLD := by
      rintro rfl
      exact absurd h (by decide)
    rw [toConsensusU32, or_iff_left hne, ← UInt32.toNat_inj]
    exact Nat.le_zero
  | seconds n h =>
    have hne : n ≠ 0 := by
      rintro rfl
      exact absurd zero_lt_threshold h
    rw [toConsensusU32, or_iff_right hne, ← UInt32.toNat_inj]
    exact ⟨fun hle => Nat.le_antisymm hle (UInt32.le_iff_toNat_le.1 (UInt32.not_lt.1 h)), Nat.le_of_eq⟩

theorem isImpliedBy_iff {l other : LockTime} : l.isImpliedBy other = true ↔ l.lock.Implied other.lock := by
  cases l <;> cases other
  case blocks.blocks => exact decide_eq_true_iff.trans UInt32.le_iff_toNat_le
  case seconds.seconds => exact decide_eq_true_iff.trans UInt32.le_iff_toNat_le
  all_goals exact iff_of_false Bool.false_ne_true id

end LockTime

namespace Relative.LockTime

theorem isSatisfiedBy_iff {l : LockTime} {h : Height} {t : Time} :
    l.isSatisfiedBy h t = true ↔ l.lock.IsOpen h t := by
  cases l with
  | blocks n =>
    have heq : (blocks n).isSatisfiedBy h t = decide (n.value ≤ h.value) := by
      by_cases hle : n.value ≤ h.value <;> simp [isSatisfiedBy, isSatisfiedByHeight, isSatisfiedByTime, hle]
    rw [heq]
    exact decide_eq_true_iff.trans UInt16.le_iff_toNat_le
  | time n =>
    have heq : (time n).isSatisfiedBy h t = decide (n.value ≤ t.value) := by
      by_cases hle : n.value ≤ t.value <;> simp [isSatisfiedBy, isSatisfiedByHeight, isSatisfiedByTime, hle]
    rw [heq]
    exact decide_eq_true_iff.trans UInt16.le_iff_toNat_le

theorem isImpliedBy_iff {l other : LockTime} : l.isImpliedBy other = true ↔ l.lock.Implied other.lock := by
  cases l <;> cases other
  case blocks.blocks => exact decide_eq_true_iff.trans UInt16.le_iff_toNat_le
  case time.time => exact decide_eq_true_iff.trans UInt16.le_iff_toNat_le
  all_goals exact iff_of_false Bool.false_ne_true id

end Relative.LockTime

/-- The lock times that every state satisfies. -/
theorem Relative.LockTime.trivial_iff {l : Relative.LockTime} :
    l.lock.Trivial ↔ l = .blocks ⟨0⟩ ∨ l = .time ⟨0⟩ := by
  cases l with
  | blocks n =>
    obtain ⟨n⟩ := n
    simp only [reduceCtorEq, or_false, blocks.injEq, Height.mk.injEq, ← UInt16.toNat_inj]
    exact Nat.le_zero
  | time n =>
    obtain ⟨n⟩ := n
    simp only [reduceCtorEq, false_or, time.injEq, Time.mk.injEq, ← UInt16.toNat_inj]
    exact Nat.le_zero

/-! ## What a script can rely on -/

theorem absolute_exact (tx : Transaction) (l : LockTime) :
    (∀ height time, tx.isAbsoluteTimelockSatisfied height time = true → l.isSatisfiedBy height time = true) ↔
      l.lock.Trivial ∨ tx.isLockTimeEnabled = true ∧ l.isImpliedBy tx.lockTime = true := by
  unfold Transaction.isAbsoluteTimelockSatisfied
  simp only [LockTime.isSatisfiedBy_iff, LockTime.isImpliedBy_iff]
  cases tx.isLockTimeEnabled with
  | true =>
    simp only [Bool.not_true, Bool.false_eq_true, if_false, LockTime.isSatisfiedBy_iff, true_and]
    exact Lock.open_of_open_iff _ _
  | false =>
    simp only [Bool.not_false, if_true, forall_const, Bool.false_eq_true, false_and, or_false]
    exact (Lock.trivial_iff _).symm

theorem relative_exact (s : Sequence) (l : Relative.LockTime) :
    (∀ h t, (∀ l', Relative.LockTime.fromSequence s = .ok l' → l'.isSatisfiedBy h t = true) →
        l.isSatisfiedBy h t = true) ↔ l.lock.Trivial ∨ l.isImpliedBySequence s = true := by
  unfold Relative.LockTime.isImpliedBySequence
  cases Relative.LockTime.fromSequence s with
  | ok l' =>
    simp only [Except.ok.injEq, forall_eq', Relative.LockTime.isSatisfiedBy_iff, Relative.LockTime.isImpliedBy_iff]
    exact Lock.open_of_open_iff _ _
  | error e =>
    simp only [reduceCtorEq, false_imp_iff, implies_true, forall_const, Relative.LockTime.isSatisfiedBy_iff,
      Bool.false_eq_true, or_false]
    exact (Lock.trivial_iff _).symm

/-- An absolute lock time in a script is satisfied in every state in which a transaction is valid, exactly if the
lock time of the transaction is enabled and implies it; a relative one is satisfied whenever the input with a
sequence number is valid, exactly if the sequence number implies it.  Lock times that every state satisfies are
the exception. -/
theorem timelocks_exact :
    (∀ (tx : Transaction) (l : LockTime),
      (∀ height time, tx.isAbsoluteTimelockSatisfied height time = true → l.isSatisfiedBy height time = true) ↔
        (l.toConsensusU32 = 0 ∨ l.toConsensusU32 = LOCK_TIME_THRESHOLD) ∨
          tx.isLockTimeEnabled = true ∧ l.isImpliedBy tx.lockTime = true) ∧
    ∀ (s : Sequence) (l : Relative.LockTime),
      (∀ h t, (∀ l', Relative.LockTime.fromSequence s = .ok l' → l'.isSatisfiedBy h t = true) →
          l.isSatisfiedBy h t = true) ↔
        (l = .blocks ⟨0⟩ ∨ l = .time ⟨0⟩) ∨ l.isImpliedBySequence s = true := by
  refine ⟨fun tx l => ?_, fun s l => ?_⟩
  · rw [absolute_exact, LockTime.trivial_iff]
  · rw [relative_exact, Relative.LockTime.trivial_iff]

end RustDogecoin
