import RustDogecoin.Pow.U256

/-!
# Long division stays in range

`div_rem` with the range of every operation of its loop checked.  The checked division returns, with
the result of the one without the checks.
-/

namespace RustDogecoin

namespace U256

variable {ε : Type}

/-- A left shift that may not push a bit out. -/
def shlExact (x : U256) (shift : ℕ) : Outcome ε U256 := do
  .require (x.toNat * 2 ^ shift < 2 ^ 256) .overflow
  return wrappingShl x shift

/-- A right shift by one that may not drop a bit. -/
def halveExact (x : U256) : Outcome ε U256 := do
  .require (x.toNat % 2 = 0) .overflow
  return wrappingShr x 1

/-- A subtraction that may not go below zero. -/
def subExact (a b : U256) : Outcome ε U256 := do
  .require (b.toNat ≤ a.toNat) .overflow
  return wrappingSub a b

/-- `ret[1 - shift / 128] |= 1 << (shift % 128)`, where the index may not leave the two words. -/
def setBitExact (x : U256) (shift : ℕ) : Outcome ε U256 := do
  .require (shift / 128 ≤ 1) .overflow
  return setBit x shift

/-- One turn of the loop before the divisor is halved, every operation checked. -/
def divRemTurnExact (shift : ℕ) (subCopy shiftCopy ret : U256) : Outcome ε (U256 × U256) := do
  if le shiftCopy subCopy then
    let ret ← setBitExact ret shift
    let subCopy ← subExact subCopy shiftCopy
    return (ret, subCopy)
  else return (ret, subCopy)

/-- The loop of `div_rem`, every operation checked. -/
def divRemLoopExact : ℕ → U256 → U256 → U256 → Outcome ε (U256 × U256)
  | 0, subCopy, shiftCopy, ret => divRemTurnExact 0 subCopy shiftCopy ret
  | shift + 1, subCopy, shiftCopy, ret => do
    let s ← divRemTurnExact (shift + 1) subCopy shiftCopy ret
    let shiftCopy ← halveExact shiftCopy
    divRemLoopExact shift s.2 shiftCopy s.1

/-- `div_rem`, every operation checked. -/
def divRemExact (a b : U256) : Outcome ε (U256 × U256) := do
  .require (bits b ≠ 0) .assertion
  if bits a < bits b then return (ZERO, a)
  else
    .require (bits b ≤ bits a) .overflow
    let shift := bits a - bits b
    let shiftCopy ← shlExact b shift
    divRemLoopExact shift a shiftCopy ZERO

/-- A subtraction is only made where it fits. -/
theorem divRemTurnExact_eq {shift : ℕ} (hshift : shift < 256) (subCopy shiftCopy ret : U256) :
    (divRemTurnExact shift subCopy shiftCopy ret : Outcome ε (U256 × U256)) =
      .ok (if le shiftCopy subCopy then (setBit ret shift, wrappingSub subCopy shiftCopy)
        else (ret, subCopy)) := by
  unfold divRemTurnExact
  by_cases h : le shiftCopy subCopy
  · have hbit : shift / 128 ≤ 1 := by omega
    have hsub : shiftCopy.toNat ≤ subCopy.toNat := le_iff.mp h
    rw [if_pos h, if_pos h, setBitExact, Outcome.require_of hbit, subExact, Outcome.require_of hsub]
    rfl
  · rw [if_neg h, if_neg h]
    rfl

/-- The invariant of the loop is that `shift_copy` is the divisor shifted, which makes it even until
the last turn. -/
theorem divRemLoopExact_eq {b shift : ℕ} {subCopy shiftCopy ret : U256} (hshift : shift < 256)
    (hcopy : shiftCopy.toNat = b * 2 ^ shift) :
    (divRemLoopExact shift subCopy shiftCopy ret : Outcome ε (U256 × U256)) =
      .ok (divRemLoop shift subCopy shiftCopy ret) := by
  induction shift generalizing subCopy shiftCopy ret with
  | zero =>
    unfold divRemLoopExact divRemLoop
    exact divRemTurnExact_eq hshift subCopy shiftCopy ret
  | succ n ih =>
    have heven : shiftCopy.toNat % 2 = 0 := by
      rw [hcopy, Nat.pow_succ, ← Nat.mul_assoc, Nat.mul_mod_left]
    have hhalf : (wrappingShr shiftCopy 1).toNat = b * 2 ^ n := by
      rw [toNat_wrappingShr _ (by decide), hcopy, Nat.pow_succ, ← Nat.mul_assoc]
      omega
    unfold divRemLoopExact divRemLoop
    rw [divRemTurnExact_eq hshift, Outcome.ok_bind, halveExact, Outcome.require_of heven]
    exact ih (by omega) hhalf

theorem divRemExact_eq (a : U256) {b : U256} (hb : b ≠ ZERO) :
    (divRemExact a b : Outcome ε (U256 × U256)) = divRem a b := by
  have hbits : bits b ≠ 0 := by
    rw [Ne, bits_eq_zero_iff]
    exact fun h => hb (toNat_inj.mp h)
  unfold divRemExact divRem
  rw [Outcome.require_of hbits, Outcome.ok_bind, Outcome.ok_bind]
  by_cases hlt : bits a < bits b
  · rw [if_pos hlt, if_pos hlt]
  · have hge : bits b ≤ bits a := Nat.le_of_not_lt hlt
    have hle := a.bits_le
    have hfit := shl_bits_lt hge
    rw [if_neg hlt, if_neg hlt, Outcome.require_of hge, Outcome.ok_bind]
    dsimp only
    rw [shlExact, Outcome.require_of hfit, Outcome.ok_bind]
    apply divRemLoopExact_eq (by omega)
    rw [toNat_wrappingShl _ (by omega), Nat.mod_eq_of_lt hfit]

/-- Division by anything but zero returns the quotient and the remainder, and would do so if every
shift and subtraction of its loop were checked. -/
theorem divRem_is_exact (a : U256) {b : U256} (hb : b ≠ ZERO) :
    ∃ q r : U256, divRem a b = (.ok (q, r) : Outcome Empty (U256 × U256)) ∧
      divRemExact a b = (.ok (q, r) : Outcome Empty (U256 × U256)) ∧
      a.toNat = q.toNat * b.toNat + r.toNat ∧ r.toNat < b.toNat := by
  have hpos : 0 < b.toNat := by
    apply Nat.pos_of_ne_zero
    exact fun h => hb (toNat_inj.mp h)
  obtain ⟨q, r, hrun, hq, hr⟩ := divRem_spec (ε := Empty) a hpos
  refine ⟨q, r, hrun, ?_, ?_, ?_⟩
  · rw [divRemExact_eq a hb, hrun]
  · rw [hq, hr, Nat.mul_comm, Nat.div_add_mod]
  · rw [hr]
    exact Nat.mod_lt _ hpos

theorem divRem_is_exact_two_pow_128 :
    (⟨0, 3⟩ : U256) ≠ ZERO ∧
      ∃ q r : U256, divRem ⟨1, 0⟩ ⟨0, 3⟩ = (.ok (q, r) : Outcome Empty (U256 × U256)) ∧
        divRemExact ⟨1, 0⟩ ⟨0, 3⟩ = (.ok (q, r) : Outcome Empty (U256 × U256)) ∧
        toNat ⟨1, 0⟩ = q.toNat * toNat ⟨0, 3⟩ + r.toNat ∧ r.toNat < toNat ⟨0, 3⟩ :=
  ⟨by decide, divRem_is_exact ⟨1, 0⟩ (by decide)⟩

end U256

end RustDogecoin
