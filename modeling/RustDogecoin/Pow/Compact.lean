import RustDogecoin.Pow.Target

/-!
# The compact form against the integers it stands for

`fromCompact` is compared with `SetCompact`, which tests the sign bit before it shifts the mantissa,
and `toCompactLossy` with the greatest target that a non-negative compact value gives.
-/

namespace RustDogecoin

namespace CompactTarget

/-- `bits >> 24`. -/
def exponent (c : CompactTarget) : ℕ := (c >>> 24).toNat

/-- `bits & 0x7fffff`. -/
def mantissa (c : CompactTarget) : ℕ := (c &&& 0x7FFFFF).toNat

/-- The sign bit is clear. -/
def NonNegative (c : CompactTarget) : Prop := c &&& 0x00800000 = 0

instance (c : CompactTarget) : Decidable (NonNegative c) :=
  inferInstanceAs (Decidable (c &&& 0x00800000 = 0))

/-- The integer that a non-negative compact value stands for, however large. -/
def denote (c : CompactTarget) : ℕ :=
  if 3 ≤ exponent c then mantissa c <<< (8 * (exponent c - 3))
  else mantissa c >>> (8 * (3 - exponent c))

theorem exponent_eq (c : CompactTarget) : exponent c = c.toNat / 2 ^ 24 := by
  have hr : c.toNat % 2 ^ 24 < 2 ^ 24 := Nat.mod_lt _ (by decide)
  exact Target.toNat_exponent (by omega) hr

theorem mantissa_eq (c : CompactTarget) : mantissa c = c.toNat % 2 ^ 23 := by
  unfold mantissa
  rw [UInt32.toNat_and]
  exact Nat.and_two_pow_sub_one_eq_mod c.toNat 23

theorem mantissa_lt (c : CompactTarget) : mantissa c < 2 ^ 23 := by
  rw [mantissa_eq]
  exact Nat.mod_lt _ (by decide)

theorem nonNegative_iff (c : CompactTarget) : NonNegative c ↔ c.toNat % 2 ^ 24 < 2 ^ 23 := by
  have hmask : c &&& 0x00800000 = c &&& 0xFFFFFF &&& 0x00800000 := by
    rw [UInt32.and_assoc]
    rfl
  have hlow : (c &&& 0xFFFFFF).toNat = c.toNat % 2 ^ 24 :=
    Target.toNat_mantissa (s := c.toNat / 2 ^ 24) (by omega) (Nat.mod_lt _ (by decide))
  have hsign := Target.sign_ne_zero_iff (c := c &&& 0xFFFFFF) (by omega)
  rw [hlow] at hsign
  unfold NonNegative
  rw [hmask, ← not_iff_not, ← Ne, hsign, Nat.not_lt]

theorem denote_eq (c : CompactTarget) :
    denote c = mantissa c / 2 ^ (8 * (3 - exponent c)) * 2 ^ (8 * (exponent c - 3)) := by
  unfold denote
  split_ifs with h
  · rw [Nat.sub_eq_zero_of_le h, Nat.shiftLeft_eq, Nat.mul_zero, Nat.pow_zero, Nat.div_one]
  · have hzero : exponent c - 3 = 0 := by omega
    rw [hzero, Nat.shiftRight_eq_div_pow, Nat.mul_zero, Nat.pow_zero, Nat.mul_one]

end CompactTarget

namespace Target

open CompactTarget

/-- The value of a compact form without a sign, where the shift is only taken modulo 256. -/
theorem toNat_fromCompact_nonNegative {c : CompactTarget} (hc : NonNegative c) :
    (fromCompact c).toNat =
      mantissa c / 2 ^ (8 * (3 - exponent c)) * 2 ^ (8 * (exponent c - 3) % 256) % 2 ^ 256 := by
  rw [nonNegative_iff] at hc
  have hmant : mantissa c = c.toNat % 2 ^ 24 := by
    rw [mantissa_eq]
    omega
  have hle : mantissa c / 2 ^ (8 * (3 - exponent c)) ≤ mantissa c := Nat.div_le_self _ _
  have hlt := mantissa_lt c
  rw [toNat_fromCompact_eq, ← exponent_eq, ← hmant, if_neg (by omega)]

/-- A shift that is taken modulo 256 gives the integer wherever the integer fits: from the exponent
35 on only a zero mantissa does. -/
theorem toNat_fromCompact_eq_denote {c : CompactTarget} (hc : NonNegative c)
    (hfit : denote c < 2 ^ 256) : (fromCompact c).toNat = denote c := by
  rw [toNat_fromCompact_nonNegative hc]
  rw [denote_eq] at hfit ⊢
  by_cases h : exponent c < 35
  · rw [Nat.mod_eq_of_lt (a := 8 * (exponent c - 3)) (by omega), Nat.mod_eq_of_lt hfit]
  · have hpow : 2 ^ 256 ≤ 2 ^ (8 * (exponent c - 3)) := Nat.pow_le_pow_right (by decide) (by omega)
    have hzero : mantissa c / 2 ^ (8 * (3 - exponent c)) = 0 := by
      by_contra hne
      have := Nat.le_mul_of_pos_left (2 ^ (8 * (exponent c - 3))) (Nat.pos_of_ne_zero hne)
      omega
    rw [hzero, Nat.zero_mul, Nat.zero_mul, Nat.zero_mod]

/-- The sign bit is lost where it is shifted out of its place but not out of the mantissa. -/
theorem fromCompact_eq_zero_iff_of_sign {c : CompactTarget} (hc : ¬ NonNegative c) :
    fromCompact c = U256.ZERO ↔ ¬ (exponent c = 1 ∨ exponent c = 2) := by
  rw [nonNegative_iff, Nat.not_lt] at hc
  have hr : c.toNat % 2 ^ 24 < 2 ^ 24 := Nat.mod_lt _ (by decide)
  rw [← U256.toNat_inj, toNat_fromCompact_eq, ← exponent_eq, U256.toNat_ZERO]
  generalize c.toNat % 2 ^ 24 = r at *
  by_cases h₀ : exponent c = 0
  · have hgone : r / 2 ^ 24 = 0 := by omega
    rw [h₀]
    show (if 2 ^ 23 ≤ r / 2 ^ 24 then 0 else r / 2 ^ 24 * 2 ^ 0 % 2 ^ 256) = 0 ↔ _
    rw [hgone]
    decide
  by_cases h₁ : exponent c = 1
  · rw [h₁]
    show (if 2 ^ 23 ≤ r / 2 ^ 16 then 0 else r / 2 ^ 16 * 2 ^ 0 % 2 ^ 256) = 0 ↔ _
    rw [if_neg (by omega)]
    omega
  by_cases h₂ : exponent c = 2
  · rw [h₂]
    show (if 2 ^ 23 ≤ r / 2 ^ 8 then 0 else r / 2 ^ 8 * 2 ^ 0 % 2 ^ 256) = 0 ↔ _
    rw [if_neg (by omega)]
    omega
  · have hzero : 3 - exponent c = 0 := by omega
    rw [hzero, if_pos (by simpa using hc)]
    exact iff_of_true rfl (by omega)

/-- What `SetCompact` gives for a compact value. -/
def AgreesWithSetCompact (c : CompactTarget) : Prop :=
  (¬ NonNegative c → fromCompact c = U256.ZERO) ∧
    (NonNegative c → denote c < 2 ^ 256 → (fromCompact c).toNat = denote c)

/-- `fromCompact` agrees with `SetCompact` unless the sign bit is set below an exponent of 1 or 2. -/
theorem fromCompact_agrees_iff (c : CompactTarget) :
    AgreesWithSetCompact c ↔ ¬ (¬ NonNegative c ∧ (exponent c = 1 ∨ exponent c = 2)) := by
  unfold AgreesWithSetCompact
  by_cases hc : NonNegative c
  · exact iff_of_true ⟨fun h => absurd hc h, toNat_fromCompact_eq_denote⟩ fun h => h.1 hc
  · rw [fromCompact_eq_zero_iff_of_sign hc]
    constructor
    · intro h he
      exact h.1 hc he.2
    · intro h
      exact ⟨fun _ he => h ⟨hc, he⟩, fun h' => absurd h' hc⟩

/-- `0x01fedcba` is negative and gives the target `0xfe`. -/
theorem fromCompact_drops_sign :
    ¬ NonNegative 0x01fedcba ∧ (fromCompact 0x01fedcba).toNat = 0xfe ∧
      ¬ AgreesWithSetCompact 0x01fedcba := by
  have hsign : ¬ NonNegative 0x01fedcba := by decide
  have hval : (fromCompact 0x01fedcba).toNat = 0xfe := by decide
  refine ⟨hsign, hval, fun h => ?_⟩
  have hzero := h.1 hsign
  rw [hzero] at hval
  exact absurd hval (by decide)

/-! ## Rounding down to a compact value -/

/-- A number of few leading bits is on the grid. -/
theorem unit_dvd_of_eq {m k : ℕ} (hm : m < 2 ^ 23) :
    compactGrid.unit (m * 2 ^ (8 * k)) ∣ m * 2 ^ (8 * k) := by
  have hsize : (m * 2 ^ (8 * k)).size ≤ 23 + 8 * k := by
    rw [Nat.size_le, Nat.pow_add]
    exact Nat.mul_lt_mul_of_pos_right hm (Nat.two_pow_pos _)
  have hle : 8 * ((m * 2 ^ (8 * k)).size / 8 - 2) ≤ 8 * k := by omega
  show 2 ^ (8 * ((m * 2 ^ (8 * k)).size / 8 - 2)) ∣ m * 2 ^ (8 * k)
  exact Nat.dvd_mul_left_of_dvd (Nat.pow_dvd_pow 2 hle) m

/-- Whatever a non-negative compact value gives is on the grid, also when its shift wraps. -/
theorem unit_dvd_of_nonNegative {c : CompactTarget} (hc : NonNegative c) :
    compactGrid.unit (fromCompact c).toNat ∣ (fromCompact c).toNat := by
  have hlt := mantissa_lt c
  have hle : mantissa c / 2 ^ (8 * (3 - exponent c)) ≤ mantissa c := Nat.div_le_self _ _
  obtain ⟨k, hk⟩ : ∃ k, 8 * (exponent c - 3) % 256 = 8 * k := ⟨(exponent c - 3) % 32, by omega⟩
  have hk32 : 8 * k ≤ 256 := by omega
  have hsplit : (2 : ℕ) ^ 256 = 2 ^ (256 - 8 * k) * 2 ^ (8 * k) := by
    rw [← Nat.pow_add, Nat.sub_add_cancel hk32]
  rw [toNat_fromCompact_nonNegative hc, hk, hsplit, Nat.mul_mod_mul_right]
  apply unit_dvd_of_eq
  exact Nat.lt_of_le_of_lt (Nat.mod_le _ _) (by omega)

theorem toCompactLossy_nonNegative (t : Target) : NonNegative (toCompactLossy t) := by
  have hlt := compactMantissa_lt t.toNat
  rw [nonNegative_iff, toNat_toCompactLossy]
  omega

/-- The compact form of a target stands for what `fromCompact` makes of it. -/
theorem denote_toCompactLossy (t : Target) :
    denote (toCompactLossy t) = (fromCompact (toCompactLossy t)).toNat := by
  have hlt := compactMantissa_lt t.toNat
  have hval := toNat_toCompactLossy t
  have hmant : mantissa (toCompactLossy t) = compactMantissa t.toNat := by
    rw [mantissa_eq, hval]
    omega
  have hexpt : exponent (toCompactLossy t) = compactSize t.toNat := by
    rw [exponent_eq, hval]
    omega
  have hunit : compactGrid.unit t.toNat = 2 ^ (8 * (compactSize t.toNat - 3)) := by
    rw [compactSize_sub]
    rfl
  rw [toNat_fromCompact_toCompactLossy, denote_eq, hmant, hexpt, Grid.floor, hunit, compactMantissa,
    Nat.div_div_eq_div_mul, Nat.mul_div_mul_right _ _ (Nat.two_pow_pos _)]

theorem compactSize_mono {m n : ℕ} (h : m ≤ n) : compactSize m ≤ compactSize n := by
  have hsize := Nat.size_le_size h
  unfold compactSize
  split_ifs <;> omega

theorem toCompactLossy_mono {t u : Target} (h : t.toNat ≤ u.toNat) :
    (toCompactLossy t).toNat ≤ (toCompactLossy u).toNat := by
  have hsize := compactSize_mono h
  have ht := compactMantissa_lt t.toNat
  rw [toNat_toCompactLossy, toNat_toCompactLossy]
  by_cases heq : compactSize t.toNat = compactSize u.toNat
  · have hmant : compactMantissa t.toNat ≤ compactMantissa u.toNat := by
      unfold compactMantissa
      rw [heq]
      exact Nat.div_le_div_right (Nat.mul_le_mul_right _ h)
    omega
  · omega

/-- Rounding keeps the length and the leading bytes, so the compact form stays the same. -/
theorem toCompactLossy_floor {t u : Target} (h : u.toNat = compactGrid.floor t.toNat) :
    toCompactLossy u = toCompactLossy t := by
  have hunit : compactGrid.unit t.toNat = 2 ^ (8 * (compactSize t.toNat - 3)) := by
    rw [compactSize_sub]
    rfl
  have hsize : u.toNat.size = t.toNat.size := by
    rw [h]
    by_cases hsmall : t.toNat.size / 8 ≤ 2
    · rw [compactGrid.floor_of_unit_dvd]
      show 2 ^ (8 * (t.toNat.size / 8 - 2)) ∣ t.toNat
      rw [Nat.sub_eq_zero_of_le hsmall]
      exact Nat.one_dvd _
    · exact Grid.size_div_mul (by omega)
  have hzero : u.toNat = 0 ↔ t.toNat = 0 := by
    rw [← Nat.size_eq_zero, hsize, Nat.size_eq_zero]
  have hlength : compactSize u.toNat = compactSize t.toNat := by
    unfold compactSize
    rw [hsize]
    exact if_congr hzero rfl rfl
  have hmant : compactMantissa u.toNat = compactMantissa t.toNat := by
    unfold compactMantissa
    rw [hlength, h, Grid.floor, hunit]
    by_cases hs : compactSize t.toNat ≤ 3
    · rw [Nat.sub_eq_zero_of_le hs, Nat.mul_zero, Nat.pow_zero, Nat.mul_one, Nat.div_one,
        Nat.div_one, Nat.div_one]
    · have hwhole : 3 - compactSize t.toNat = 0 := by omega
      rw [hwhole, Nat.mul_zero, Nat.pow_zero, Nat.mul_one, Nat.mul_one,
        Nat.mul_div_cancel _ (Nat.two_pow_pos _)]
  rw [← UInt32.toNat_inj, toNat_toCompactLossy, toNat_toCompactLossy, hlength, hmant]

/-- Going to the compact form and back gives the greatest target that a non-negative compact value
gives and that is at most `t`; the compact form itself is monotone and canonical. -/
theorem toCompactLossy_rounds_down (t : Target) :
    NonNegative (toCompactLossy t) ∧
      denote (toCompactLossy t) = (fromCompact (toCompactLossy t)).toNat ∧
      U256.le (fromCompact (toCompactLossy t)) t ∧
      (∀ c, NonNegative c → U256.le (fromCompact c) t →
        U256.le (fromCompact c) (fromCompact (toCompactLossy t))) ∧
      fromCompact (toCompactLossy (fromCompact (toCompactLossy t))) =
        fromCompact (toCompactLossy t) ∧
      (∀ u, U256.le t u →
        U256.le (fromCompact (toCompactLossy t)) (fromCompact (toCompactLossy u)) ∧
          toCompactLossy t ≤ toCompactLossy u) ∧
      toCompactLossy (fromCompact (toCompactLossy t)) = toCompactLossy t := by
  have hfloor := toNat_fromCompact_toCompactLossy t
  have hcanonical := toCompactLossy_floor hfloor
  refine ⟨toCompactLossy_nonNegative t, denote_toCompactLossy t, ?_, ?_, ?_, ?_, hcanonical⟩
  · rw [U256.le_iff, hfloor]
    exact compactGrid.floor_le _
  · intro c hc hle
    rw [U256.le_iff] at hle
    rw [U256.le_iff, hfloor, ← compactGrid.floor_of_unit_dvd (unit_dvd_of_nonNegative hc)]
    exact compactGrid.floor_mono hle
  · rw [hcanonical]
  · intro u hle
    rw [U256.le_iff] at hle
    constructor
    · rw [U256.le_iff, hfloor, toNat_fromCompact_toCompactLossy]
      exact compactGrid.floor_mono hle
    · rw [UInt32.le_iff_toNat_le]
      exact toCompactLossy_mono hle

end Target

end RustDogecoin
