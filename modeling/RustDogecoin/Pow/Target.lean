import RustDogecoin.Lib.Grid
import RustDogecoin.Pow.U256

/-!
# Targets and their compact form

`Target` and `CompactTarget` of `pow.rs`.  The compact form keeps the leading two or three bytes of
a target next to its length in bytes.  Going to the compact form and back rounds a target down to
`compactGrid`.
-/

namespace RustDogecoin

/-- A 256-bit integer representing target. -/
abbrev Target := U256

/-- Encoding of 256-bit target as 32-bit float. -/
abbrev CompactTarget := UInt32

namespace Target

/-- Computes the `Target` value from a compact representation. -/
def fromCompact (bits : CompactTarget) : Target :=
  let unshiftedExpt := (bits >>> 24).toNat
  let (mant, expt) :=
    if unshiftedExpt ≤ 3 then
      ((bits &&& 0xFFFFFF) >>> UInt32.ofNat (8 * (3 - unshiftedExpt)), 0)
    else (bits &&& 0xFFFFFF, 8 * (unshiftedExpt - 3))
  -- the mantissa is signed but may not be negative
  if mant > 0x7FFFFF then U256.ZERO
  else U256.wrappingShl (U256.ofWord (mant.toBitVec.setWidth 128)) expt

/-- Computes the compact value from a `Target` representation. -/
def toCompactLossy (t : Target) : CompactTarget :=
  let size := (U256.bits t + 7) / 8
  let compact : UInt32 :=
    if size ≤ 3 then ⟨(U256.lowU64 t <<< (8 * (3 - size))).setWidth 32⟩
    else ⟨U256.lowU32 (U256.wrappingShr t (8 * (size - 3)))⟩
  let (compact, size) :=
    if compact &&& 0x00800000 ≠ 0 then (compact >>> 8, size + 1) else (compact, size)
  compact ||| (UInt32.ofNat size <<< 24)

/-! ## Specifications -/

theorem toNat_mantissa {bits : CompactTarget} {m s : ℕ} (hb : bits.toNat = m + 2 ^ 24 * s)
    (hm : m < 2 ^ 24) : (bits &&& 0xFFFFFF).toNat = m := by
  rw [UInt32.toNat_and, hb]
  show (m + 2 ^ 24 * s) &&& (2 ^ 24 - 1) = m
  rw [Nat.and_two_pow_sub_one_eq_mod]
  omega

theorem toNat_exponent {bits : CompactTarget} {m s : ℕ} (hb : bits.toNat = m + 2 ^ 24 * s)
    (hm : m < 2 ^ 24) : (bits >>> 24).toNat = s := by
  rw [UInt32.toNat_shiftRight, hb]
  show (m + 2 ^ 24 * s) >>> 24 = s
  rw [Nat.shiftRight_eq_div_pow]
  omega

/-- The value of every compact form, the negative and the overflowing ones included. -/
theorem toNat_fromCompact_eq (bits : CompactTarget) :
    (fromCompact bits).toNat =
      if 2 ^ 23 ≤ bits.toNat % 2 ^ 24 / 2 ^ (8 * (3 - bits.toNat / 2 ^ 24)) then 0
      else bits.toNat % 2 ^ 24 / 2 ^ (8 * (3 - bits.toNat / 2 ^ 24)) *
        2 ^ (8 * (bits.toNat / 2 ^ 24 - 3) % 256) % 2 ^ 256 := by
  have hb : bits.toNat = bits.toNat % 2 ^ 24 + 2 ^ 24 * (bits.toNat / 2 ^ 24) := by omega
  have hr : bits.toNat % 2 ^ 24 < 2 ^ 24 := Nat.mod_lt _ (by decide)
  have hmant := toNat_mantissa hb hr
  have hexpt := toNat_exponent hb hr
  generalize bits.toNat % 2 ^ 24 = r at *
  generalize bits.toNat / 2 ^ 24 = e at *
  unfold fromCompact
  dsimp only
  rw [hexpt]
  by_cases hsmall : e ≤ 3
  · have hshift : ((bits &&& 0xFFFFFF) >>> UInt32.ofNat (8 * (3 - e))).toNat =
        r / 2 ^ (8 * (3 - e)) := by
      rw [UInt32.toNat_shiftRight, hmant, UInt32.toNat_ofNat', Nat.mod_eq_of_lt (by omega),
        Nat.mod_eq_of_lt (by omega), Nat.shiftRight_eq_div_pow]
    have hle : r / 2 ^ (8 * (3 - e)) ≤ r := Nat.div_le_self _ _
    have hneg : (bits &&& 0xFFFFFF) >>> UInt32.ofNat (8 * (3 - e)) > 0x7FFFFF ↔
        2 ^ 23 ≤ r / 2 ^ (8 * (3 - e)) := by
      rw [gt_iff_lt, UInt32.lt_iff_toNat_lt, hshift]
      exact Iff.rfl
    rw [if_pos hsmall]
    dsimp only
    rw [apply_ite U256.toNat]
    apply if_congr hneg rfl
    rw [U256.toNat_wrappingShl_mod, U256.toNat_ofWord, BitVec.toNat_setWidth,
      UInt32.toNat_toBitVec, hshift, Nat.sub_eq_zero_of_le hsmall, Nat.mul_zero,
      Nat.mod_eq_of_lt (a := r / _) (by omega)]
  · have hneg : bits &&& 0xFFFFFF > 0x7FFFFF ↔ 2 ^ 23 ≤ r := by
      rw [gt_iff_lt, UInt32.lt_iff_toNat_lt, hmant]
      exact Iff.rfl
    have hzero : 3 - e = 0 := by omega
    rw [if_neg hsmall, hzero, Nat.mul_zero, Nat.pow_zero, Nat.div_one]
    dsimp only
    rw [apply_ite U256.toNat]
    apply if_congr hneg rfl
    rw [U256.toNat_wrappingShl_mod, U256.toNat_ofWord, BitVec.toNat_setWidth,
      UInt32.toNat_toBitVec, hmant, Nat.mod_eq_of_lt (a := r) (by omega)]

theorem toNat_fromCompact {bits : CompactTarget} {m s : ℕ} (hb : bits.toNat = m + 2 ^ 24 * s)
    (hm : m < 2 ^ 23) (hs : s < 35) :
    (fromCompact bits).toNat = m / 2 ^ (8 * (3 - s)) * 2 ^ (8 * (s - 3)) % 2 ^ 256 := by
  have hmant : bits.toNat % 2 ^ 24 = m := by omega
  have hexpt : bits.toNat / 2 ^ 24 = s := by omega
  have hle : m / 2 ^ (8 * (3 - s)) ≤ m := Nat.div_le_self _ _
  rw [toNat_fromCompact_eq, hmant, hexpt, if_neg (by omega),
    Nat.mod_eq_of_lt (a := 8 * (s - 3)) (by omega)]

/-- The length that the compact form of `n` records. -/
def compactSize (n : ℕ) : ℕ := if n = 0 then 0 else n.size / 8 + 1

/-- The leading bytes that the compact form of `n` records. -/
def compactMantissa (n : ℕ) : ℕ := n * 2 ^ (8 * (3 - compactSize n)) / 2 ^ (8 * (compactSize n - 3))

theorem leading_lt_iff {n j s : ℕ} (hj : j ≤ 24) :
    n * 2 ^ (8 * (3 - s)) / 2 ^ (8 * (s - 3)) < 2 ^ (24 - j) ↔ n * 2 ^ j < 2 ^ (8 * s) := by
  have hpow : 2 ^ (24 - j) * 2 ^ (8 * (s - 3)) * 2 ^ j = 2 ^ (8 * s) * 2 ^ (8 * (3 - s)) := by
    rw [← Nat.pow_add, ← Nat.pow_add, ← Nat.pow_add]
    congr 1
    omega
  rw [Nat.div_lt_iff_lt_mul (Nat.two_pow_pos _), ← Nat.mul_lt_mul_right (Nat.two_pow_pos j), hpow,
    Nat.mul_right_comm, Nat.mul_lt_mul_right (Nat.two_pow_pos _)]

/-- Dropping the last of the three bytes. -/
theorem leading_succ (n size : ℕ) :
    n * 2 ^ (8 * (3 - (size + 1))) / 2 ^ (8 * (size + 1 - 3)) =
      n * 2 ^ (8 * (3 - size)) / 2 ^ (8 * (size - 3)) / 2 ^ 8 := by
  rw [Nat.div_div_eq_div_mul, ← Nat.pow_add]
  by_cases h : size ≤ 2
  · have hl : 8 * (3 - size) = 8 * (3 - (size + 1)) + 8 := by omega
    have hr : 8 * (size - 3) + 8 = 8 * (size + 1 - 3) + 8 := by omega
    rw [hl, hr, Nat.pow_add, Nat.pow_add, ← Nat.mul_assoc,
      Nat.mul_div_mul_right _ _ (Nat.two_pow_pos 8)]
  · have hl : 3 - (size + 1) = 3 - size := by omega
    have hr : 8 * (size - 3) + 8 = 8 * (size + 1 - 3) := by omega
    rw [hl, hr]

theorem lt_two_pow_compactSize (n : ℕ) : n * 2 ^ 1 < 2 ^ (8 * compactSize n) := by
  unfold compactSize
  split_ifs with h
  · subst h
    decide
  · have hn : n < 2 ^ n.size := Nat.lt_size_self n
    have hpow : 2 ^ (n.size + 1) ≤ 2 ^ (8 * (n.size / 8 + 1)) :=
      Nat.pow_le_pow_right (by decide) (by omega)
    rw [Nat.pow_succ] at hpow
    omega

theorem compactMantissa_lt (n : ℕ) : compactMantissa n < 2 ^ 23 :=
  (leading_lt_iff (j := 1) (by decide)).mpr (lt_two_pow_compactSize n)

theorem bits_eq_size (t : Target) : U256.bits t = t.toNat.size :=
  eq_of_forall_ge_iff fun _ => U256.bits_le_iff.trans Nat.size_le.symm

/-- The leading three bytes, before the sign bit is looked at. -/
theorem toNat_leading {t : Target} {size : ℕ} (h : t.toNat < 2 ^ (8 * size)) (hs : size ≤ 32) :
    UInt32.toNat (if size ≤ 3 then ⟨(U256.lowU64 t <<< (8 * (3 - size))).setWidth 32⟩
      else ⟨U256.lowU32 (U256.wrappingShr t (8 * (size - 3)))⟩) =
        t.toNat * 2 ^ (8 * (3 - size)) / 2 ^ (8 * (size - 3)) := by
  have hlt := (leading_lt_iff (j := 0) (by decide)).mpr (by simpa using h)
  split_ifs with hsmall
  · rw [Nat.sub_eq_zero_of_le hsmall, Nat.mul_zero, Nat.pow_zero, Nat.div_one] at hlt ⊢
    have hn : t.toNat < 2 ^ 24 := by
      apply Nat.lt_of_lt_of_le h
      exact Nat.pow_le_pow_right (by decide) (by omega)
    rw [← UInt32.toNat_toBitVec, BitVec.toNat_setWidth, BitVec.toNat_shiftLeft, U256.toNat_lowU64,
      Nat.shiftLeft_eq, Nat.mod_eq_of_lt (a := t.toNat) (by omega), Nat.mod_eq_of_lt (by omega),
      Nat.mod_eq_of_lt (by omega)]
  · have hzero : 3 - size = 0 := by omega
    rw [hzero, Nat.mul_zero, Nat.pow_zero, Nat.mul_one] at hlt ⊢
    rw [← UInt32.toNat_toBitVec, U256.toNat_lowU32, U256.toNat_wrappingShr _ (by omega),
      Nat.mod_eq_of_lt (by omega)]

theorem compactSize_eq {n size : ℕ} (hsize : size = (n.size + 7) / 8) :
    compactSize n = if n * 2 ^ 1 < 2 ^ (8 * size) then size else size + 1 := by
  have hlog : n * 2 ^ 1 < 2 ^ (8 * size) ↔ n.size + 1 ≤ 8 * size ∨ n = 0 := by
    by_cases hn : n = 0
    · simp [hn]
    · have hpos : 0 < n.size := Nat.size_pos.mpr (Nat.pos_of_ne_zero hn)
      obtain ⟨j, hj⟩ : ∃ j, 8 * size = j + 1 := ⟨8 * size - 1, by omega⟩
      rw [hj, Nat.pow_add, Nat.mul_lt_mul_right (by decide), ← Nat.size_le]
      omega
  unfold compactSize
  by_cases hn : n = 0
  · subst hn
    simp_all
  · rw [if_neg hn]
    split_ifs with h
    · rw [hlog] at h
      omega
    · rw [hlog] at h
      omega

theorem sign_ne_zero_iff {c : UInt32} (hc : c.toNat < 2 ^ 24) :
    c &&& 0x00800000 ≠ 0 ↔ 2 ^ 23 ≤ c.toNat := by
  have hand : (c &&& 0x00800000).toNat = c.toNat &&& 2 ^ 23 := by
    rw [UInt32.toNat_and]
    rfl
  rw [Ne, ← UInt32.toNat_inj, hand]
  show ¬ c.toNat &&& 2 ^ 23 = 0 ↔ _
  rw [Nat.and_two_pow, Nat.testBit_eq_decide_div_mod_eq]
  by_cases h : 2 ^ 23 ≤ c.toNat
  · have hdiv : c.toNat / 2 ^ 23 = 1 := by omega
    rw [hdiv]
    exact iff_of_true (by decide) h
  · have hdiv : c.toNat / 2 ^ 23 = 0 := by omega
    rw [hdiv]
    exact iff_of_false (by decide) h

theorem toNat_compact_or {c : UInt32} {size : ℕ} (hc : c.toNat < 2 ^ 24) (hs : size < 256) :
    (c ||| (UInt32.ofNat size <<< 24)).toNat = c.toNat + 2 ^ 24 * size := by
  have hshift : (UInt32.ofNat size <<< 24).toNat = 2 ^ 24 * size := by
    have h24 : UInt32.toNat 24 % 32 = 24 := by decide
    rw [UInt32.toNat_shiftLeft, UInt32.toNat_ofNat', h24, Nat.shiftLeft_eq]
    omega
  rw [UInt32.toNat_or, hshift, Nat.or_comm, ← Nat.two_pow_add_eq_or_of_lt hc, Nat.add_comm]

theorem toNat_toCompactLossy (t : Target) :
    (toCompactLossy t).toNat = compactMantissa t.toNat + 2 ^ 24 * compactSize t.toNat := by
  have hbits := U256.bits_le t
  have hlt := U256.toNat_lt_two_pow_bits t
  unfold toCompactLossy
  dsimp only
  rw [bits_eq_size] at *
  generalize hsize : (t.toNat.size + 7) / 8 = size
  have hfit : t.toNat < 2 ^ (8 * size) :=
    Nat.lt_of_lt_of_le hlt (Nat.pow_le_pow_right (by decide) (by omega))
  have hlead := toNat_leading hfit (by omega)
  have hlead24 := (leading_lt_iff (j := 0) (by decide)).mpr (by simpa using hfit)
  have hsizes := compactSize_eq hsize.symm
  generalize (if size ≤ 3 then (⟨(U256.lowU64 t <<< (8 * (3 - size))).setWidth 32⟩ : UInt32)
    else ⟨U256.lowU32 (U256.wrappingShr t (8 * (size - 3)))⟩) = c at *
  rw [← hlead] at hlead24
  have hsign := sign_ne_zero_iff hlead24
  have hbig := leading_lt_iff (n := t.toNat) (j := 1) (s := size) (by decide)
  rw [← hlead] at hbig
  unfold compactMantissa
  by_cases hn : t.toNat * 2 ^ 1 < 2 ^ (8 * size)
  · have hclear : ¬ (c &&& 0x00800000 ≠ 0) := by
      rw [hsign]
      exact Nat.not_le.mpr (hbig.mpr hn)
    rw [if_pos hn] at hsizes
    rw [if_neg hclear]
    dsimp only
    rw [toNat_compact_or hlead24 (by omega), hsizes, hlead]
  · have hset : c &&& 0x00800000 ≠ 0 := by
      rw [hsign]
      exact Nat.le_of_not_lt (mt hbig.mp hn)
    have hshift : (c >>> 8).toNat = c.toNat / 2 ^ 8 := by
      rw [UInt32.toNat_shiftRight]
      exact Nat.shiftRight_eq_div_pow _ _
    rw [if_neg hn] at hsizes
    rw [if_pos hset]
    dsimp only
    rw [toNat_compact_or (by omega) (by omega), hshift, hsizes, leading_succ, hlead]

/-! ## The targets that have a compact form -/

/-- The compact form keeps at least the two leading bytes of a target, and three if the first of
them leaves the sign bit free. -/
def compactGrid : Grid := .floating 8 2 (by decide) (by decide)

theorem compactSize_sub (n : ℕ) : compactSize n - 3 = n.size / 8 - 2 := by
  unfold compactSize
  split_ifs with h
  · simp [h]
  · omega

theorem compactSize_le (t : Target) : compactSize t.toNat ≤ 33 := by
  have hbits := U256.bits_le t
  rw [bits_eq_size] at hbits
  unfold compactSize
  split_ifs <;> omega

theorem toNat_fromCompact_toCompactLossy (t : Target) :
    (fromCompact (toCompactLossy t)).toNat = compactGrid.floor t.toNat := by
  have hle := compactSize_le t
  have hlt := U256.toNat_lt t
  have hunit : compactGrid.unit t.toNat = 2 ^ (8 * (compactSize t.toNat - 3)) := by
    rw [compactSize_sub]
    rfl
  have hfloor := compactGrid.floor_le t.toNat
  rw [toNat_fromCompact (toNat_toCompactLossy t) (compactMantissa_lt _) (by omega)]
  unfold Grid.floor at hfloor ⊢
  rw [hunit] at hfloor ⊢
  unfold compactMantissa
  generalize compactSize t.toNat = s at *
  rw [Nat.div_div_eq_div_mul, Nat.mul_div_mul_right _ _ (Nat.two_pow_pos _),
    Nat.mod_eq_of_lt (by omega)]

/-- A compact target that the compact form of some target can be. -/
def IsCanonical (c : CompactTarget) : Prop := toCompactLossy (fromCompact c) = c

instance (c : CompactTarget) : Decidable (IsCanonical c) :=
  inferInstanceAs (Decidable (toCompactLossy (fromCompact c) = c))

theorem IsCanonical.unit_dvd {c : CompactTarget} (hc : IsCanonical c) :
    compactGrid.unit (fromCompact c).toNat ∣ (fromCompact c).toNat := by
  have h := toNat_fromCompact_toCompactLossy (fromCompact c)
  rw [hc] at h
  rw [h]
  exact compactGrid.unit_dvd_floor _

/-- Targets up to one that is on the grid but not a multiple of four are all on the grid. -/
theorem floor_eq_self {m n : ℕ} (hn : compactGrid.unit n ∣ n) (h4 : ¬ 4 ∣ n) (hm : m ≤ n) :
    compactGrid.floor m = m := by
  apply compactGrid.floor_of_unit_dvd
  have hdvd := compactGrid.unit_dvd hm
  have hunit : compactGrid.unit n = 2 ^ (8 * (n.size / 8 - 2)) := rfl
  by_cases hsize : n.size / 8 ≤ 2
  · rw [hunit, Nat.sub_eq_zero_of_le hsize] at hdvd
    exact Nat.dvd_trans hdvd (Nat.one_dvd m)
  · have hfour : 4 ∣ compactGrid.unit n := by
      rw [hunit]
      exact Nat.pow_dvd_pow 2 (show 2 ≤ 8 * (n.size / 8 - 2) by omega)
    exact absurd (Nat.dvd_trans hfour hn) h4

end Target

end RustDogecoin
