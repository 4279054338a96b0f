import RustDogecoin.Lib.Bytes
import Mathlib.Algebra.Group.Nat.Defs

/-!
# Sign-magnitude integers

Integers as little-endian bytes with the sign in the most significant bit.  A number that is not zero
has one form on every number of bytes that it fits on (`encode`), so the shortest form is unique; zero
has the empty form and, on more bytes, a positive and a negative one.
-/

namespace SignMagnitude

/-- The numbers on `n` bytes are below this in absolute value. -/
def bound : ℕ → ℕ
  | 0 => 1
  | n + 1 => 128 * 256 ^ n

/-- The number that the bytes denote. -/
def value (v : Bytes) : ℤ :=
  if leNat v < bound v.length then leNat v else -((leNat v - bound v.length : ℕ) : ℤ)

/-- No other form of the number has fewer bytes. -/
def IsShortest (v : Bytes) : Prop := ∀ v', value v' = value v → v.length ≤ v'.length

/-- The form of a number on `n` bytes. -/
def encode (n : ℕ) (x : ℤ) : Bytes := leBytes n (x.natAbs + if x < 0 then bound n else 0)

theorem bound_lt_succ (n : ℕ) : bound n < bound (n + 1) := by
  cases n with
  | zero => decide
  | succ n =>
    have hpos : 0 < 256 ^ n := Nat.pow_pos (by decide)
    rw [bound, bound, Nat.pow_succ]
    omega

theorem bound_le {m n : ℕ} (h : m ≤ n) : bound m ≤ bound n := by
  induction h with
  | refl => exact le_rfl
  | step _ ih => exact ih.trans (bound_lt_succ _).le

theorem bound_le_pow (n : ℕ) : bound n ≤ 256 ^ n := by
  cases n with
  | zero => exact le_rfl
  | succ n =>
    rw [bound, Nat.pow_succ]
    omega

theorem pow_succ_eq_bound (n : ℕ) : 256 ^ (n + 1) = 2 * bound (n + 1) := by
  rw [bound, Nat.pow_succ]
  omega

theorem leNat_lt_bound (v : Bytes) : leNat v < 2 * bound v.length := by
  have hlt := leNat_lt v
  cases hlen : v.length with
  | zero =>
    rw [hlen] at hlt
    exact hlt.trans (by decide)
  | succ n => rwa [hlen, pow_succ_eq_bound] at hlt

theorem natAbs_value (v : Bytes) : (value v).natAbs =
    if leNat v < bound v.length then leNat v else leNat v - bound v.length := by
  rw [value]
  split_ifs
  · exact Int.natAbs_natCast _
  · rw [Int.natAbs_neg, Int.natAbs_natCast]

theorem natAbs_value_lt (v : Bytes) : (value v).natAbs < bound v.length := by
  have hlt := leNat_lt_bound v
  rw [natAbs_value]
  split_ifs <;> omega

@[simp] theorem length_encode (n : ℕ) (x : ℤ) : (encode n x).length = n := length_leBytes _ _

theorem leNat_encode {n : ℕ} {x : ℤ} (h : x.natAbs < bound n) :
    leNat (encode n x) = x.natAbs + if x < 0 then bound n else 0 := by
  cases n with
  | zero =>
    have hx : x = 0 := Int.natAbs_eq_zero.1 (Nat.lt_one_iff.1 h)
    subst hx
    rfl
  | succ n =>
    apply leNat_leBytes_of_lt
    rw [pow_succ_eq_bound]
    split_ifs <;> omega

theorem value_encode {n : ℕ} {x : ℤ} (h : x.natAbs < bound n) : value (encode n x) = x := by
  rw [value, leNat_encode h, length_encode]
  split_ifs with hneg <;> omega

/-- The last byte is the high byte of the absolute value with the sign. -/
theorem encode_succ {n : ℕ} {x : ℤ} (h : x.natAbs < bound (n + 1)) : encode (n + 1) x =
    leBytes n x.natAbs ++ [UInt8.ofNat (x.natAbs / 256 ^ n + if x < 0 then 128 else 0)] := by
  have hpos : 0 < 256 ^ n := Nat.pow_pos (by decide)
  have hsign : (x.natAbs + if x < 0 then bound (n + 1) else 0) =
      x.natAbs + (if x < 0 then 128 else 0) * 256 ^ n := by
    split_ifs
    · rfl
    · rw [Nat.zero_mul]
  have hhigh : x.natAbs / 256 ^ n < 128 := Nat.div_lt_of_lt_mul (by rwa [Nat.mul_comm])
  have hlast : (x.natAbs / 256 ^ n + if x < 0 then 128 else 0) % 256 =
      x.natAbs / 256 ^ n + if x < 0 then 128 else 0 := by
    apply Nat.mod_eq_of_lt
    split_ifs <;> omega
  rw [encode, hsign, leBytes_succ_eq_append, Nat.add_mul_div_right _ _ hpos, hlast,
    ← leBytes_mod n (_ + _), Nat.add_mul_mod_self_right, leBytes_mod]

/-- A form of a number other than zero is the one on its number of bytes. -/
theorem eq_encode {v : Bytes} (h : value v ≠ 0) : v = encode v.length (value v) := by
  have hnat : leNat v = leNat (encode v.length (value v)) := by
    rw [leNat_encode (natAbs_value_lt v)]
    unfold value at h ⊢
    split_ifs at h ⊢ <;> omega
  have hback := leBytes_leNat (encode v.length (value v))
  rw [length_encode, ← hnat, leBytes_leNat] at hback
  exact hback

theorem leNat_concat (v : Bytes) (b : UInt8) : leNat (v ++ [b]) = leNat v + 256 ^ v.length * b.toNat := by
  rw [leNat_append]
  rfl

/-- The most significant bit is the sign. -/
theorem leNat_append_lt_bound_iff (v : Bytes) (b : UInt8) :
    leNat (v ++ [b]) < bound (v ++ [b]).length ↔ b.toNat < 128 := by
  have hlow := leNat_lt v
  rw [List.length_append, List.length_singleton, bound, leNat_concat, Nat.mul_comm 128]
  constructor
  · intro h
    apply Nat.lt_of_mul_lt_mul_left (a := 256 ^ v.length)
    omega
  · intro h
    have hmul : 256 ^ v.length * (b.toNat + 1) ≤ 256 ^ v.length * 128 := Nat.mul_le_mul_left _ h
    rw [Nat.mul_add_one] at hmul
    omega

/-- The other bits are the absolute value. -/
theorem natAbs_value_append (v : Bytes) (b : UInt8) :
    (value (v ++ [b])).natAbs = leNat v + 256 ^ v.length * (b.toNat % 128) := by
  have hb := b.toNat_lt
  have hiff := leNat_append_lt_bound_iff v b
  rw [natAbs_value, if_congr hiff rfl rfl]
  rw [List.length_append, List.length_singleton, bound, leNat_concat]
  split_ifs with hlt
  · rw [Nat.mod_eq_of_lt hlt]
  · have hmod : b.toNat = b.toNat % 128 + 128 := by omega
    have hmul : 256 ^ v.length * b.toNat = 256 ^ v.length * (b.toNat % 128) + 128 * 256 ^ v.length := by
      conv_lhs => rw [hmod, Nat.mul_add, Nat.mul_comm _ 128]
    omega

/-- The shortest forms are those that would not fit on one byte less. -/
theorem isShortest_iff {v : Bytes} :
    IsShortest v ↔ v.length = 0 ∨ bound (v.length - 1) ≤ (value v).natAbs := by
  constructor
  · intro h
    by_contra hno
    simp only [not_or, Nat.not_le] at hno
    obtain ⟨hne, hlt⟩ := hno
    have hle := h _ (value_encode hlt)
    rw [length_encode] at hle
    omega
  · intro h v' hv'
    rcases h with hzero | hle
    · omega
    · have hlt := natAbs_value_lt v'
      rw [hv'] at hlt
      by_contra hlonger
      have hbound : bound v'.length ≤ bound (v.length - 1) := bound_le (by omega)
      omega

/-- A number has one shortest form. -/
theorem IsShortest.unique {v v' : Bytes} (h : IsShortest v) (h' : IsShortest v')
    (heq : value v = value v') : v = v' := by
  have hlength : v.length = v'.length := Nat.le_antisymm (h v' heq.symm) (h' v heq)
  by_cases hzero : value v = 0
  · have hnil : v.length = 0 := Nat.le_zero.1 (h [] hzero.symm)
    rw [List.length_eq_zero_iff.1 hnil, List.length_eq_zero_iff.1 (hlength.symm.trans hnil)]
  · have hzero' : value v' ≠ 0 := heq ▸ hzero
    rw [eq_encode hzero, eq_encode hzero', hlength, heq]

end SignMagnitude
