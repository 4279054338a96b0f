import Mathlib.Tactic.Common
import Mathlib.Tactic.Ring

/-!
# Fixed-width integers as bytes

`leBytes n v` is the little-endian form of `v` on `n` bytes and `leNat` reads such a form back;
`beBytes` and `beNat` are the big-endian ones.  On `n` bytes the two directions are inverse to
each other below `256 ^ n`.
-/

abbrev Bytes := List UInt8

/-- The `n` low bytes of `v`, least significant first. -/
def leBytes : ℕ → ℕ → Bytes
  | 0, _ => []
  | n + 1, v => UInt8.ofNat (v % 256) :: leBytes n (v / 256)

/-- The number whose bytes, least significant first, are the given ones. -/
def leNat : Bytes → ℕ
  | [] => 0
  | b :: bs => b.toNat + 256 * leNat bs

/-- The `n` low bytes of `v`, most significant first. -/
def beBytes (n v : ℕ) : Bytes := (leBytes n v).reverse

/-- The number whose bytes, most significant first, are the given ones. -/
def beNat (bs : Bytes) : ℕ := leNat bs.reverse

@[simp] theorem length_leBytes (n v : ℕ) : (leBytes n v).length = n := by
  induction n generalizing v with
  | zero => rfl
  | succ n ih => simp [leBytes, ih]

@[simp] theorem length_beBytes (n v : ℕ) : (beBytes n v).length = n := by simp [beBytes]

theorem leNat_lt (bs : Bytes) : leNat bs < 256 ^ bs.length := by
  induction bs with
  | nil => simp [leNat]
  | cons b bs ih =>
    have hb := b.toNat_lt
    rw [leNat, List.length_cons, pow_succ]
    omega

theorem leNat_append (x y : Bytes) : leNat (x ++ y) = leNat x + 256 ^ x.length * leNat y := by
  induction x with
  | nil => simp [leNat]
  | cons b x ih =>
    rw [List.cons_append, leNat, leNat, ih, List.length_cons, pow_succ]
    ring

theorem leNat_lt_two_pow {x : Bytes} {n : ℕ} (h : x.length ≤ n) : leNat x < 2 ^ (8 * n) := by
  have hlt := leNat_lt x
  have hpow : (256 : ℕ) ^ x.length ≤ 256 ^ n := Nat.pow_le_pow_right (by decide) h
  rw [Nat.pow_mul]
  exact Nat.lt_of_lt_of_le hlt hpow

theorem leNat_leBytes (n v : ℕ) : leNat (leBytes n v) = v % 256 ^ n := by
  induction n generalizing v with
  | zero => simp [leBytes, leNat, Nat.mod_one]
  | succ n ih =>
    rw [leBytes, leNat, ih, pow_succ, Nat.mul_comm (256 ^ n) 256, Nat.mod_mul]
    simp

theorem leNat_leBytes_of_lt {n v : ℕ} (h : v < 256 ^ n) : leNat (leBytes n v) = v := by
  rw [leNat_leBytes, Nat.mod_eq_of_lt h]

theorem leBytes_leNat (bs : Bytes) : leBytes bs.length (leNat bs) = bs := by
  induction bs with
  | nil => rfl
  | cons b bs ih =>
    have hb := b.toNat_lt
    have hlow : (b.toNat + 256 * leNat bs) % 256 = b.toNat := by omega
    have hhigh : (b.toNat + 256 * leNat bs) / 256 = leNat bs := by omega
    rw [List.length_cons, leBytes, leNat, hlow, hhigh, ih, UInt8.ofNat_toNat]

theorem leBytes_one_toNat (b : UInt8) : leBytes 1 b.toNat = [b] := by
  rw [leBytes, leBytes, Nat.mod_eq_of_lt b.toNat_lt, UInt8.ofNat_toNat]

theorem leBytes_injective {n v w : ℕ} (hv : v < 256 ^ n) (hw : w < 256 ^ n)
    (h : leBytes n v = leBytes n w) : v = w := by
  rw [← leNat_leBytes_of_lt hv, h, leNat_leBytes_of_lt hw]

theorem leBytes_mod (n v : ℕ) : leBytes n (v % 256 ^ n) = leBytes n v := by
  have h := leBytes_leNat (leBytes n v)
  rwa [length_leBytes, leNat_leBytes] at h

/-- The most significant byte comes last. -/
theorem leBytes_succ_eq_append (n v : ℕ) :
    leBytes (n + 1) v = leBytes n v ++ [UInt8.ofNat (v / 256 ^ n % 256)] := by
  induction n generalizing v with
  | zero => rw [Nat.pow_zero, Nat.div_one]; rfl
  | succ n ih =>
    rw [leBytes, ih, Nat.div_div_eq_div_mul, ← Nat.pow_succ', leBytes]
    rfl

theorem beNat_beBytes_of_lt {n v : ℕ} (h : v < 256 ^ n) : beNat (beBytes n v) = v := by
  rw [beNat, beBytes, List.reverse_reverse, leNat_leBytes_of_lt h]

theorem beBytes_beNat (bs : Bytes) : beBytes bs.length (beNat bs) = bs := by
  have h := leBytes_leNat bs.reverse
  rw [List.length_reverse] at h
  rw [beBytes, beNat, h, List.reverse_reverse]

theorem beNat_lt (bs : Bytes) : beNat bs < 256 ^ bs.length := by
  have h := leNat_lt bs.reverse
  rwa [List.length_reverse] at h

/-! ## Writing into a buffer -/

/-- The buffer with `piece` copied over it from position `i` on. -/
def overwrite (buf : Bytes) (i : ℕ) (piece : Bytes) : Bytes :=
  buf.take i ++ piece ++ buf.drop (i + piece.length)

theorem overwrite_append (pre old post piece : Bytes) (h : old.length = piece.length) :
    overwrite (pre ++ old ++ post) pre.length piece = pre ++ piece ++ post := by
  rw [overwrite, ← h, ← List.length_append, List.drop_left, List.append_assoc pre old post,
    List.take_left]
