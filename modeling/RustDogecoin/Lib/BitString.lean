import RustDogecoin.Lib.Bytes

/-!
# Strings of bits

Bits are written most significant first: `toBits n v` are the `n` low bits of `v`, and `ofBits` reads
such a string back.  `unpack` is the string that a list of bytes holds.
-/

namespace BitString

/-- The `n` low bits of `v`, most significant first. -/
def toBits : ℕ → ℕ → List Bool
  | 0, _ => []
  | n + 1, v => v.testBit n :: toBits n v

/-- The number with the given bits, most significant first. -/
def ofBits : List Bool → ℕ
  | [] => 0
  | b :: l => b.toNat * 2 ^ l.length + ofBits l

def byteBits (b : UInt8) : List Bool := toBits 8 b.toNat

def unpack (bs : Bytes) : List Bool := bs.flatMap byteBits

@[simp] theorem length_toBits (n v : ℕ) : (toBits n v).length = n := by
  induction n with
  | zero => rfl
  | succ n ih => simp [toBits, ih]

@[simp] theorem length_byteBits (b : UInt8) : (byteBits b).length = 8 := length_toBits 8 _

theorem toBits_add (m n v : ℕ) : toBits (m + n) v = toBits m (v / 2 ^ n) ++ toBits n v := by
  induction m with
  | zero => simp [toBits]
  | succ m ih =>
    rw [Nat.add_right_comm, toBits, toBits, ih, Nat.testBit_div_two_pow, Nat.add_comm m n]
    rfl

theorem ofBits_lt (l : List Bool) : ofBits l < 2 ^ l.length := by
  induction l with
  | nil => simp [ofBits]
  | cons b l ih =>
    have hb : b.toNat * 2 ^ l.length ≤ 2 ^ l.length := by
      cases b <;> simp
    rw [ofBits, List.length_cons, pow_succ]
    omega

theorem ofBits_append (l l' : List Bool) : ofBits (l ++ l') = ofBits l * 2 ^ l'.length + ofBits l' := by
  induction l with
  | nil => simp [ofBits]
  | cons b l ih =>
    rw [List.cons_append, ofBits, ofBits, ih, List.length_append, pow_add]
    ring

theorem ofBits_replicate_false (n : ℕ) : ofBits (List.replicate n false) = 0 := by
  induction n with
  | zero => rfl
  | succ n ih => simp [List.replicate_succ, ofBits, ih]

theorem ofBits_toBits (n v : ℕ) : ofBits (toBits n v) = v % 2 ^ n := by
  induction n with
  | zero => simp [toBits, ofBits, Nat.mod_one]
  | succ n ih =>
    rw [toBits, ofBits, ih, length_toBits, Nat.toNat_testBit, Nat.mod_pow_succ]
    ring

theorem ofBits_toBits_of_lt {n v : ℕ} (h : v < 2 ^ n) : ofBits (toBits n v) = v := by
  rw [ofBits_toBits, Nat.mod_eq_of_lt h]

theorem ofBits_inj {l l' : List Bool} (hlen : l.length = l'.length) (h : ofBits l = ofBits l') : l = l' := by
  induction l generalizing l' with
  | nil => exact (List.length_eq_zero_iff.1 hlen.symm).symm
  | cons b l ih =>
    cases l' with
    | nil => cases hlen
    | cons b' l' =>
      rw [List.length_cons, List.length_cons, Nat.add_right_cancel_iff] at hlen
      have hl := ofBits_lt l
      have hl' := ofBits_lt l'
      rw [ofBits, ofBits, hlen] at h
      rw [hlen] at hl
      have hb : b = b' := by
        cases b <;> cases b' <;> simp at h <;> first | rfl | omega
      subst hb
      rw [ih hlen (by omega)]

theorem toBits_ofBits {l : List Bool} {n : ℕ} (h : l.length = n) : toBits n (ofBits l) = l := by
  subst h
  exact ofBits_inj (length_toBits _ _) (ofBits_toBits_of_lt (ofBits_lt l))

/-- The bits `m`, `m + 1`, …, `m + k - 1` of a string of `m + k + n` bits. -/
theorem ofBits_middle (m k n v : ℕ) :
    ofBits (((toBits (m + k + n) v).drop m).take k) = v / 2 ^ n % 2 ^ k := by
  rw [toBits_add, toBits_add, List.append_assoc, List.drop_left' (length_toBits _ _),
    List.take_left' (length_toBits _ _), ofBits_toBits]

/-- Appending bits to a number by a shift and an `or`. -/
theorem shift_or_eq (v n w : ℕ) (h : w < 2 ^ n) : v * 2 ^ n ||| w = v * 2 ^ n + w := by
  rw [Nat.mul_comm, ← Nat.two_pow_add_eq_or_of_lt h]

end BitString
