import RustDogecoin.Lib.Bytes
import Mathlib.Data.Nat.Digits.Lemmas
import Mathlib.Data.List.TakeWhile

/-!
# Numerals and their leading zeros

A string of digits, most significant first, is its number of leading zeros together with the number
that it denotes, so it can be moved to another base without a loss when the leading zeros are kept
apart (`convert_convert`).  `mulAdd` is the pass `x ↦ x * m + c` over the digits of `x` in place,
least significant first, with the digits held in bytes.
-/

namespace Numeral

variable {b b' m : ℕ}

/-! ## Strings of digits -/

def leadingZeros (l : List ℕ) : ℕ := (l.takeWhile (· == 0)).length

@[simp] theorem leadingZeros_nil : leadingZeros [] = 0 := rfl

@[simp] theorem leadingZeros_zero_cons (l : List ℕ) : leadingZeros (0 :: l) = leadingZeros l + 1 := rfl

@[simp] theorem leadingZeros_succ_cons (d : ℕ) (l : List ℕ) : leadingZeros ((d + 1) :: l) = 0 := rfl

theorem leadingZeros_concat (l : List ℕ) (d : ℕ) :
    leadingZeros (l ++ [d]) = leadingZeros l + if l.all (· == 0) && d == 0 then 1 else 0 := by
  induction l with
  | nil => cases d <;> simp
  | cons e l ih =>
    cases e with
    | zero =>
      rw [List.cons_append, leadingZeros_zero_cons, leadingZeros_zero_cons, ih, List.all_cons]
      simp only [beq_self_eq_true, Bool.true_and]
      omega
    | succ e => simp

/-- The digits of `v` in base `b` after `z` zeros, most significant first. -/
def join (b z v : ℕ) : List ℕ := List.replicate z 0 ++ (Nat.digits b v).reverse

/-- The string `l` of digits in base `b`, in base `b'`. -/
def convert (b b' : ℕ) (l : List ℕ) : List ℕ :=
  join b' (leadingZeros l) (Nat.ofDigits b l.reverse)

theorem dropWhile_eq_digits (hb : 1 < b) {l : List ℕ} (hl : ∀ d ∈ l, d < b) :
    l.dropWhile (· == 0) = (Nat.digits b (Nat.ofDigits b l.reverse)).reverse := by
  induction l with
  | nil => simp
  | cons d l ih =>
    by_cases hd : d = 0
    · subst hd
      rw [List.dropWhile_cons_of_pos (by simp), ih fun e he => hl e (List.mem_cons_of_mem _ he),
        Nat.ofDigits_reverse_zero_cons]
    · rw [List.dropWhile_cons_of_neg (by simpa using hd), Nat.digits_ofDigits b hb]
      · rw [List.reverse_reverse]
      · intro e he
        exact hl e (List.mem_reverse.1 he)
      · intro _
        simpa using hd

theorem takeWhile_eq_replicate (l : List ℕ) :
    l.takeWhile (· == 0) = List.replicate (leadingZeros l) 0 := by
  apply List.eq_replicate_of_mem
  intro d hd
  simpa using List.mem_takeWhile_imp hd

/-- A string of digits is its leading zeros and the digits of its value. -/
theorem join_leadingZeros (hb : 1 < b) {l : List ℕ} (hl : ∀ d ∈ l, d < b) :
    join b (leadingZeros l) (Nat.ofDigits b l.reverse) = l := by
  rw [join, ← dropWhile_eq_digits hb hl, ← takeWhile_eq_replicate, List.takeWhile_append_dropWhile]

theorem takeWhile_digits_reverse (b v : ℕ) :
    (Nat.digits b v).reverse.takeWhile (· == 0) = [] := by
  by_cases hv : v = 0
  · simp [hv]
  · rw [List.takeWhile_eq_nil_iff]
    intro hpos
    have hlast := Nat.getLast_digit_ne_zero b hv
    rw [List.get_mk_zero, List.head_reverse]
    simpa using hlast

theorem leadingZeros_join (b z v : ℕ) : leadingZeros (join b z v) = z := by
  induction z with
  | zero =>
    rw [join, leadingZeros, List.replicate_zero, List.nil_append, takeWhile_digits_reverse,
      List.length_nil]
  | succ z ih =>
    rw [join, List.replicate_succ, List.cons_append, leadingZeros_zero_cons]
    exact congrArg (· + 1) ih

theorem ofDigits_join (b z v : ℕ) : Nat.ofDigits b (join b z v).reverse = v := by
  rw [join, List.reverse_append, List.reverse_reverse, List.reverse_replicate,
    Nat.ofDigits_append_replicate_zero, Nat.ofDigits_digits]

theorem join_lt (hb : 1 < b) {z v d : ℕ} (hd : d ∈ join b z v) : d < b := by
  rw [join, List.mem_append, List.mem_reverse] at hd
  rcases hd with hd | hd
  · rw [List.eq_of_mem_replicate hd]
    omega
  · exact Nat.digits_lt_base hb hd

theorem convert_lt (hb' : 1 < b') {l : List ℕ} {d : ℕ} (hd : d ∈ convert b b' l) : d < b' :=
  join_lt hb' hd

/-- Changing the base twice gives the string back. -/
theorem convert_convert (b' : ℕ) (hb : 1 < b) {l : List ℕ} (hl : ∀ d ∈ l, d < b) :
    convert b' b (convert b b' l) = l := by
  rw [convert, convert, leadingZeros_join, ofDigits_join, join_leadingZeros hb hl]

/-- Two digits of base `b'` hold a digit of base `b`. -/
theorem length_convert_le (hb : 1 < b) (hb' : 1 < b') (h : b ≤ b' ^ 2) {l : List ℕ}
    (hl : ∀ d ∈ l, d < b) : (convert b b' l).length ≤ 2 * l.length := by
  have hlen : (l.dropWhile (· == 0)).length + leadingZeros l = l.length := by
    rw [leadingZeros, Nat.add_comm, ← List.length_append, List.takeWhile_append_dropWhile]
  have hdigits : Nat.ofDigits b l.reverse < b' ^ (2 * (l.dropWhile (· == 0)).length) := by
    calc Nat.ofDigits b l.reverse
        < b ^ (Nat.digits b (Nat.ofDigits b l.reverse)).length := Nat.lt_base_pow_length_digits hb
      _ = b ^ (l.dropWhile (· == 0)).length := by
        rw [dropWhile_eq_digits hb hl, List.length_reverse]
      _ ≤ (b' ^ 2) ^ (l.dropWhile (· == 0)).length := Nat.pow_le_pow_left h _
      _ = b' ^ (2 * (l.dropWhile (· == 0)).length) := (Nat.pow_mul _ _ _).symm
  have hle := (Nat.digits_length_le_iff hb' _).2 hdigits
  rw [convert, join, List.length_append, List.length_replicate, List.length_reverse]
  omega

/-! ## One pass over the digits -/

/-- The pass `x ↦ x * m + c` over the digits of `x` in base `b`: the new digits, and what is carried
out of the last one. -/
def mulAdd (b m : ℕ) : ℕ → Bytes → Bytes × ℕ
  | c, [] => ([], c)
  | c, d :: ds =>
    let x := d.toNat * m + c
    let r := mulAdd b m (x / b) ds
    (UInt8.ofNat (x % b) :: r.1, r.2)

/-- The number with the given digits, least significant first. -/
def value (b : ℕ) (ds : Bytes) : ℕ := Nat.ofDigits b (ds.map UInt8.toNat)

theorem mulAdd_append (b m c : ℕ) (ds es : Bytes) :
    mulAdd b m c (ds ++ es) =
      ((mulAdd b m c ds).1 ++ (mulAdd b m (mulAdd b m c ds).2 es).1,
        (mulAdd b m (mulAdd b m c ds).2 es).2) := by
  induction ds generalizing c with
  | nil => simp [mulAdd]
  | cons d ds ih => simp [mulAdd, ih]

@[simp] theorem length_mulAdd (b m c : ℕ) (ds : Bytes) : (mulAdd b m c ds).1.length = ds.length := by
  induction ds generalizing c with
  | nil => rfl
  | cons d ds ih => simp [mulAdd, ih]

theorem toNat_ofNat_mod (hb : 0 < b) (hb' : b ≤ 256) (x : ℕ) : (UInt8.ofNat (x % b)).toNat = x % b := by
  have := Nat.mod_lt x hb
  rw [UInt8.toNat_ofNat', Nat.mod_eq_of_lt]
  omega

/-- The digits and the carry of a pass hold the new number. -/
theorem value_mulAdd (hb : 0 < b) (hb' : b ≤ 256) (m c : ℕ) (ds : Bytes) :
    value b (mulAdd b m c ds).1 + b ^ ds.length * (mulAdd b m c ds).2 = value b ds * m + c := by
  induction ds generalizing c with
  | nil => simp [mulAdd, value]
  | cons d ds ih =>
    have hsplit := Nat.mod_add_div (d.toNat * m + c) b
    have ih := ih ((d.toNat * m + c) / b)
    simp only [value, mulAdd, List.map_cons, Nat.ofDigits_cons, toNat_ofNat_mod hb hb',
      List.length_cons, pow_succ] at ih ⊢
    calc (d.toNat * m + c) % b
          + b * Nat.ofDigits b ((mulAdd b m ((d.toNat * m + c) / b) ds).1.map UInt8.toNat)
          + b ^ ds.length * b * (mulAdd b m ((d.toNat * m + c) / b) ds).2
        = (d.toNat * m + c) % b
          + b * (Nat.ofDigits b ((mulAdd b m ((d.toNat * m + c) / b) ds).1.map UInt8.toNat)
            + b ^ ds.length * (mulAdd b m ((d.toNat * m + c) / b) ds).2) := by ring
      _ = (d.toNat * m + c) % b + b * ((d.toNat * m + c) / b)
          + b * (Nat.ofDigits b (ds.map UInt8.toNat) * m) := by rw [ih]; ring
      _ = (d.toNat + b * Nat.ofDigits b (ds.map UInt8.toNat)) * m + c := by rw [hsplit]; ring

/-- A pass over the shortest form of a number, followed by the digits of the carry, gives the
shortest form of the new number. -/
theorem digits_mulAdd (hb : 1 < b) (hb' : b ≤ 256) (hm : 0 < m) (c : ℕ) {ds : Bytes} {v : ℕ}
    (h : ds.map UInt8.toNat = Nat.digits b v) :
    (mulAdd b m c ds).1.map UInt8.toNat ++ Nat.digits b (mulAdd b m c ds).2 =
      Nat.digits b (v * m + c) := by
  induction ds generalizing c v with
  | nil =>
    obtain rfl : v = 0 := Nat.digits_eq_nil_iff_eq_zero.1 h.symm
    simp [mulAdd]
  | cons d ds ih =>
    have hv : v ≠ 0 := by
      rintro rfl
      simp at h
    rw [List.map_cons, Nat.digits_eq_cons_digits_div hb hv, List.cons.injEq] at h
    obtain ⟨hd, hds⟩ := h
    have hnew : v * m + c = (d.toNat * m + c) % b + b * (v / b * m + (d.toNat * m + c) / b) := by
      have hlow := Nat.mod_add_div (d.toNat * m + c) b
      calc v * m + c = (d.toNat + b * (v / b)) * m + c := by rw [hd, Nat.mod_add_div]
        _ = (d.toNat * m + c) + b * (v / b * m) := by ring
        _ = (d.toNat * m + c) % b + b * ((d.toNat * m + c) / b) + b * (v / b * m) := by rw [hlow]
        _ = _ := by ring
    have hpos : 0 < v * m := Nat.mul_pos (Nat.pos_of_ne_zero hv) hm
    have hone : (d.toNat * m + c) % b ≠ 0 ∨ v / b * m + (d.toNat * m + c) / b ≠ 0 := by
      by_contra hzero
      rw [not_or, not_not, not_not] at hzero
      rw [hzero.1, hzero.2] at hnew
      omega
    rw [hnew, Nat.digits_add b hb _ _ (Nat.mod_lt _ (by omega)) hone, ← ih _ hds]
    simp only [mulAdd, List.map_cons, List.cons_append, toNat_ofNat_mod (by omega : 0 < b) hb']

end Numeral
