import RustDogecoin.Lib.Str
import Mathlib.Algebra.Group.Nat.Defs
import Mathlib.Data.BitVec

/-!
# Hexadecimal integers

The helpers of `parse.rs` that read an unsigned integer from a hexadecimal text.  They strip a
prefix if there is one, and the parser of the standard library behind them takes a plus sign in
front of the digits, so that one number has texts of six kinds.
-/

namespace RustDogecoin.Units

/-- Why an integer was not parsed. -/
inductive IntErrorKind where
  | empty
  | invalidDigit
  | posOverflow
  deriving DecidableEq, Repr

/-- A parsing error with the text and the type that it was parsed for. -/
structure ParseIntError where
  input : Str
  bits : ℕ
  isSigned : Bool
  source : IntErrorKind
  deriving DecidableEq, Repr

/-- `char::to_digit(16)`. -/
def toDigit (c : Char) : Option ℕ :=
  if 48 ≤ c.toNat ∧ c.toNat ≤ 57 then some (c.toNat - 48)
  else if 97 ≤ c.toNat ∧ c.toNat ≤ 102 then some (c.toNat - 97 + 10)
  else if 65 ≤ c.toNat ∧ c.toNat ≤ 70 then some (c.toNat - 65 + 10)
  else none

/-- The loop of `from_str_radix`, which looks at the digit before the product. -/
def radixLoop (bits : ℕ) : ℕ → Str → Except IntErrorKind ℕ
  | acc, [] => .ok acc
  | acc, c :: s =>
    match toDigit c with
    | none => .error .invalidDigit
    | some x =>
      if acc * 16 < 2 ^ bits then
        if acc * 16 + x < 2 ^ bits then radixLoop bits (acc * 16 + x) s else .error .posOverflow
      else .error .posOverflow

/-- `from_str_radix(s, 16)` of an unsigned type. -/
def fromStrRadix (bits : ℕ) : Str → Except IntErrorKind ℕ
  | [] => .error .empty
  | c :: s =>
    if c = '+' then if s = [] then .error .invalidDigit else radixLoop bits 0 s
    else radixLoop bits 0 (c :: s)

/-- Strips the hex prefix off `s` if one is present. -/
def stripHexPrefix (s : Str) : Str :=
  match s.stripPrefix ['0', 'x'] with
  | some stripped => stripped
  | none =>
    match s.stripPrefix ['0', 'X'] with
    | some stripped => stripped
    | none => s

/-- Parses an integer from a hex string that may or may not contain a prefix: `hex_u32` and
`hex_u128` differ in the type only. -/
def hexUint (bits : ℕ) (s : Str) : Except ParseIntError (BitVec bits) :=
  match fromStrRadix bits (stripHexPrefix s) with
  | .ok n => .ok (BitVec.ofNat bits n)
  | .error source => .error ⟨s, bits, false, source⟩

def hexU128 (s : Str) : Except ParseIntError (BitVec 128) := hexUint 128 s

/-! ## Digits -/

/-- Every character is a hexadecimal digit. -/
def HexDigits (s : Str) : Prop := ∀ c ∈ s, (toDigit c).isSome

instance (s : Str) : Decidable (HexDigits s) := inferInstanceAs (Decidable (∀ c ∈ s, _))

/-- The number that a string of hexadecimal digits denotes behind the number `v`. -/
def hexValueFrom (v : ℕ) (s : Str) : ℕ := s.foldl (fun v c => v * 16 + (toDigit c).getD 0) v

/-- The number that a string of hexadecimal digits denotes. -/
def hexValue (s : Str) : ℕ := hexValueFrom 0 s

theorem HexDigits.append_iff {a b : Str} : HexDigits (a ++ b) ↔ HexDigits a ∧ HexDigits b :=
  List.forall_mem_append

theorem HexDigits.cons_iff {c : Char} {s : Str} :
    HexDigits (c :: s) ↔ (toDigit c).isSome ∧ HexDigits s := List.forall_mem_cons

theorem toDigit_lt {c : Char} {x : ℕ} (h : toDigit c = some x) : x < 16 := by
  unfold toDigit at h
  split_ifs at h <;> obtain rfl := Option.some.inj h <;> omega

theorem utf8Size_of_toDigit {c : Char} (h : (toDigit c).isSome) : c.utf8Size = 1 := by
  have hle : c.toNat ≤ 127 := by
    unfold toDigit at h
    split_ifs at h <;> first | omega | cases h
  rw [Char.utf8Size]
  have hval : c.val ≤ 127 := UInt32.le_iff_toNat_le.mpr hle
  exact if_pos hval

/-- Hexadecimal digits are single bytes. -/
theorem HexDigits.len_eq {s : Str} (h : HexDigits s) : s.len = s.length := by
  induction s with
  | nil => rfl
  | cons c s ih =>
    obtain ⟨hc, hs⟩ := HexDigits.cons_iff.mp h
    rw [Str.len, utf8Size_of_toDigit hc, ih hs, List.length_cons, Nat.add_comm]

theorem hexValueFrom_cons (v : ℕ) (c : Char) (s : Str) :
    hexValueFrom v (c :: s) = hexValueFrom (v * 16 + (toDigit c).getD 0) s := rfl

theorem hexValueFrom_eq (v : ℕ) (s : Str) : hexValueFrom v s = v * 16 ^ s.length + hexValue s := by
  induction s generalizing v with
  | nil => simp [hexValueFrom, hexValue]
  | cons c s ih =>
    rw [hexValue, hexValueFrom_cons, hexValueFrom_cons, ih, ih (0 * 16 + _), List.length_cons,
      Nat.pow_succ, Nat.add_mul, Nat.zero_mul, Nat.zero_add, Nat.mul_comm (16 ^ s.length) 16,
      Nat.mul_assoc, Nat.add_assoc]

theorem hexValue_append (a b : Str) :
    hexValue (a ++ b) = hexValue a * 16 ^ b.length + hexValue b := by
  rw [← hexValueFrom_eq]
  exact List.foldl_append

theorem le_hexValueFrom (v : ℕ) (s : Str) : v ≤ hexValueFrom v s := by
  rw [hexValueFrom_eq]
  exact Nat.le_add_right_of_le (Nat.le_mul_of_pos_right v (Nat.pow_pos (by decide)))

theorem hexValue_lt {s : Str} (h : HexDigits s) : hexValue s < 16 ^ s.length := by
  induction s with
  | nil => exact Nat.one_pos
  | cons c s ih =>
    obtain ⟨hc, hs⟩ := HexDigits.cons_iff.mp h
    obtain ⟨x, hx⟩ := Option.isSome_iff_exists.mp hc
    have hlt := toDigit_lt hx
    have hrest := ih hs
    rw [hexValue, hexValueFrom_cons, hexValueFrom_eq, hx, List.length_cons, Nat.pow_succ,
      Nat.zero_mul, Nat.zero_add, Option.getD_some]
    calc x * 16 ^ s.length + hexValue s
        < x * 16 ^ s.length + 16 ^ s.length := by omega
      _ = 16 ^ s.length * (x + 1) := by rw [Nat.mul_add, Nat.mul_one, Nat.mul_comm]
      _ ≤ 16 ^ s.length * 16 := Nat.mul_le_mul_left _ hlt

/-! ## What the parsers read -/

variable {bits : ℕ}

theorem radixLoop_eq_ok_iff {acc v : ℕ} {s : Str} (hacc : acc < 2 ^ bits) :
    radixLoop bits acc s = .ok v ↔ HexDigits s ∧ hexValueFrom acc s = v ∧ v < 2 ^ bits := by
  induction s generalizing acc with
  | nil =>
    rw [radixLoop, Except.ok.injEq]
    constructor
    · rintro rfl
      exact ⟨List.forall_mem_nil _, rfl, hacc⟩
    · exact fun h => h.2.1
  | cons c s ih =>
    rw [radixLoop, HexDigits.cons_iff, hexValueFrom_cons]
    cases hx : toDigit c with
    | none => simp
    | some x =>
      have hle := le_hexValueFrom (acc * 16 + x) s
      simp only [Option.getD_some, Option.isSome_some, true_and]
      by_cases hmul : acc * 16 < 2 ^ bits
      · rw [if_pos hmul]
        by_cases hadd : acc * 16 + x < 2 ^ bits
        · rw [if_pos hadd]
          exact ih hadd
        · rw [if_neg hadd]
          apply iff_of_false (by simp)
          intro h
          omega
      · rw [if_neg hmul]
        apply iff_of_false (by simp)
        intro h
        omega

/-- `s` is `m` and then hexadecimal digits that denote `n`. -/
def DigitsBehind (m s : Str) (n : ℕ) : Prop :=
  ∃ h : Str, s = m ++ h ∧ h ≠ [] ∧ HexDigits h ∧ hexValue h = n

theorem digitsBehind_nil {s : Str} {n : ℕ} :
    DigitsBehind [] s n ↔ s ≠ [] ∧ HexDigits s ∧ hexValue s = n := by
  constructor
  · rintro ⟨h, rfl, hh⟩
    exact hh
  · exact fun h => ⟨s, rfl, h⟩

theorem not_digitsBehind {c : Char} {m : Str} {n : ℕ} : ¬ DigitsBehind (c :: m) [] n := by
  rintro ⟨h, hs, -⟩
  cases hs

theorem digitsBehind_cons {c d : Char} {m s : Str} {n : ℕ} :
    DigitsBehind (c :: m) (d :: s) n ↔ c = d ∧ DigitsBehind m s n := by
  constructor
  · rintro ⟨h, hs, hh⟩
    obtain ⟨rfl, rfl⟩ := List.cons.inj hs
    exact ⟨rfl, h, rfl, hh⟩
  · rintro ⟨rfl, h, rfl, hh⟩
    exact ⟨h, rfl, hh⟩

theorem fromStrRadix_eq_ok_iff {s : Str} {v : ℕ} :
    fromStrRadix bits s = .ok v ↔
      (DigitsBehind [] s v ∨ DigitsBehind ['+'] s v) ∧ v < 2 ^ bits := by
  have hzero : 0 < 2 ^ bits := Nat.pow_pos (by decide)
  cases s with
  | nil => simp [fromStrRadix, digitsBehind_nil, not_digitsBehind]
  | cons c s =>
    rw [fromStrRadix, digitsBehind_cons, digitsBehind_nil, digitsBehind_nil, HexDigits.cons_iff]
    by_cases hc : c = '+'
    · have hdigit : ¬ (toDigit '+').isSome := by decide
      rw [if_pos hc, hc]
      by_cases hs : s = []
      · simp [hs, hdigit]
      · rw [if_neg hs, radixLoop_eq_ok_iff hzero]
        simp [hs, hdigit, hexValue, and_assoc]
    · rw [if_neg hc, radixLoop_eq_ok_iff hzero, HexDigits.cons_iff]
      simp [hexValue, Ne.symm hc, and_assoc]

/-- What stands in front of the digits in a text that the helpers read. -/
def marks : List Str := [[], ['+'], ['0', 'x'], ['0', 'x', '+'], ['0', 'X'], ['0', 'X', '+']]

/-- A text of a number of `bits` bits, with the mark `m` in front of its digits. -/
def Reads (bits : ℕ) (m s : Str) (n : ℕ) : Prop := DigitsBehind m s n ∧ n < 2 ^ bits

theorem exists_mark_iff {s : Str} {n : ℕ} : (∃ m ∈ marks, Reads bits m s n) ↔
    ((DigitsBehind [] s n ∨ DigitsBehind ['+'] s n) ∨
      (DigitsBehind ['0', 'x'] s n ∨ DigitsBehind ['0', 'x', '+'] s n) ∨
        DigitsBehind ['0', 'X'] s n ∨ DigitsBehind ['0', 'X', '+'] s n) ∧ n < 2 ^ bits := by
  simp only [marks, Reads, List.mem_cons, List.not_mem_nil, or_false, exists_eq_or_imp,
    exists_eq_left]
  tauto

/-- Behind a prefix the text is read as if it were not there. -/
theorem reads_strip {s t : Str} {n : ℕ} (h : s = ['0', 'x'] ++ t ∨ s = ['0', 'X'] ++ t) :
    (∃ m ∈ marks, Reads bits m s n) ↔
      (DigitsBehind [] t n ∨ DigitsBehind ['+'] t n) ∧ n < 2 ^ bits := by
  have hlower : ¬ (toDigit 'x').isSome := by decide
  have hupper : ¬ (toDigit 'X').isSome := by decide
  rw [exists_mark_iff]
  rcases h with rfl | rfl
  · simp [digitsBehind_cons, digitsBehind_nil, HexDigits.cons_iff, hlower]
  · simp [digitsBehind_cons, digitsBehind_nil, HexDigits.cons_iff, hupper]

theorem reads_unprefixed {s : Str} {n : ℕ} (hlower : s.stripPrefix ['0', 'x'] = none)
    (hupper : s.stripPrefix ['0', 'X'] = none) :
    (∃ m ∈ marks, Reads bits m s n) ↔
      (DigitsBehind [] s n ∨ DigitsBehind ['+'] s n) ∧ n < 2 ^ bits := by
  have hno : ∀ p m : Str, s.stripPrefix p = none → ¬ DigitsBehind (p ++ m) s n := by
    rintro p m hp ⟨h, rfl, -⟩
    rw [List.append_assoc, Str.stripPrefix_eq_some_iff.mpr rfl] at hp
    cases hp
  have h₁ := hno _ [] hlower
  have h₂ := hno _ ['+'] hlower
  have h₃ := hno _ [] hupper
  have h₄ := hno _ ['+'] hupper
  rw [exists_mark_iff]
  simp only [List.cons_append, List.nil_append] at h₁ h₂ h₃ h₄
  simp only [h₁, h₂, h₃, h₄, or_false]

theorem reads_iff_stripHexPrefix {s : Str} {n : ℕ} : (∃ m ∈ marks, Reads bits m s n) ↔
    fromStrRadix bits (stripHexPrefix s) = .ok n := by
  rw [fromStrRadix_eq_ok_iff, stripHexPrefix]
  cases hlower : s.stripPrefix ['0', 'x'] with
  | some t => exact reads_strip (.inl (Str.stripPrefix_eq_some_iff.mp hlower))
  | none =>
    cases hupper : s.stripPrefix ['0', 'X'] with
    | some t => exact reads_strip (.inr (Str.stripPrefix_eq_some_iff.mp hupper))
    | none => exact reads_unprefixed hlower hupper

/-- The texts that the helpers read are those of hexadecimal digits behind one of the marks. -/
theorem hexUint_eq_ok_iff {s : Str} {v : BitVec bits} :
    hexUint bits s = .ok v ↔ ∃ m ∈ marks, Reads bits m s v.toNat := by
  rw [reads_iff_stripHexPrefix, hexUint]
  cases hn : fromStrRadix bits (stripHexPrefix s) with
  | error e => simp
  | ok n =>
    have hlt := (fromStrRadix_eq_ok_iff.mp hn).2
    rw [Except.ok.injEq, Except.ok.injEq]
    constructor
    · rintro rfl
      exact (Nat.mod_eq_of_lt hlt).symm
    · rintro rfl
      rw [BitVec.ofNat_toNat, BitVec.setWidth_eq]

end RustDogecoin.Units
