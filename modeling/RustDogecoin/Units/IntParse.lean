import RustDogecoin.Units.HexParse
import RustDogecoin.Units.RoundTrip

/-!
# Decimal integers

`str::parse` for unsigned types, and `int` of `parse.rs`, which keeps the text with the error.  The parser of
the standard library takes a plus sign in front of the digits and zeros in front of the number; the texts
without either are those that numbers are written as (`eq_toDigits`).
-/

namespace RustDogecoin.Units

/-- The loop of `from_str_radix` in base 10, which looks at the digit before the product. -/
def decimalLoop (bits : ℕ) : ℕ → Str → Except IntErrorKind ℕ
  | acc, [] => .ok acc
  | acc, c :: s =>
    if c.isDigit then
      if acc * 10 < 2 ^ bits then
        if acc * 10 + Str.digitVal c < 2 ^ bits then decimalLoop bits (acc * 10 + Str.digitVal c) s
        else .error .posOverflow
      else .error .posOverflow
    else .error .invalidDigit

/-- `str::parse` of an unsigned type. -/
def parseUint (bits : ℕ) : Str → Except IntErrorKind ℕ
  | [] => .error .empty
  | c :: s =>
    if c = '+' then if s = [] then .error .invalidDigit else decimalLoop bits 0 s
    else decimalLoop bits 0 (c :: s)

/-- `str::parse::<u32>`. -/
def parseU32 (s : Str) : Except IntErrorKind UInt32 := UInt32.ofNat <$> parseUint 32 s

/-- `int::<u32, _>`. -/
def int (s : Str) : Except ParseIntError UInt32 := (parseU32 s).mapError fun source => ⟨s, 32, false, source⟩

/-! ## What is read -/

variable {bits : ℕ}

theorem decimalLoop_eq_ok_iff {acc v : ℕ} {s : Str} (hacc : acc < 2 ^ bits) :
    decimalLoop bits acc s = .ok v ↔ Digits s ∧ valueFrom acc s = v ∧ v < 2 ^ bits := by
  induction s generalizing acc with
  | nil =>
    rw [decimalLoop, Except.ok.injEq]
    constructor
    · rintro rfl
      exact ⟨List.forall_mem_nil _, rfl, hacc⟩
    · exact fun h => h.2.1
  | cons c s ih =>
    have hdigits : Digits (c :: s) ↔ c.isDigit = true ∧ Digits s := List.forall_mem_cons
    have hle := le_valueFrom (10 * acc + Str.digitVal c) s
    rw [decimalLoop, hdigits, valueFrom_cons]
    split_ifs with hc hmul hadd
    · rw [ih hadd, Nat.mul_comm acc 10]
      simp [hc]
    · apply iff_of_false (by simp)
      omega
    · apply iff_of_false (by simp)
      omega
    · simp [hc]

/-- Digits, with a plus sign in front of them or without. -/
theorem parseUint_eq_ok_iff {s : Str} {v : ℕ} :
    parseUint bits s = .ok v ↔ ∃ d : Str, (s = d ∨ s = '+' :: d) ∧ d ≠ [] ∧ Digits d ∧ valueFrom 0 d = v ∧
      v < 2 ^ bits := by
  have hzero : 0 < 2 ^ bits := Nat.pow_pos (by decide)
  have hplus : ∀ d : Str, ¬Digits ('+' :: d) := fun d hd => absurd (hd '+' List.mem_cons_self) (by decide)
  cases s with
  | nil => simp [parseUint]
  | cons c s =>
    rw [parseUint]
    split_ifs with hc hs
    · subst hc hs
      apply iff_of_false (by simp)
      rintro ⟨d, rfl | hd, hne, hdigits, -⟩
      · exact hplus [] hdigits
      · exact hne (List.cons.inj hd).2.symm
    · subst hc
      rw [decimalLoop_eq_ok_iff hzero]
      constructor
      · intro h
        exact ⟨s, .inr rfl, hs, h⟩
      · rintro ⟨d, rfl | hd, -, hdigits, h⟩
        · exact absurd hdigits (hplus s)
        · rw [(List.cons.inj hd).2]
          exact ⟨hdigits, h⟩
    · rw [decimalLoop_eq_ok_iff hzero]
      constructor
      · intro h
        exact ⟨c :: s, .inl rfl, List.cons_ne_nil c s, h⟩
      · rintro ⟨d, rfl | hd, -, h⟩
        · exact h
        · exact absurd (List.cons.inj hd).1 hc

theorem parseUint_toDigits {n : ℕ} (h : n < 2 ^ bits) : parseUint bits (Nat.toDigits 10 n) = .ok n :=
  parseUint_eq_ok_iff.2 ⟨_, .inl rfl, Nat.toDigits_ne_nil, digits_toDigits n, valueFrom_toDigits n, h⟩

theorem parseU32_toDigits (n : UInt32) : parseU32 (Nat.toDigits 10 n.toNat) = .ok n := by
  rw [parseU32, parseUint_toDigits n.toNat_lt, Except.map_ok, UInt32.ofNat_toNat]

theorem Digits.len_eq {s : Str} (h : Digits s) : s.len = s.length := len_of_chars fun c hc => .inl (h c hc)

/-! ## How numbers are written -/

theorem digitChar_digitVal {c : Char} (hc : c.isDigit = true) :
    Str.digitVal c < 10 ∧ Nat.digitChar (Str.digitVal c) = c := by
  have hzero : '0'.toNat = 48 := rfl
  rw [Char.isDigit, Bool.and_eq_true, decide_eq_true_eq, decide_eq_true_eq] at hc
  have hle : 48 ≤ c.toNat := UInt32.le_iff_toNat_le.mp hc.1
  have hge : c.toNat ≤ 57 := UInt32.le_iff_toNat_le.mp hc.2
  have hlt : Str.digitVal c < 10 := by
    rw [Str.digitVal, hzero]
    omega
  refine ⟨hlt, Char.toNat_inj.mp ?_⟩
  rw [Nat.toNat_digitChar_of_lt_ten hlt, Str.digitVal, hzero]
  omega

/-- Digits behind a number that is not zero go on with its digits. -/
theorem toDigits_append {v : ℕ} {s : Str} (hv : 0 < v) (hs : Digits s) :
    Nat.toDigits 10 v ++ s = Nat.toDigits 10 (valueFrom v s) := by
  induction s generalizing v with
  | nil => exact List.append_nil _
  | cons c s ih =>
    obtain ⟨hlt, hchar⟩ := digitChar_digitVal (hs c List.mem_cons_self)
    have hnext := ih (v := 10 * v + Str.digitVal c) (by omega) fun d hd => hs d (List.mem_cons_of_mem c hd)
    have hlast := Nat.toDigits_append_toDigits (by decide : 1 < 10) hv hlt
    rw [Nat.toDigits_of_lt_base hlt, hchar] at hlast
    rw [valueFrom_cons, ← hnext, ← hlast, List.append_assoc, List.singleton_append]

/-- Digits without a zero in front are what a number is written as. -/
theorem eq_toDigits {s : Str} (hne : s ≠ []) (hs : Digits s) (hzero : s.head? = some '0' → s = ['0']) :
    s = Nat.toDigits 10 (valueFrom 0 s) := by
  obtain ⟨c, s, rfl⟩ := List.exists_cons_of_ne_nil hne
  obtain ⟨hlt, hchar⟩ := digitChar_digitVal (hs c List.mem_cons_self)
  by_cases hc : c = '0'
  · subst hc
    rw [hzero rfl]
    rfl
  · have hpos : 0 < Str.digitVal c := by
      by_contra hnot
      exact hc (Str.eq_zero_of_digitVal (hs c List.mem_cons_self) (by omega))
    rw [valueFrom_cons, Nat.mul_zero, Nat.zero_add, ← toDigits_append hpos fun d hd =>
      hs d (List.mem_cons_of_mem c hd), Nat.toDigits_of_lt_base hlt, hchar]
    rfl

/-- No zero stands in front of a number that is not zero. -/
theorem toDigits_of_head {n : ℕ} (h : (Nat.toDigits 10 n).head? = some '0') : Nat.toDigits 10 n = ['0'] := by
  induction n using Nat.strongRecOn with
  | ind n ih =>
    rcases Nat.lt_or_ge n 10 with hn | hn
    · rw [Nat.toDigits_of_lt_base hn] at h ⊢
      rw [Option.some.inj h]
    · rw [Nat.toDigits_of_base_le (by decide) hn, List.head?_append_of_ne_nil _ Nat.toDigits_ne_nil] at h
      have hquot := ih (n / 10) (by omega) h
      have hvalue := valueFrom_toDigits (n / 10)
      rw [hquot] at hvalue
      have hzero : valueFrom 0 ['0'] = 0 := rfl
      omega

end RustDogecoin.Units
