import RustDogecoin.Units.Parse
import Mathlib.Tactic.FieldSimp
import Mathlib.Data.Rat.Cast.Order

/-!
# Which texts are parsed exactly

A text denotes a rational number of units, and a unit is a power of ten of satoshis.  The parser
never panics, and what it returns is exactly what the text denotes, apart from two kinds of text
that denote no number and slip through as zero.
-/

namespace RustDogecoin.Units

/-- The number of satoshis in one unit of a denomination. -/
def Denomination.satoshis (d : Denomination) : ℚ := 10 ^ (-d.precision)

/-- Decimal digits with at most one dot and at least one digit, and the number they denote. -/
def Decimal (s : Str) (x : ℚ) : Prop :=
  ∃ ip fp, Digits ip ∧ Digits fp ∧ ip ++ fp ≠ [] ∧ (s = ip ∧ fp = [] ∨ s = ip ++ '.' :: fp) ∧
    x = valueFrom 0 (ip ++ fp) / 10 ^ fp.length

/-- The text is a decimal number behind at most one minus sign, `neg` says if there is one, and `v`
is exactly the number of satoshis. -/
def DenotesSatoshis (s : Str) (d : Denomination) (neg : Bool) (v : ℕ) : Prop :=
  ∃ rest x, s = signed neg rest ∧ Decimal rest x ∧ (v : ℚ) = x * d.satoshis

/-- The parser does not panic, and what it returns is a `u64` that the text denotes. -/
def ParsesExactly (s : Str) (d : Denomination) : Prop :=
  (parseSignedToSatoshi s d).NoPanic ∧
    ∀ neg v, parseSignedToSatoshi s d = .ok (neg, v) → DenotesSatoshis s d neg v ∧ v < 2 ^ 64

/-- The texts behind the first minus sign that are taken for zero without denoting it: one more sign
and zeros, no longer than the digits that are dropped, and a dot alone. -/
def SlipsThrough (d : Denomination) (rest : Str) : Prop :=
  (∃ c z, (c = '+' ∨ c = '-') ∧ z ≠ [] ∧ (∀ x ∈ z, x = '0') ∧ rest = c :: z ∧
      (rest.len : ℤ) ≤ d.precision) ∨
    (d.precision < 0 ∧ rest = ['.'])

variable {d : Denomination} {s : Str} {neg : Bool} {x : ℚ}

/-! ## Decimal texts -/

theorem decimal_of_digits (hs : Digits s) (hne : s ≠ []) : Decimal s (valueFrom 0 s) := by
  refine ⟨s, [], hs, fun c hc => absurd hc List.not_mem_nil, ?_, .inl ⟨rfl, rfl⟩, ?_⟩
  · rwa [List.append_nil]
  · rw [List.append_nil, List.length_nil, pow_zero, div_one]

theorem Decimal.eq_valueFrom (h : Decimal s x) (hdot : '.' ∉ s) :
    Digits s ∧ s ≠ [] ∧ x = valueFrom 0 s := by
  obtain ⟨ip, fp, hip, -, hne, ⟨rfl, rfl⟩ | rfl, hx⟩ := h
  · rw [List.append_nil] at hne hx
    rw [List.length_nil, pow_zero, div_one] at hx
    exact ⟨hip, hne, hx⟩
  · exact absurd (List.mem_append_right ip List.mem_cons_self) hdot

/-- A decimal text starts with a digit or with the dot. -/
theorem Decimal.head (h : Decimal s x) {c : Char} (hc : s.head? = some c) :
    c.isDigit = true ∨ c = '.' := by
  obtain ⟨ip, fp, hip, -, -, ⟨rfl, rfl⟩ | rfl, -⟩ := h
  · exact .inl (hip c (List.mem_of_mem_head? hc))
  · cases ip with
    | nil => exact .inr (Option.some.inj hc).symm
    | cons b ip =>
      obtain rfl : b = c := Option.some.inj hc
      exact .inl (hip b List.mem_cons_self)

theorem not_decimal_dot : ¬ Decimal ['.'] x := by
  rintro ⟨ip, fp, hip, -, hne, ⟨rfl, rfl⟩ | hs, -⟩
  · exact absurd (hip '.' List.mem_cons_self) (by decide)
  · have hlen := congrArg List.length hs
    rw [List.length_append, List.length_cons, List.length_cons, List.length_nil] at hlen
    apply hne
    rw [List.append_eq_nil_iff]
    exact ⟨List.length_eq_zero_iff.mp (by omega), List.length_eq_zero_iff.mp (by omega)⟩

theorem decimal_zeros (hs : ∀ c ∈ s, c = '0') (hne : s ≠ []) : Decimal s 0 := by
  have h := decimal_of_digits (digits_of_zeros hs) hne
  rwa [valueFrom_zeros hs, Nat.mul_zero, Nat.cast_zero] at h

theorem valueFrom_append_zeros (a : Str) {z : Str} (hz : ∀ c ∈ z, c = '0') :
    valueFrom 0 (a ++ z) = 10 ^ z.length * valueFrom 0 a := by
  rw [valueFrom, Nat.ofDigitChars_append]
  exact valueFrom_zeros hz _

/-- Zeros before the dot multiply the number, and those behind it do not change it. -/
theorem Decimal.of_endsInZeros {a : Str} {n : ℕ} (h : EndsInZeros n a s) (hx : Decimal a x) :
    Decimal s (x * 10 ^ n) := by
  obtain ⟨hne, hdot, htext⟩ := h
  obtain ⟨ha, -, rfl⟩ := hx.eq_valueFrom hdot
  have hzeros : valueFrom 0 (a ++ List.replicate n '0') = 10 ^ n * valueFrom 0 a := by
    rw [valueFrom_append_zeros a fun c hc => List.eq_of_mem_replicate hc, List.length_replicate]
  rcases htext with rfl | ⟨z, hz, rfl⟩
  · have hs := decimal_of_digits (ha.append (digits_zeros n)) (by simp [hne])
    rwa [hzeros, Nat.cast_mul, Nat.cast_pow, Nat.cast_ofNat, mul_comm] at hs
  · refine ⟨_, z, ha.append (digits_zeros n), digits_of_zeros hz, by simp [hne], .inr rfl, ?_⟩
    rw [valueFrom_append_zeros _ hz, hzeros]
    push_cast
    field_simp

/-! ## What the parser returns -/

/-- The digits are read exactly and scaled by the decimals that the denomination has. -/
theorem decimal_of_parseDigits {k v : ℕ} {b : Bool} (hdot : k = 0 → '.' ∉ s) (hne : s ≠ [])
    (hlone : s ≠ ['.']) (h : parseDigits neg k s = .ok (b, v)) :
    b = neg ∧ v < 2 ^ 64 ∧ ∃ x, Decimal s x ∧ (v : ℚ) = x * 10 ^ k := by
  obtain ⟨⟨decimals, value⟩, hloop, h⟩ := Outcome.bind_eq_ok_iff.mp h
  obtain ⟨v', hscale, h⟩ := Outcome.bind_eq_ok_iff.mp h
  obtain ⟨rfl, rfl⟩ := Prod.mk.inj (Outcome.ok.inj h)
  have hlt := scaleLoop_lt (parseLoop_lt (Nat.pow_pos (by decide)) hloop) hscale
  have hv := scaleLoop_eq_ok hscale
  refine ⟨rfl, hlt, ?_⟩
  rcases parseLoop_eq_ok hdot hloop with ⟨hs, hnone, hvalue⟩ | ⟨ip, fp, rfl, hip, hfp, hsome, hle, hvalue⟩
  · refine ⟨valueFrom 0 s, decimal_of_digits hs hne, ?_⟩
    rw [hv, hnone, hvalue, Option.getD_none, Nat.sub_zero]
    push_cast
    rfl
  · refine ⟨_, ⟨ip, fp, hip, hfp, ?_, .inr rfl, rfl⟩, ?_⟩
    · rintro hnil
      obtain ⟨rfl, rfl⟩ := List.append_eq_nil_iff.mp hnil
      exact hlone rfl
    · have hsplit : (10 : ℚ) ^ k = 10 ^ (k - fp.length) * 10 ^ fp.length := by
        rw [← pow_add, Nat.sub_add_cancel hle]
      rw [hv, hsome, hvalue, Option.getD_some, hsplit]
      push_cast
      field_simp

theorem satoshis_of_coarse (hd : d.precision < 0) : d.satoshis = 10 ^ (-d.precision).toNat := by
  rw [Denomination.satoshis, ← zpow_natCast, Int.toNat_of_nonneg (by omega)]

theorem satoshis_of_fine (hd : 0 ≤ d.precision) :
    (10 : ℚ) ^ d.precision.toNat * d.satoshis = 1 := by
  rw [Denomination.satoshis, ← zpow_natCast, Int.toNat_of_nonneg hd, ← zpow_add₀ (by decide),
    add_neg_cancel, zpow_zero]

/-- A sign and zeros behind it are longer than the digits that are dropped, or slip through. -/
theorem endsInZeros_of_sign {c : Char} {z : Str} {n : ℕ} (hc : c = '+' ∨ c = '-')
    (hz : ∀ x ∈ z, x = '0') (hlen : n < Str.len (c :: z)) : ∃ a, EndsInZeros n a (c :: z) := by
  have hrep : z = List.replicate z.length '0' := List.eq_replicate_of_mem hz
  have hn : n ≤ z.length := by
    have hbytes : Str.len (c :: z) = 1 + z.length := by
      rw [Str.len, hrep, len_zeros, List.length_replicate]
      rcases hc with rfl | rfl <;> rfl
    omega
  refine ⟨c :: List.replicate (z.length - n) '0', List.cons_ne_nil _ _, ?_, .inl ?_⟩
  · intro hdot
    rcases List.mem_cons.mp hdot with h | h
    · rcases hc with rfl | rfl <;> exact absurd h (by decide)
    · exact absurd (List.eq_of_mem_replicate h) (by decide)
  · rw [List.cons_append, List.replicate_append_replicate, Nat.sub_add_cancel hn, ← hrep]

/-- Behind the sign the parser is exact on what does not slip through. -/
theorem decimal_of_parseMagnitude {v : ℕ} {b : Bool} (hne : s ≠ []) (hslip : ¬ SlipsThrough d s)
    (h : parseMagnitude neg s d = .ok (b, v)) :
    b = neg ∧ v < 2 ^ 64 ∧ ∃ x, Decimal s x ∧ (v : ℚ) = x * d.satoshis := by
  by_cases hd : d.precision < 0
  · rw [parseMagnitude_coarse hd] at h
    rw [satoshis_of_coarse hd]
    exact decimal_of_parseDigits (fun hk => by omega) hne (fun hdot => hslip (.inr ⟨hd, hdot⟩)) h
  · have hfine : 0 ≤ d.precision := Int.not_lt.mp hd
    by_cases hends : ∃ a, EndsInZeros d.precision.toNat a s
    · obtain ⟨a, ha⟩ := hends
      have hdot : '.' ∉ a := ha.2.1
      rw [parseMagnitude_of_endsInZeros hfine ha] at h
      have hlone : a ≠ ['.'] := by
        rintro rfl
        exact hdot List.mem_cons_self
      obtain ⟨hb, hlt, x, hx, hv⟩ := decimal_of_parseDigits (fun _ => hdot) ha.1 hlone h
      refine ⟨hb, hlt, _, hx.of_endsInZeros ha, ?_⟩
      rw [mul_assoc, satoshis_of_fine hfine, hv, pow_zero]
    · obtain ⟨e, he⟩ := parseMagnitude_of_tooPrecise hfine hends neg
      rw [he] at h
      by_cases hzero : s.parseI64 = some 0
      · rw [if_pos hzero] at h
        obtain ⟨rfl, rfl⟩ := Prod.mk.inj (Outcome.ok.inj h)
        refine ⟨rfl, Nat.pow_pos (by decide), 0, ?_, by rw [zero_mul, Nat.cast_zero]⟩
        obtain ⟨z, hz, hzeros, hs⟩ := Str.parseI64_eq_zero_iff.mp hzero
        have hsign : ∀ c, c = '+' ∨ c = '-' → s ≠ c :: z := by
          rintro c hc rfl
          by_cases hlen : d.precision.toNat < Str.len (c :: z)
          · exact hends (endsInZeros_of_sign hc hzeros hlen)
          · exact hslip (.inl ⟨c, z, hc, hz, hzeros, rfl, by omega⟩)
        rcases hs with rfl | hs | hs
        · exact decimal_zeros hzeros hz
        · exact absurd hs (hsign '+' (.inl rfl))
        · exact absurd hs (hsign '-' (.inr rfl))
      · rw [if_neg hzero] at h
        cases h

/-! ## What slips through -/

theorem parseDigits_dot {k : ℕ} (hk : 0 < k) : parseDigits neg k ['.'] = .ok (neg, 0) := by
  have hloop : parseLoop neg k (Str.charIndices 0 ['.']) none 0 = .ok (some 0, 0) := by
    rw [Str.charIndices, parseLoop, if_neg (by decide), if_pos rfl, if_neg (by omega)]
    rfl
  rw [parseDigits, hloop, Outcome.ok_bind]
  show (scaleLoop neg k 0 >>= fun value => .ok (neg, value)) = _
  rw [scaleLoop_of (by rw [Nat.zero_mul]; decide), Nat.zero_mul]
  rfl

theorem SlipsThrough.parseMagnitude_eq (h : SlipsThrough d s) (neg : Bool) :
    parseMagnitude neg s d = .ok (neg, 0) := by
  rcases h with ⟨c, z, hc, hz, hzeros, rfl, hlen⟩ | ⟨hd, rfl⟩
  · have hfine : 0 ≤ d.precision := by omega
    have hends : ¬ ∃ a, EndsInZeros d.precision.toNat a (c :: z) := by
      rintro ⟨a, ha⟩
      have hlt := ha.lt_len
      omega
    obtain ⟨e, he⟩ := parseMagnitude_of_tooPrecise hfine hends neg
    rw [he]
    apply if_pos
    apply Str.parseI64_eq_zero_iff.mpr
    rcases hc with rfl | rfl
    · exact ⟨z, hz, hzeros, .inr (.inl rfl)⟩
    · exact ⟨z, hz, hzeros, .inr (.inr rfl)⟩
  · rw [parseMagnitude_coarse hd]
    exact parseDigits_dot (by omega)

theorem SlipsThrough.not_decimal (h : SlipsThrough d s) : ¬ Decimal s x := by
  intro hx
  rcases h with ⟨c, z, hc, -, -, rfl, -⟩ | ⟨-, rfl⟩
  · have hhead := hx.head (c := c) rfl
    rcases hc with rfl | rfl <;> exact absurd hhead (by decide)
  · exact not_decimal_dot hx

theorem SlipsThrough.len_le (h : SlipsThrough d s) : s.len ≤ 4 := by
  have hd := precision_le d
  rcases h with ⟨c, z, -, -, -, rfl, hlen⟩ | ⟨-, rfl⟩
  · omega
  · decide

theorem SlipsThrough.ne_nil (h : SlipsThrough d s) : s ≠ [] := by
  rcases h with ⟨c, z, -, -, -, rfl, -⟩ | ⟨-, rfl⟩
  · exact List.cons_ne_nil c z
  · exact List.cons_ne_nil _ _

/-- What a text denotes is read off behind its sign. -/
theorem DenotesSatoshis.decimal {v : ℕ} (h : DenotesSatoshis s d neg v) :
    ∃ x, Decimal (unsigned s) x := by
  obtain ⟨rest, x, rfl, hx, -⟩ := h
  have hhead : rest.head? ≠ some '-' := fun hminus => by
    rcases hx.head hminus with hc | hc <;> exact absurd hc (by decide)
  rw [(unsigned_signed neg hhead).1]
  exact ⟨x, hx⟩

theorem SlipsThrough.not_parsesExactly (h : SlipsThrough d (unsigned s)) : ¬ ParsesExactly s d := by
  rintro ⟨-, hexact⟩
  have hlen : s.len ≤ INPUT_STRING_LEN_LIMIT := by
    have hle := len_le_unsigned s
    have hshort := h.len_le
    rw [INPUT_STRING_LEN_LIMIT]
    omega
  have hparse := parseSignedToSatoshi_eq hlen h.ne_nil d
  rw [h.parseMagnitude_eq] at hparse
  obtain ⟨x, hx⟩ := (hexact _ _ hparse).1.decimal
  exact h.not_decimal hx

/-- The parser is exact on all texts but the signed zeros of a fine denomination and the dot alone
of a coarse one. -/
theorem parsesExactly_iff (s : Str) (d : Denomination) :
    ParsesExactly s d ↔ ¬ SlipsThrough d (unsigned s) := by
  constructor
  · intro hexact hslip
    exact hslip.not_parsesExactly hexact
  · intro hslip
    refine ⟨noPanic_parseSignedToSatoshi s d, fun neg v hparse => ?_⟩
    by_cases h : s.len ≤ INPUT_STRING_LEN_LIMIT ∧ unsigned s ≠ []
    · rw [parseSignedToSatoshi_eq h.1 h.2] at hparse
      obtain ⟨rfl, hlt, x, hx, hv⟩ := decimal_of_parseMagnitude h.2 hslip hparse
      exact ⟨⟨unsigned s, x, (signed_unsigned s).symm, hx, hv⟩, hlt⟩
    · obtain ⟨e, he⟩ := parseSignedToSatoshi_err h d
      rw [he] at hparse
      cases hparse

/-- A second sign is accepted in front of a zero of millisatoshis, and a dot without any digit. -/
theorem parse_slips :
    (parseSignedToSatoshi "+0".toList .milliSatoshi = .ok (false, 0) ∧
      ¬ ParsesExactly "+0".toList .milliSatoshi) ∧
    (parseSignedToSatoshi ".".toList .bitcoin = .ok (false, 0) ∧
      ¬ ParsesExactly ".".toList .bitcoin) := by
  have hplus : SlipsThrough .milliSatoshi (unsigned "+0".toList) :=
    .inl ⟨'+', ['0'], .inl rfl, List.cons_ne_nil _ _, fun _ hx => List.mem_singleton.mp hx, rfl,
      by decide⟩
  have hdot : SlipsThrough .bitcoin (unsigned ".".toList) := .inr ⟨by decide, rfl⟩
  exact ⟨⟨by decide, hplus.not_parsesExactly⟩, by decide, hdot.not_parsesExactly⟩

end RustDogecoin.Units
