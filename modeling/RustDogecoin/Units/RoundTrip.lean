import RustDogecoin.Units.Parse
import Mathlib.Tactic.Ring

/-!
# Amounts survive their text form

What `fmtSatoshiIn` writes without padding is read back: for a denomination finer than a satoshi
the zeros that it appends are the digits that the parser drops, and for a coarser one the decimals
that it strips are the powers of ten that the parser multiplies by.  With the denomination behind
it, the text is split at the only space.
-/

namespace RustDogecoin.Units

variable {neg : Bool} {k : ℕ}

/-! ## Digits that are read -/

theorem parseDigits_digits {s : Str} (hs : Digits s) (hfit : valueFrom 0 s * 10 ^ k < 2 ^ 64) :
    parseDigits neg k s = .ok (neg, valueFrom 0 s * 10 ^ k) := by
  have hvalue : valueFrom 0 s < 2 ^ 64 :=
    Nat.lt_of_le_of_lt (Nat.le_mul_of_pos_right _ (Nat.pow_pos (by decide))) hfit
  have hloop := parseLoop_digits neg (k := k) hs [] 0 none 0 hvalue (fun d hd => by cases hd)
  rw [List.append_nil] at hloop
  rw [parseDigits, hloop]
  show (scaleLoop neg (k - 0) (valueFrom 0 s) >>= fun value => .ok (neg, value)) = _
  rw [Nat.sub_zero, scaleLoop_of hfit]
  rfl

theorem parseDigits_decimals {ip fp : Str} (hip : Digits ip) (hfp : Digits fp) (hk : 0 < k)
    (hle : fp.length ≤ k) (hfit : valueFrom 0 (ip ++ fp) * 10 ^ (k - fp.length) < 2 ^ 64) :
    parseDigits neg k (ip ++ '.' :: fp) =
      .ok (neg, valueFrom 0 (ip ++ fp) * 10 ^ (k - fp.length)) := by
  have hvalue : valueFrom 0 (ip ++ fp) < 2 ^ 64 :=
    Nat.lt_of_le_of_lt (Nat.le_mul_of_pos_right _ (Nat.pow_pos (by decide))) hfit
  have happend : valueFrom (valueFrom 0 ip) fp = valueFrom 0 (ip ++ fp) :=
    (Nat.ofDigitChars_append 0).symm
  have hinteger : valueFrom 0 ip < 2 ^ 64 :=
    Nat.lt_of_le_of_lt (le_valueFrom _ fp) (happend ▸ hvalue)
  have hbefore := parseLoop_digits neg (k := k) hip ('.' :: fp) 0 none 0 hinteger
    (fun d hd => by cases hd)
  have hbehind := parseLoop_digits neg (k := k) hfp [] (0 + ip.len + 1) (some 0)
    (valueFrom 0 ip) (happend ▸ hvalue) (fun d hd => by obtain rfl := Option.some.inj hd; omega)
  have hdot : parseLoop neg k (Str.charIndices (0 + ip.len) ('.' :: fp)) none (valueFrom 0 ip) =
      parseLoop neg k (Str.charIndices (0 + ip.len + 1) fp) (some 0) (valueFrom 0 ip) := by
    rw [Str.charIndices, parseLoop, if_neg (by decide), if_pos rfl, if_neg (by omega)]
    rfl
  rw [List.append_nil, happend] at hbehind
  rw [parseDigits, hbefore]
  show (parseLoop neg k (Str.charIndices (0 + ip.len) ('.' :: fp)) none (valueFrom 0 ip) >>= _) = _
  rw [hdot, hbehind]
  show (scaleLoop neg (k - (0 + fp.length)) (valueFrom 0 (ip ++ fp)) >>=
    fun value => .ok (neg, value)) = _
  rw [Nat.zero_add, scaleLoop_of hfit]
  rfl

/-! ## Digits that are written -/

theorem digits_toDigits (n : ℕ) : Digits (Nat.toDigits 10 n) :=
  fun _ hc => Nat.isDigit_of_mem_toDigits (by decide) (by decide) hc

theorem valueFrom_toDigits (n : ℕ) : valueFrom 0 (Nat.toDigits 10 n) = n :=
  Nat.ofDigitChars_ten_toDigits

theorem digits_zeroPadded (num width : ℕ) : Digits (zeroPadded num width) :=
  (digits_zeros _).append (digits_toDigits num)

/-- Padding to a width that the number fits in gives this width and does not change the number. -/
theorem length_zeroPadded {num width : ℕ} (hwidth : 0 < width) (h : num < 10 ^ width) :
    (zeroPadded num width).length = width := by
  have hle := (Nat.length_toDigits_le_iff (by decide) hwidth).mpr h
  rw [zeroPadded, List.length_append, List.length_replicate, Nat.sub_add_cancel hle]

theorem valueFrom_zeroPadded {num width : ℕ} (hwidth : 0 < width) (h : num < 10 ^ width) (v : ℕ) :
    valueFrom v (zeroPadded num width) = 10 ^ width * v + num := by
  have hzero : valueFrom 0 (zeroPadded num width) = num := by
    rw [valueFrom, zeroPadded, Nat.ofDigitChars_append, Nat.ofDigitChars_replicate_zero,
      Nat.mul_zero]
    exact valueFrom_toDigits num
  rw [valueFrom, Nat.ofDigitChars_eq_ofDigitChars_zero, length_zeroPadded hwidth h]
  exact congrArg _ hzero

/-- Stripping trailing zeros leaves a number with fewer decimals. -/
theorem stripTrailingZeros_spec (k num : ℕ) :
    (stripTrailingZeros k num).1 ≤ k ∧
      (stripTrailingZeros k num).2 * 10 ^ (k - (stripTrailingZeros k num).1) = num := by
  induction k generalizing num with
  | zero => exact ⟨Nat.le_refl 0, Nat.mul_one num⟩
  | succ k ih =>
    rw [stripTrailingZeros]
    by_cases h : num % 10 = 0
    · rw [if_pos h]
      obtain ⟨hle, hvalue⟩ := ih (num / 10)
      refine ⟨Nat.le_succ_of_le hle, ?_⟩
      rw [Nat.succ_sub hle, Nat.pow_succ, ← Nat.mul_assoc, hvalue]
      omega
    · rw [if_neg h]
      refine ⟨Nat.le_refl _, ?_⟩
      rw [Nat.sub_self, Nat.pow_zero, Nat.mul_one]

theorem stripTrailingZeros_lt {k num : ℕ} (h : num < 10 ^ k) :
    (stripTrailingZeros k num).2 < 10 ^ (stripTrailingZeros k num).1 := by
  obtain ⟨hle, hvalue⟩ := stripTrailingZeros_spec k num
  apply Nat.lt_of_mul_lt_mul_right (a := 10 ^ (k - (stripTrailingZeros k num).1))
  rw [hvalue, ← Nat.pow_add, Nat.add_sub_cancel' hle]
  exact h

namespace Normalized

/-- The digits behind the dot. -/
def decimals (n : Normalized) : Str :=
  (if 0 < n.normNbDecimals then zeroPadded n.numAfterDecimalPoint n.normNbDecimals else []) ++
    List.replicate n.trailingDecimalZeros '0'

theorem digits_decimals (n : Normalized) : Digits n.decimals := by
  apply Digits.append _ (digits_zeros _)
  by_cases h : 0 < n.normNbDecimals
  · rw [if_pos h]
    exact digits_zeroPadded _ _
  · rw [if_neg h]
    exact fun c hc => absurd hc List.not_mem_nil

variable {n : Normalized}

theorem length_decimals (h : n.numAfterDecimalPoint < 10 ^ n.normNbDecimals) :
    n.decimals.length = n.totalDecimals := by
  rw [decimals, List.length_append, List.length_replicate, totalDecimals]
  by_cases hpos : 0 < n.normNbDecimals
  · rw [if_pos hpos, length_zeroPadded hpos h]
  · rw [if_neg hpos, List.length_nil]
    omega

/-- The decimals continue the number before the dot. -/
theorem valueFrom_decimals (h : n.numAfterDecimalPoint < 10 ^ n.normNbDecimals) (v : ℕ) :
    valueFrom v n.decimals =
      10 ^ n.trailingDecimalZeros * (10 ^ n.normNbDecimals * v + n.numAfterDecimalPoint) := by
  rw [decimals, valueFrom, Nat.ofDigitChars_append, Nat.ofDigitChars_replicate_zero]
  by_cases hpos : 0 < n.normNbDecimals
  · rw [if_pos hpos]
    exact congrArg _ (valueFrom_zeroPadded hpos h v)
  · have hzero : n.normNbDecimals = 0 := Nat.eq_zero_of_not_pos hpos
    rw [if_neg hpos, Nat.ofDigitChars_nil]
    rw [hzero, Nat.pow_zero] at h ⊢
    rw [Nat.one_mul, Nat.lt_one_iff.mp h, Nat.add_zero]

/-- The text is the integer part and, if there are decimals, the dot and the decimals. -/
theorem text_eq (n : Normalized) :
    n.text = Nat.toDigits 10 n.numBeforeDecimalPoint ++ List.replicate n.exp '0' ++
      if 0 < n.totalDecimals then '.' :: n.decimals else n.decimals := by
  rw [text, List.append_assoc _ _ (List.replicate _ _), ← decimals, List.append_assoc _ _ n.decimals]
  by_cases h : 0 < n.totalDecimals
  · rw [if_pos h, if_pos h, List.cons_append, List.nil_append]
  · rw [if_neg h, if_neg h, List.nil_append]

/-- The number of satoshis in a unit's decimals is the same behind stripping. -/
theorem parseDigits_text (hexp : n.exp = 0) (hfits : n.numAfterDecimalPoint < 10 ^ n.normNbDecimals)
    (hk : 0 < k) (hle : n.totalDecimals ≤ k) {satoshi : ℕ} (hsat : satoshi < 2 ^ 64)
    (hvalue : n.numBeforeDecimalPoint * 10 ^ k +
      n.numAfterDecimalPoint * 10 ^ (k - n.normNbDecimals) = satoshi) :
    parseDigits neg k n.text = .ok (neg, satoshi) := by
  have hlen := length_decimals hfits
  have hdigits : valueFrom 0 (Nat.toDigits 10 n.numBeforeDecimalPoint ++ n.decimals) *
      10 ^ (k - n.decimals.length) = satoshi := by
    rw [valueFrom, Nat.ofDigitChars_append, Nat.ofDigitChars_ten_toDigits]
    show valueFrom n.numBeforeDecimalPoint n.decimals * _ = _
    rw [valueFrom_decimals hfits, hlen]
    have htotal : n.totalDecimals = n.normNbDecimals + n.trailingDecimalZeros := rfl
    have hall : 10 ^ k = 10 ^ n.trailingDecimalZeros * 10 ^ n.normNbDecimals *
        10 ^ (k - n.totalDecimals) := by
      rw [← Nat.pow_add, ← Nat.pow_add]
      congr 1
      omega
    have hbehind : 10 ^ (k - n.normNbDecimals) =
        10 ^ n.trailingDecimalZeros * 10 ^ (k - n.totalDecimals) := by
      rw [← Nat.pow_add]
      congr 1
      omega
    rw [← hvalue, hall, hbehind]
    ring
  rw [text_eq, hexp, List.replicate_zero, List.append_nil]
  by_cases h : 0 < n.totalDecimals
  · rw [if_pos h, parseDigits_decimals (digits_toDigits _) (digits_decimals n) hk (by omega)
      (by rw [hdigits]; exact hsat), hdigits]
  · have hnil : n.decimals.length = 0 := by omega
    rw [hnil, Nat.sub_zero] at hdigits
    rw [if_neg h, parseDigits_digits ((digits_toDigits _).append (digits_decimals n))
      (by rw [hdigits]; exact hsat), hdigits]

/-- The characters of a number without its sign. -/
theorem text_chars (n : Normalized) : ∀ c ∈ n.text, c.isDigit = true ∨ c = '.' := by
  intro c hc
  rw [text_eq] at hc
  rcases List.mem_append.mp hc with hc | hc
  · exact .inl ((digits_toDigits _).append (digits_zeros _) c hc)
  · by_cases h : 0 < n.totalDecimals
    · rw [if_pos h] at hc
      rcases List.mem_cons.mp hc with rfl | hc
      · exact .inr rfl
      · exact .inl (digits_decimals n c hc)
    · rw [if_neg h] at hc
      exact .inl (digits_decimals n c hc)

theorem text_ne_nil (n : Normalized) : n.text ≠ [] := by
  rw [text_eq]
  simp [Nat.toDigits_ne_nil]

theorem length_text_le (h : n.numAfterDecimalPoint < 10 ^ n.normNbDecimals) :
    n.text.length ≤ (Nat.toDigits 10 n.numBeforeDecimalPoint).length + n.exp + 1 + n.totalDecimals := by
  rw [text_eq, List.length_append, List.length_append, List.length_replicate]
  by_cases hpos : 0 < n.totalDecimals
  · rw [if_pos hpos, List.length_cons, length_decimals h]
    omega
  · rw [if_neg hpos, length_decimals h]
    omega

end Normalized

/-! ## Normalizing -/

variable {d : Denomination} {satoshi : ℕ} {p : Option ℕ}

/-- A number for a denomination with decimals. -/
theorem normalize_coarse (hd : d.precision < 0) (hp : p.getD 0 ≤ (-d.precision).toNat) (satoshi : ℕ) :
    (normalize satoshi d p).exp = 0 ∧
      (normalize satoshi d p).numAfterDecimalPoint <
        10 ^ (normalize satoshi d p).normNbDecimals ∧
      (normalize satoshi d p).totalDecimals ≤ (-d.precision).toNat ∧
      (normalize satoshi d p).numBeforeDecimalPoint * 10 ^ (-d.precision).toNat +
        (normalize satoshi d p).numAfterDecimalPoint *
          10 ^ ((-d.precision).toNat - (normalize satoshi d p).normNbDecimals) = satoshi := by
  have hk : d.precision.natAbs = (-d.precision).toNat := by omega
  rw [normalize, if_neg (by omega), if_pos hd, hk]
  dsimp only [Normalized.totalDecimals]
  have hlt : satoshi % 10 ^ (-d.precision).toNat < 10 ^ (-d.precision).toNat :=
    Nat.mod_lt _ (Nat.pow_pos (by decide))
  have hsplit := Nat.div_add_mod' satoshi (10 ^ (-d.precision).toNat)
  by_cases hafter : satoshi % 10 ^ (-d.precision).toNat = 0
  · rw [if_pos hafter]
    refine ⟨rfl, by rw [hafter]; decide, by dsimp only; omega, ?_⟩
    rw [hafter, Nat.zero_mul]
    rw [hafter] at hsplit
    exact hsplit
  · rw [if_neg hafter]
    obtain ⟨hle, hvalue⟩ := stripTrailingZeros_spec (-d.precision).toNat
      (satoshi % 10 ^ (-d.precision).toNat)
    refine ⟨rfl, stripTrailingZeros_lt hlt, by omega, ?_⟩
    rw [hvalue, hsplit]

/-- A number for a denomination without decimals. -/
theorem normalize_fine (hd : 0 ≤ d.precision) (hp : p.getD 0 = 0) (satoshi : ℕ) :
    normalize satoshi d p = ⟨satoshi, if 0 < satoshi then d.precision.toNat else 0, 0, 0, 0⟩ := by
  rw [normalize, hp]
  by_cases hpos : 0 < d.precision
  · rw [if_pos hpos]
  · have hzero : d.precision = 0 := by omega
    rw [if_neg hpos, if_neg (by omega), hzero]
    simp

theorem numBefore_le (hp : p.getD 0 ≤ (-d.precision).toNat) (satoshi : ℕ) :
    (normalize satoshi d p).numBeforeDecimalPoint ≤ satoshi := by
  by_cases hd : d.precision < 0
  · obtain ⟨-, -, -, hvalue⟩ := normalize_coarse hd hp satoshi
    have hle := Nat.le_mul_of_pos_right (normalize satoshi d p).numBeforeDecimalPoint
      (Nat.pow_pos (n := (-d.precision).toNat) (by decide : 0 < 10))
    omega
  · rw [normalize_fine (by omega) (by omega)]

/-- The number is parsed back in its denomination. -/
theorem parseMagnitude_text (hp : p.getD 0 ≤ (-d.precision).toNat) (hsat : satoshi < 2 ^ 64) :
    parseMagnitude neg (normalize satoshi d p).text d = .ok (neg, satoshi) := by
  by_cases hd : d.precision < 0
  · obtain ⟨hexp, hfits, hle, hvalue⟩ := normalize_coarse hd hp satoshi
    rw [parseMagnitude_coarse hd]
    exact Normalized.parseDigits_text hexp hfits (by omega) hle hsat hvalue
  · have hfine : 0 ≤ d.precision := Int.not_lt.mp hd
    have htext : (normalize satoshi d p).text = Nat.toDigits 10 satoshi ++
        List.replicate (if 0 < satoshi then d.precision.toNat else 0) '0' := by
      rw [normalize_fine hfine (by omega), Normalized.text_eq]
      simp [Normalized.totalDecimals, Normalized.decimals]
    rw [htext]
    by_cases hends : 0 < satoshi ∨ d.precision = 0
    · have hexp : (if 0 < satoshi then d.precision.toNat else 0) = d.precision.toNat := by
        by_cases hpos : 0 < satoshi
        · exact if_pos hpos
        · rw [if_neg hpos]
          omega
      have hdot : '.' ∉ Nat.toDigits 10 satoshi := fun hmem =>
        absurd (digits_toDigits satoshi '.' hmem) (by decide)
      rw [hexp, parseMagnitude_of_endsInZeros hfine ⟨Nat.toDigits_ne_nil, hdot, .inl rfl⟩,
        parseDigits_digits (digits_toDigits _)]
      · rw [valueFrom_toDigits, Nat.pow_zero, Nat.mul_one]
      · rw [valueFrom_toDigits, Nat.pow_zero, Nat.mul_one]
        exact hsat
    · -- zero is written without the digits that the parser would drop
      obtain rfl : satoshi = 0 := by omega
      have hnot : ¬ ∃ a, EndsInZeros d.precision.toNat a ['0'] := by
        rintro ⟨a, ha⟩
        have hlt := ha.lt_len
        have hone : Str.len ['0'] = 1 := rfl
        omega
      obtain ⟨e, he⟩ := parseMagnitude_of_tooPrecise hfine hnot neg
      exact he.trans (if_pos (by decide))

/-! ## Texts of amounts -/

theorem utf8Size_of_char {c : Char} (h : c.isDigit = true ∨ c = '.') : c.utf8Size = 1 := by
  rcases h with h | rfl
  · rw [Char.isDigit, Bool.and_eq_true, decide_eq_true_eq, decide_eq_true_eq] at h
    rw [Char.utf8Size, if_pos (UInt32.le_trans h.2 (by decide))]
  · rfl

theorem len_of_chars {s : Str} (h : ∀ c ∈ s, c.isDigit = true ∨ c = '.') : s.len = s.length := by
  induction s with
  | nil => rfl
  | cons c s ih =>
    rw [Str.len, utf8Size_of_char (h c List.mem_cons_self),
      ih fun c hc => h c (List.mem_cons_of_mem _ hc), List.length_cons, Nat.add_comm]

/-- The length limit of the parser leaves room for every `u64` in every denomination. -/
theorem len_text_le (hp : p.getD 0 ≤ (-d.precision).toNat) (hsat : satoshi < 2 ^ 64) :
    (normalize satoshi d p).text.len ≤ 33 := by
  have hbefore : (Nat.toDigits 10 (normalize satoshi d p).numBeforeDecimalPoint).length ≤ 20 := by
    apply (Nat.length_toDigits_le_iff (by decide) (by decide)).mpr
    have hle := numBefore_le hp satoshi
    omega
  have hprecision : -8 ≤ d.precision := by cases d <;> decide
  have hupper := precision_le d
  rw [len_of_chars (Normalized.text_chars _)]
  by_cases hd : d.precision < 0
  · obtain ⟨hexp, hfits, htotal, -⟩ := normalize_coarse hd hp satoshi
    have hle := Normalized.length_text_le hfits
    omega
  · rw [normalize_fine (by omega) (by omega)] at hbefore ⊢
    have hle := Normalized.length_text_le
      (n := ⟨satoshi, if 0 < satoshi then d.precision.toNat else 0, 0, 0, 0⟩) (Nat.one_pos)
    have hexp : (if 0 < satoshi then d.precision.toNat else 0) ≤ 4 := by split_ifs <;> omega
    dsimp only [Normalized.totalDecimals] at hle hbefore
    omega

/-- Without a width, an explicit sign or zero padding there is nothing around the number. -/
theorem fmtSatoshiIn_plain (satoshi : ℕ) (neg : Bool) (d : Denomination) (showDenom : Bool)
    (p : Option ℕ) :
    fmtSatoshiIn satoshi neg d showDenom { precision := p } =
      signed neg (normalize satoshi d p).text ++ if showDenom then ' ' :: d.asStr else [] := by
  have hpad : ∀ w, padding w { precision := p } = (0, 0) := by
    intro w
    rw [padding]
    exact if_neg (Nat.not_lt_zero w)
  rw [fmtSatoshiIn]
  dsimp only
  rw [hpad]
  cases neg <;> simp [signed]

theorem head_text_ne (n : Normalized) : n.text.head? ≠ some '-' := by
  intro h
  rcases n.text_chars '-' (List.mem_of_mem_head? h) with h | h <;> exact absurd h (by decide)

/-- What is formatted is parsed back. -/
theorem parseSignedToSatoshi_text (hp : p.getD 0 ≤ (-d.precision).toNat) (hsat : satoshi < 2 ^ 64) :
    parseSignedToSatoshi (signed neg (normalize satoshi d p).text) d = .ok (neg, satoshi) := by
  obtain ⟨hunsigned, hneg⟩ := unsigned_signed neg (head_text_ne (normalize satoshi d p))
  have hlen : (signed neg (normalize satoshi d p).text).len ≤ INPUT_STRING_LEN_LIMIT := by
    have hle := len_text_le hp hsat
    have hsign := len_le_unsigned (signed neg (normalize satoshi d p).text)
    rw [hunsigned] at hsign
    rw [INPUT_STRING_LEN_LIMIT]
    omega
  rw [parseSignedToSatoshi_eq hlen (by rw [hunsigned]; exact Normalized.text_ne_nil _), hunsigned,
    hneg]
  exact parseMagnitude_text hp hsat

/-- The space in front of the denomination is the first one. -/
theorem splitAmountAndDenomination_text (isAlphabetic : Char → Bool) (neg : Bool) (n : Normalized)
    (d : Denomination) :
    splitAmountAndDenomination isAlphabetic (signed neg n.text ++ ' ' :: d.asStr) =
      .ok (signed neg n.text, d) := by
  have hspace : ∀ c ∈ signed neg n.text, ¬ (c == ' ') = true := by
    have htext : ∀ c ∈ n.text, ¬ (c == ' ') = true := by
      intro c hc
      rcases n.text_chars c hc with h | rfl
      · rintro hspace
        rw [beq_iff_eq.mp hspace] at h
        exact absurd h (by decide)
      · decide
    cases neg with
    | false => exact htext
    | true =>
      intro c hc
      rcases List.mem_cons.mp hc with rfl | hc
      · decide
      · exact htext c hc
  have hbehind : (Str.sliceFrom (signed neg n.text ++ ' ' :: d.asStr)
      (Str.len (signed neg n.text) + 1) : Outcome ParseError Str) = .ok d.asStr := by
    have hslice := Str.sliceFrom_append (ε := ParseError) (signed neg n.text ++ [' ']) d.asStr
    rw [Str.len_append, List.append_assoc] at hslice
    exact hslice
  rw [splitAmountAndDenomination, Str.find_append hspace rfl]
  dsimp only
  rw [Outcome.ok_bind]
  dsimp only
  rw [Str.sliceTo_append, Outcome.ok_bind, hbehind, Outcome.ok_bind, Denomination.fromStr_asStr]
  rfl

/-! ## Unsigned amounts -/

theorem Amount.fromStrIn_text (a : Amount) (hp : p.getD 0 ≤ (-d.precision).toNat) :
    Amount.fromStrIn (signed false (normalize a.sat.toNat d p).text) d = .ok a := by
  rw [Amount.fromStrIn, parseSignedToSatoshi_text hp a.sat.toNat_lt]
  show (.ok ⟨UInt64.ofNat a.sat.toNat⟩ : Outcome ParseAmountError Amount) = _
  rw [UInt64.ofNat_toNat]

theorem Amount.fromStrWithDenomination_text (isAlphabetic : Char → Bool) (a : Amount)
    (hp : p.getD 0 ≤ (-d.precision).toNat) :
    Amount.fromStrWithDenomination isAlphabetic
      (signed false (normalize a.sat.toNat d p).text ++ ' ' :: d.asStr) = .ok a := by
  rw [Amount.fromStrWithDenomination, splitAmountAndDenomination_text, Outcome.ok_bind]
  show (Amount.fromStrIn _ d).mapErr _ = _
  rw [Amount.fromStrIn_text a hp]
  rfl

theorem Amount.toStringIn_eq (a : Amount) (d : Denomination) :
    a.toStringIn d = signed false (normalize a.sat.toNat d none).text := by
  rw [Amount.toStringIn, fmtSatoshiIn_plain]
  exact List.append_nil _

/-- The plain `Display` text has all eight decimals, or none. -/
theorem Amount.fmt_eq (a : Amount) :
    ∃ p : Option ℕ, p.getD 0 ≤ 8 ∧
      a.fmt {} = signed false (normalize a.sat.toNat .bitcoin p).text ++
        ' ' :: Denomination.bitcoin.asStr := by
  rw [Amount.fmt]
  by_cases h : a.sat.toNat % Amount.ONE_BTC.sat.toNat ≠ 0
  · refine ⟨some 8, Nat.le_refl 8, ?_⟩
    rw [if_pos ⟨rfl, h⟩]
    exact fmtSatoshiIn_plain _ _ _ _ _
  · refine ⟨none, Nat.zero_le 8, ?_⟩
    rw [if_neg fun hcond => h hcond.2]
    exact fmtSatoshiIn_plain _ _ _ _ _

/-! ## Signed amounts -/

/-- A magnitude and a sign are turned back into the value of the `i64`, the minimum included. -/
theorem SignedAmount.fromStrIn_text (a : SignedAmount) (hp : p.getD 0 ≤ (-d.precision).toNat) :
    SignedAmount.fromStrIn (signed a.isNegative (normalize a.unsignedAbs d p).text) d = .ok a := by
  have hlow := a.sat.le_toInt
  have hhigh := a.sat.toInt_lt
  have habs : a.unsignedAbs = a.sat.toInt.natAbs := rfl
  rw [SignedAmount.fromStrIn, parseSignedToSatoshi_text hp (by omega)]
  by_cases hneg : a.sat.toInt < 0
  · have htrue : a.isNegative = true := decide_eq_true hneg
    rw [htrue]
    show (if a.unsignedAbs = 2 ^ 63 then _ else _ : Outcome ParseAmountError SignedAmount) = _
    by_cases hmin : a.unsignedAbs = 2 ^ 63
    · rw [if_pos hmin]
      have hsat : Int64.minValue = a.sat := by
        apply Int64.toInt.inj
        rw [Int64.toInt_minValue]
        omega
      show Outcome.ok (⟨Int64.minValue⟩ : SignedAmount) = _
      rw [hsat]
    · rw [if_neg hmin, if_neg (by omega)]
      have hsat : -Int64.ofNat a.unsignedAbs = a.sat := by
        apply Int64.toInt.inj
        rw [Int64.toInt_neg_ofNat_of_le (by omega)]
        omega
      show Outcome.ok (⟨-Int64.ofNat a.unsignedAbs⟩ : SignedAmount) = _
      rw [hsat]
  · have hfalse : a.isNegative = false := decide_eq_false hneg
    rw [hfalse]
    show (if 2 ^ 63 - 1 < a.unsignedAbs then _ else _ : Outcome ParseAmountError SignedAmount) = _
    rw [if_neg (by omega)]
    have hsat : Int64.ofNat a.unsignedAbs = a.sat := by
      apply Int64.toInt.inj
      rw [Int64.toInt_ofNat_of_lt (by omega)]
      omega
    show Outcome.ok (⟨Int64.ofNat a.unsignedAbs⟩ : SignedAmount) = _
    rw [hsat]

theorem SignedAmount.toStringIn_eq (a : SignedAmount) (d : Denomination) :
    a.toStringIn d = signed a.isNegative (normalize a.unsignedAbs d none).text := by
  rw [SignedAmount.toStringIn, fmtSatoshiIn_plain]
  exact List.append_nil _

theorem SignedAmount.fromStrWithDenomination_toString (isAlphabetic : Char → Bool) (a : SignedAmount)
    (d : Denomination) :
    SignedAmount.fromStrWithDenomination isAlphabetic (a.toStringWithDenomination d) = .ok a := by
  rw [SignedAmount.toStringWithDenomination, SignedAmount.toStringIn_eq,
    SignedAmount.fromStrWithDenomination, splitAmountAndDenomination_text, Outcome.ok_bind]
  show (SignedAmount.fromStrIn _ d).mapErr _ = _
  rw [SignedAmount.fromStrIn_text a (Nat.zero_le _)]
  rfl

/-- Every amount, signed or not, is read back from its number in any denomination, from the number
with the denomination behind it, and from its plain `Display` text. -/
theorem amounts_round_trip (isAlphabetic : Char → Bool) (a : Amount) (b : SignedAmount)
    (d : Denomination) :
    (Amount.fromStrIn (a.toStringIn d) d = .ok a ∧
      Amount.fromStrWithDenomination isAlphabetic (a.toStringWithDenomination d) = .ok a ∧
      Amount.fromStrWithDenomination isAlphabetic (a.fmt {}) = .ok a) ∧
    (SignedAmount.fromStrIn (b.toStringIn d) d = .ok b ∧
      SignedAmount.fromStrWithDenomination isAlphabetic (b.toStringWithDenomination d) = .ok b ∧
      SignedAmount.fromStrWithDenomination isAlphabetic b.fmt = .ok b) := by
  refine ⟨⟨?_, ?_, ?_⟩, ?_, ?_, ?_⟩
  · rw [Amount.toStringIn_eq]
    exact Amount.fromStrIn_text a (Nat.zero_le _)
  · rw [Amount.toStringWithDenomination, Amount.toStringIn_eq]
    exact Amount.fromStrWithDenomination_text isAlphabetic a (Nat.zero_le _)
  · obtain ⟨p, hp, htext⟩ := a.fmt_eq
    rw [htext]
    exact Amount.fromStrWithDenomination_text isAlphabetic a hp
  · rw [SignedAmount.toStringIn_eq]
    exact SignedAmount.fromStrIn_text b (Nat.zero_le _)
  · exact SignedAmount.fromStrWithDenomination_toString isAlphabetic b d
  · exact SignedAmount.fromStrWithDenomination_toString isAlphabetic b .bitcoin

/-- The minimum of `i64` in the finest denomination. -/
example : (⟨-9223372036854775808⟩ : SignedAmount).toStringIn .picoBitcoin =
    "-92233720368547758080000".toList := by decide +kernel

/-- The plain text of one and a half bitcoins has all eight decimals. -/
example : (⟨150000000⟩ : Amount).fmt {} = "1.50000000 BTC".toList := by decide +kernel

end RustDogecoin.Units
