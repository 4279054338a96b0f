import RustDogecoin.Units.Amount
import Mathlib.Data.List.Basic

/-!
# What the amount parser accepts

The loop of `parse_signed_to_satoshi` reads digits with at most one dot between them and computes
their value, which is shown in both directions: what it does on such a string, and what a string is
like that it returned on.  The slices that a denomination finer than a satoshi takes never miss a
character boundary.
-/

namespace RustDogecoin.Units

/-- Every character is a digit. -/
def Digits (s : Str) : Prop := ∀ c ∈ s, c.isDigit = true

theorem Digits.append {a b : Str} (ha : Digits a) (hb : Digits b) : Digits (a ++ b) := by
  intro c hc
  rcases List.mem_append.mp hc with h | h
  · exact ha c h
  · exact hb c h

theorem Digits.cons {c : Char} {s : Str} (hc : c.isDigit = true) (hs : Digits s) :
    Digits (c :: s) := by
  intro d hd
  rcases List.mem_cons.mp hd with rfl | hd
  · exact hc
  · exact hs d hd

theorem digits_of_zeros {s : Str} (h : ∀ c ∈ s, c = '0') : Digits s := by
  intro c hc
  rw [h c hc]
  decide

theorem digits_zeros (n : ℕ) : Digits (List.replicate n '0') :=
  digits_of_zeros fun _ hc => List.eq_of_mem_replicate hc

/-- The number that a string of digits denotes behind the number `v`. -/
abbrev valueFrom (v : ℕ) (s : Str) : ℕ := Nat.ofDigitChars 10 s v

theorem valueFrom_cons (v : ℕ) (c : Char) (s : Str) :
    valueFrom v (c :: s) = valueFrom (10 * v + Str.digitVal c) s := Nat.ofDigitChars_cons

theorem le_valueFrom (v : ℕ) (s : Str) : v ≤ valueFrom v s := by
  rw [valueFrom, Nat.ofDigitChars_eq_ofDigitChars_zero]
  exact Nat.le_add_right_of_le (Nat.le_mul_of_pos_left v (Nat.pow_pos (by decide)))

theorem valueFrom_zeros {s : Str} (h : ∀ c ∈ s, c = '0') (v : ℕ) :
    valueFrom v s = 10 ^ s.length * v := by
  rw [List.eq_replicate_of_mem h, valueFrom, Nat.ofDigitChars_replicate_zero, List.length_replicate]

/-! ## The loops -/

variable {neg : Bool} {k : ℕ}

theorem checkedU64_of {x : ℕ} (h : x < 2 ^ 64) : checkedU64 neg x = .ok x := by
  rw [checkedU64, Outcome.ensure_of h]
  rfl

theorem checkedU64_eq_ok_iff {x y : ℕ} : checkedU64 neg x = .ok y ↔ x < 2 ^ 64 ∧ x = y := by
  rw [checkedU64, Outcome.ensure_bind_eq_ok_iff, Outcome.ok.injEq]

theorem noPanic_checkedU64 (x : ℕ) : (checkedU64 neg x).NoPanic :=
  (Outcome.noPanic_ensure _).bind fun _ _ => Outcome.noPanic_ok _

theorem noPanic_countDecimal (i : ℕ) (decimals : Option ℕ) :
    (countDecimal neg k i decimals).NoPanic := by
  cases decimals with
  | none => exact Outcome.noPanic_ok _
  | some d =>
    show (if d < k then _ else _ : Outcome InnerParseError (Option ℕ)).NoPanic
    by_cases h : d < k
    · rw [if_pos h]
      exact Outcome.noPanic_ok _
    · rw [if_neg h]
      exact Outcome.noPanic_err _

theorem noPanic_parseLoop (l : List (ℕ × Char)) (decimals : Option ℕ) (value : ℕ) :
    (parseLoop neg k l decimals value).NoPanic := by
  induction l generalizing decimals value with
  | nil => exact Outcome.noPanic_ok _
  | cons x l ih =>
    obtain ⟨i, c⟩ := x
    unfold parseLoop
    by_cases hc : c.isDigit
    · rw [if_pos hc]
      apply (noPanic_checkedU64 _).bind
      intro val _
      apply (noPanic_checkedU64 _).bind
      intro value _
      exact (noPanic_countDecimal i decimals).bind fun decimals _ => ih decimals value
    · rw [if_neg hc]
      by_cases hdot : c = '.'
      · rw [if_pos hdot]
        cases decimals with
        | none =>
          dsimp only
          split_ifs
          · exact Outcome.noPanic_ok _
          · exact ih _ _
        | some d => exact Outcome.noPanic_err _
      · rw [if_neg hdot]
        exact Outcome.noPanic_err _

theorem noPanic_scaleLoop (n value : ℕ) : (scaleLoop neg n value).NoPanic := by
  induction n generalizing value with
  | zero => exact Outcome.noPanic_ok _
  | succ n ih => exact (noPanic_checkedU64 _).bind fun value _ => ih value

theorem noPanic_parseDigits (s : Str) : (parseDigits neg k s).NoPanic := by
  apply (noPanic_parseLoop _ _ _).bind
  intro x _
  exact (noPanic_scaleLoop _ _).bind fun value _ => Outcome.noPanic_ok _

/-- What the loop does on a digit. -/
theorem parseLoop_digit {c : Char} (hc : c.isDigit = true) (i : ℕ) (l : List (ℕ × Char))
    (decimals : Option ℕ) (value : ℕ) :
    parseLoop neg k ((i, c) :: l) decimals value =
      (checkedU64 neg (10 * value) >>= fun val =>
        checkedU64 neg (val + Str.digitVal c) >>= fun value =>
          countDecimal neg k i decimals >>= fun decimals =>
            parseLoop neg k l decimals value) := by
  cases decimals <;> rw [parseLoop, if_pos hc]

/-- A digit that the loop passed fits, and is counted if it stands behind the dot. -/
theorem exists_of_parseLoop_digit {c : Char} (hc : c.isDigit = true) {i value : ℕ}
    {l : List (ℕ × Char)} {decimals : Option ℕ} {r : Option ℕ × ℕ}
    (h : parseLoop neg k ((i, c) :: l) decimals value = .ok r) :
    10 * value + Str.digitVal c < 2 ^ 64 ∧
      ∃ decimals', countDecimal neg k i decimals = .ok decimals' ∧
        parseLoop neg k l decimals' (10 * value + Str.digitVal c) = .ok r := by
  rw [parseLoop_digit hc] at h
  obtain ⟨val, hval, h⟩ := Outcome.bind_eq_ok_iff.mp h
  obtain ⟨value', hvalue, h⟩ := Outcome.bind_eq_ok_iff.mp h
  obtain ⟨decimals', hdecimals, h⟩ := Outcome.bind_eq_ok_iff.mp h
  obtain ⟨-, rfl⟩ := checkedU64_eq_ok_iff.mp hval
  obtain ⟨hfit, rfl⟩ := checkedU64_eq_ok_iff.mp hvalue
  exact ⟨hfit, decimals', hdecimals, h⟩

/-- The only other character that the loop passes is the first dot. -/
theorem dot_of_parseLoop {c : Char} (hc : ¬ c.isDigit = true) {i value : ℕ} {l : List (ℕ × Char)}
    {decimals : Option ℕ} {r : Option ℕ × ℕ}
    (h : parseLoop neg k ((i, c) :: l) decimals value = .ok r) :
    c = '.' ∧ decimals = none ∧
      (k = 0 ∧ r = (none, value) ∨ 0 < k ∧ parseLoop neg k l (some 0) value = .ok r) := by
  by_cases hdot : c = '.'
  · cases decimals with
    | some d =>
      rw [parseLoop, if_neg hc, if_pos hdot] at h
      cases h
    | none =>
      rw [parseLoop, if_neg hc, if_pos hdot] at h
      refine ⟨hdot, rfl, ?_⟩
      by_cases hk : k ≤ 0
      · rw [if_pos hk] at h
        exact .inl ⟨Nat.le_zero.mp hk, (Outcome.ok.inj h).symm⟩
      · rw [if_neg hk] at h
        exact .inr ⟨Nat.lt_of_not_le hk, h⟩
  · cases decimals <;>
    · rw [parseLoop, if_neg hc, if_neg hdot] at h
      cases h

/-- The digits counted behind a run of `n` more. -/
def countDigits (n : ℕ) : Option ℕ → Option ℕ
  | none => none
  | some d => some (d + n)

/-- The loop runs over digits as long as their value fits and the decimals are not exceeded. -/
theorem parseLoop_digits (neg : Bool) {s : Str} (hs : Digits s) (rest : Str) (i : ℕ) (decimals : Option ℕ)
    (value : ℕ) (hfit : valueFrom value s < 2 ^ 64)
    (hroom : ∀ d, decimals = some d → d + s.length ≤ k) :
    parseLoop neg k (Str.charIndices i (s ++ rest)) decimals value =
      parseLoop neg k (Str.charIndices (i + s.len) rest) (countDigits s.length decimals)
        (valueFrom value s) := by
  induction s generalizing i decimals value with
  | nil => cases decimals <;> rfl
  | cons c s ih =>
    have hc : c.isDigit = true := hs c List.mem_cons_self
    rw [valueFrom_cons] at hfit
    have hle := le_valueFrom (10 * value + Str.digitVal c) s
    have hcount : countDecimal neg k i decimals = .ok (countDigits 1 decimals) := by
      cases decimals with
      | none => rfl
      | some d =>
        have := hroom d rfl
        rw [List.length_cons] at this
        exact if_pos (by omega)
    have hnext : ∀ d, countDigits 1 decimals = some d → d + s.length ≤ k := by
      intro d hd
      cases decimals with
      | none => cases hd
      | some d₀ =>
        obtain rfl : d₀ + 1 = d := Option.some.inj hd
        have := hroom d₀ rfl
        rw [List.length_cons] at this
        omega
    have hdecimals : countDigits s.length (countDigits 1 decimals) =
        countDigits (c :: s).length decimals := by
      cases decimals with
      | none => rfl
      | some d => exact congrArg some (by rw [List.length_cons]; omega)
    rw [List.cons_append, Str.charIndices, parseLoop_digit hc, checkedU64_of (by omega),
      Outcome.ok_bind, checkedU64_of (by omega), Outcome.ok_bind, hcount, Outcome.ok_bind,
      ih (fun d hd => hs d (List.mem_cons_of_mem _ hd)) _ _ _ hfit hnext, hdecimals, valueFrom_cons,
      Str.len, Nat.add_assoc]

/-- Behind the dot the loop only returns on digits, no more of them than there are decimals. -/
theorem parseLoop_behind_dot {s : Str} {i d value : ℕ} {decimals : Option ℕ} {v : ℕ} (hd : d ≤ k)
    (h : parseLoop neg k (Str.charIndices i s) (some d) value = .ok (decimals, v)) :
    Digits s ∧ decimals = some (d + s.length) ∧ d + s.length ≤ k ∧ v = valueFrom value s := by
  induction s generalizing i d value with
  | nil =>
    obtain ⟨rfl, rfl⟩ := Prod.mk.inj (Outcome.ok.inj h)
    exact ⟨fun c hc => absurd hc List.not_mem_nil, rfl, hd, rfl⟩
  | cons c s ih =>
    rw [Str.charIndices] at h
    by_cases hc : c.isDigit
    · obtain ⟨-, decimals', hdecimals, h⟩ := exists_of_parseLoop_digit hc h
      change (if d < k then _ else _) = _ at hdecimals
      by_cases hroom : d < k
      · rw [if_pos hroom] at hdecimals
        obtain rfl := Outcome.ok.inj hdecimals
        obtain ⟨hs, hcount, hle, hv⟩ := ih hroom h
        rw [List.length_cons]
        refine ⟨Digits.cons hc hs, ?_, by omega, ?_⟩
        · rw [hcount]
          exact congrArg some (by omega)
        · rw [hv, valueFrom_cons]
      · rw [if_neg hroom] at hdecimals
        cases hdecimals
    · obtain ⟨-, hnone, -⟩ := dot_of_parseLoop hc h
      cases hnone

/-- The strings that the loop returns on: digits, with a dot between them if decimals are allowed. -/
theorem parseLoop_eq_ok {s : Str} (hdot : k = 0 → '.' ∉ s) {i value : ℕ} {decimals : Option ℕ} {v : ℕ}
    (h : parseLoop neg k (Str.charIndices i s) none value = .ok (decimals, v)) :
    (Digits s ∧ decimals = none ∧ v = valueFrom value s) ∨
      ∃ ip fp, s = ip ++ '.' :: fp ∧ Digits ip ∧ Digits fp ∧ decimals = some fp.length ∧
        fp.length ≤ k ∧ v = valueFrom value (ip ++ fp) := by
  induction s generalizing i value with
  | nil =>
    obtain ⟨rfl, rfl⟩ := Prod.mk.inj (Outcome.ok.inj h)
    exact .inl ⟨fun c hc => absurd hc List.not_mem_nil, rfl, rfl⟩
  | cons c s ih =>
    rw [Str.charIndices] at h
    by_cases hc : c.isDigit
    · obtain ⟨-, decimals', hdecimals, h⟩ := exists_of_parseLoop_digit hc h
      obtain rfl := Outcome.ok.inj hdecimals
      have hrest := ih (fun hk hmem => hdot hk (List.mem_cons_of_mem _ hmem)) h
      rcases hrest with ⟨hs, hnone, hv⟩ | ⟨ip, fp, rfl, hip, hfp, hsome, hle, hv⟩
      · exact .inl ⟨Digits.cons hc hs, hnone, by rw [hv, valueFrom_cons]⟩
      · refine .inr ⟨c :: ip, fp, rfl, Digits.cons hc hip, hfp, hsome, hle, ?_⟩
        rw [hv, List.cons_append, valueFrom_cons]
    · obtain ⟨rfl, -, ⟨hk, -⟩ | ⟨-, h⟩⟩ := dot_of_parseLoop hc h
      · exact absurd List.mem_cons_self (hdot hk)
      · obtain ⟨hs, hcount, hle, hv⟩ := parseLoop_behind_dot (Nat.zero_le k) h
        rw [Nat.zero_add] at hcount hle
        exact .inr ⟨[], s, rfl, fun c hc => absurd hc List.not_mem_nil, hs, hcount, hle, hv⟩

theorem scaleLoop_of {n value : ℕ} (h : value * 10 ^ n < 2 ^ 64) :
    scaleLoop neg n value = .ok (value * 10 ^ n) := by
  induction n generalizing value with
  | zero => rw [scaleLoop, Nat.pow_zero, Nat.mul_one]
  | succ n ih =>
    have hsplit : value * 10 ^ (n + 1) = 10 * value * 10 ^ n := by
      rw [Nat.pow_succ]
      ac_rfl
    rw [hsplit] at h ⊢
    have hle : 10 * value ≤ 10 * value * 10 ^ n :=
      Nat.le_mul_of_pos_right _ (Nat.pow_pos (by decide))
    rw [scaleLoop, checkedU64_of (by omega), Outcome.ok_bind, ih h]

theorem scaleLoop_eq_ok {n value v : ℕ} (h : scaleLoop neg n value = .ok v) :
    v = value * 10 ^ n := by
  induction n generalizing value with
  | zero =>
    obtain rfl := Outcome.ok.inj h
    rw [Nat.pow_zero, Nat.mul_one]
  | succ n ih =>
    rw [scaleLoop] at h
    obtain ⟨value', hvalue, h⟩ := Outcome.bind_eq_ok_iff.mp h
    obtain ⟨-, rfl⟩ := checkedU64_eq_ok_iff.mp hvalue
    rw [ih h, Nat.pow_succ]
    ac_rfl

theorem parseLoop_lt {l : List (ℕ × Char)} {decimals ds : Option ℕ} {value v : ℕ}
    (hvalue : value < 2 ^ 64) (h : parseLoop neg k l decimals value = .ok (ds, v)) : v < 2 ^ 64 := by
  induction l generalizing decimals value with
  | nil =>
    obtain ⟨-, rfl⟩ := Prod.mk.inj (Outcome.ok.inj h)
    exact hvalue
  | cons x l ih =>
    obtain ⟨i, c⟩ := x
    by_cases hc : c.isDigit
    · obtain ⟨hfit, decimals', -, h⟩ := exists_of_parseLoop_digit hc h
      exact ih hfit h
    · obtain ⟨-, -, ⟨-, hr⟩ | ⟨-, h⟩⟩ := dot_of_parseLoop hc h
      · obtain ⟨-, rfl⟩ := Prod.mk.inj hr
        exact hvalue
      · exact ih hvalue h

theorem scaleLoop_lt {n value v : ℕ} (hvalue : value < 2 ^ 64)
    (h : scaleLoop neg n value = .ok v) : v < 2 ^ 64 := by
  induction n generalizing value with
  | zero =>
    obtain rfl := Outcome.ok.inj h
    exact hvalue
  | succ n ih =>
    rw [scaleLoop] at h
    obtain ⟨value', hvalue', h⟩ := Outcome.bind_eq_ok_iff.mp h
    obtain ⟨hfit, rfl⟩ := checkedU64_eq_ok_iff.mp hvalue'
    exact ih hfit h

/-! ## Denominations finer than a satoshi -/

section

variable {ε : Type}

theorem len_zeros (n : ℕ) : Str.len (List.replicate n '0') = n := by
  induction n with
  | zero => rfl
  | succ n ih =>
    rw [List.replicate_succ, Str.len, ih]
    exact Nat.add_comm 1 n

theorem findNonZeroFromEnd_eq_none_iff {s : Str} {n : ℕ} :
    findNonZeroFromEnd s n = none ↔ ∀ c ∈ s.reverse.take n, c = '0' := by
  have hchars : s.reverse.take n = ((Str.charIndices 0 s).reverse.take n).map Prod.snd := by
    rw [List.map_take, List.map_reverse, Str.map_snd_charIndices]
  rw [findNonZeroFromEnd, Option.map_eq_none_iff, List.find?_eq_none, hchars, List.forall_mem_map]
  simp

/-- If the last characters are zeros and the string is longer, it is split before them. -/
theorem exists_of_findNonZeroFromEnd {s : Str} {n : ℕ} (hlen : n < s.len)
    (h : findNonZeroFromEnd s n = none) : ∃ a, a ≠ [] ∧ s = a ++ List.replicate n '0' := by
  have hzeros := findNonZeroFromEnd_eq_none_iff.mp h
  have hlong : n < s.length := by
    by_contra hshort
    rw [List.take_of_length_le (by rw [List.length_reverse]; omega)] at hzeros
    have hall : s = List.replicate s.length '0' :=
      List.eq_replicate_of_mem fun c hc => hzeros c (List.mem_reverse.mpr hc)
    rw [hall, len_zeros] at hlen
    exact hshort hlen
  have htake : s.reverse.take n = List.replicate n '0' := by
    apply List.eq_replicate_iff.mpr
    exact ⟨by rw [List.length_take, List.length_reverse]; omega, hzeros⟩
  refine ⟨(s.reverse.drop n).reverse, ?_, ?_⟩
  · rw [ne_eq, List.reverse_eq_nil_iff, List.drop_eq_nil_iff, List.length_reverse]
    omega
  · calc s = (s.reverse.take n ++ s.reverse.drop n).reverse := by
          rw [List.take_append_drop, List.reverse_reverse]
      _ = (s.reverse.drop n).reverse ++ List.replicate n '0' := by
          rw [List.reverse_append, htake, List.reverse_replicate]

theorem findNonZeroFromEnd_zeros (a : Str) (n : ℕ) :
    findNonZeroFromEnd (a ++ List.replicate n '0') n = none := by
  apply findNonZeroFromEnd_eq_none_iff.mpr
  intro c hc
  rw [List.reverse_append, List.reverse_replicate,
    List.take_left' List.length_replicate] at hc
  exact List.eq_of_mem_replicate hc

theorem find_dot_eq_none {s : Str} (h : '.' ∉ s) : s.find (· == '.') = none := by
  apply Str.find_eq_none_iff.mpr
  rintro c hc hdot
  rw [beq_iff_eq] at hdot
  exact h (hdot ▸ hc)

theorem find_dot {a : Str} (h : '.' ∉ a) (b : Str) : (a ++ '.' :: b).find (· == '.') = some a.len := by
  apply Str.find_append
  · rintro c hc hdot
    rw [beq_iff_eq] at hdot
    exact h (hdot ▸ hc)
  · decide

theorem isTooPrecise_noDot {s : Str} (h : '.' ∉ s) (n : ℕ) :
    (isTooPrecise s n : Outcome ε (Option ℕ)) =
      .ok (if s.len ≤ n then some 0 else findNonZeroFromEnd s n) := by
  rw [isTooPrecise, find_dot_eq_none h]
  dsimp only
  by_cases hlen : s.len ≤ n
  · rw [if_pos hlen, if_pos hlen]
    rfl
  · rw [if_neg hlen, if_neg hlen]
    rfl

theorem isTooPrecise_dot {a : Str} (h : '.' ∉ a) (b : Str) (n : ℕ) :
    (isTooPrecise (a ++ '.' :: b) n : Outcome ε (Option ℕ)) =
      .ok (if a.len ≤ n then some 0
        else (findNonZeroFromEnd a n).or ((b.find (· != '0')).map fun i => i + a.len + 1)) := by
  have hbehind : (Str.sliceFrom (a ++ '.' :: b) (a.len + 1) : Outcome ε Str) = .ok b := by
    have hslice := Str.sliceFrom_append (ε := ε) (a ++ ['.']) b
    rw [Str.len_append, List.append_assoc] at hslice
    exact hslice
  rw [isTooPrecise, find_dot h]
  dsimp only
  by_cases hlen : a.len ≤ n
  · rw [if_pos hlen, if_pos hlen]
    rfl
  · rw [if_neg hlen, if_neg hlen, Str.sliceTo_append, Outcome.ok_bind]
    cases hfind : findNonZeroFromEnd a n with
    | some i => rfl
    | none =>
      dsimp only
      rw [hbehind]
      rfl

/-- A string is split at its first dot. -/
theorem noDot_or_dot (s : Str) : '.' ∉ s ∨ ∃ a b, '.' ∉ a ∧ s = a ++ '.' :: b := by
  by_cases h : '.' ∈ s
  · obtain ⟨a, b, hs, ha⟩ := List.eq_append_cons_of_mem h
    exact .inr ⟨a, b, ha, hs⟩
  · exact .inl h

theorem isTooPrecise_ok (s : Str) (n : ℕ) :
    ∃ position, (isTooPrecise s n : Outcome ε (Option ℕ)) = .ok position := by
  rcases noDot_or_dot s with h | ⟨a, b, ha, rfl⟩
  · exact ⟨_, isTooPrecise_noDot h n⟩
  · exact ⟨_, isTooPrecise_dot ha b n⟩

/-- Behind the digits `a` of the satoshis the string has zeros only: `n` of them before the dot and
any number behind it. -/
def EndsInZeros (n : ℕ) (a s : Str) : Prop :=
  a ≠ [] ∧ '.' ∉ a ∧ (s = a ++ List.replicate n '0' ∨
    ∃ z, (∀ c ∈ z, c = '0') ∧ s = a ++ List.replicate n '0' ++ '.' :: z)

theorem dot_notMem_zeros {a : Str} (ha : '.' ∉ a) (n : ℕ) : '.' ∉ a ++ List.replicate n '0' := by
  intro h
  rcases List.mem_append.mp h with h | h
  · exact ha h
  · exact absurd (List.eq_of_mem_replicate h) (by decide)

theorem not_len_append_zeros_le {a : Str} (ha : a ≠ []) (n : ℕ) :
    ¬ Str.len (a ++ List.replicate n '0') ≤ n := by
  have hpos : a.len ≠ 0 := fun h => ha (Str.len_eq_zero_iff.mp h)
  rw [Str.len_append, len_zeros]
  omega

theorem EndsInZeros.lt_len {s a : Str} {n : ℕ} (h : EndsInZeros n a s) : n < s.len := by
  obtain ⟨hne, -, rfl | ⟨z, -, rfl⟩⟩ := h
  · exact Nat.lt_of_not_le (not_len_append_zeros_le hne n)
  · have hlt := Nat.lt_of_not_le (not_len_append_zeros_le hne n)
    rw [Str.len_append]
    omega

theorem isTooPrecise_eq_none_iff {s : Str} {n : ℕ} :
    (isTooPrecise s n : Outcome ε (Option ℕ)) = .ok none ↔ ∃ a, EndsInZeros n a s := by
  constructor
  · intro h
    rcases noDot_or_dot s with hs | ⟨b, z, hb, rfl⟩
    · rw [isTooPrecise_noDot hs, Outcome.ok.injEq] at h
      by_cases hlen : s.len ≤ n
      · rw [if_pos hlen] at h
        cases h
      · rw [if_neg hlen] at h
        obtain ⟨a, ha, rfl⟩ := exists_of_findNonZeroFromEnd (Nat.lt_of_not_le hlen) h
        exact ⟨a, ha, fun hdot => hs (List.mem_append_left _ hdot), .inl rfl⟩
    · rw [isTooPrecise_dot hb, Outcome.ok.injEq] at h
      by_cases hlen : b.len ≤ n
      · rw [if_pos hlen] at h
        cases h
      · rw [if_neg hlen, Option.or_eq_none_iff, Option.map_eq_none_iff, Str.find_eq_none_iff] at h
        obtain ⟨a, ha, rfl⟩ := exists_of_findNonZeroFromEnd (Nat.lt_of_not_le hlen) h.1
        refine ⟨a, ha, fun hdot => hb (List.mem_append_left _ hdot), .inr ⟨z, fun c hc => ?_, rfl⟩⟩
        simpa using h.2 c hc
  · rintro ⟨a, hne, ha, rfl | ⟨z, hz, rfl⟩⟩
    · rw [isTooPrecise_noDot (dot_notMem_zeros ha n), if_neg (not_len_append_zeros_le hne n),
        findNonZeroFromEnd_zeros]
    · have hbehind : Str.find (· != '0') z = none :=
        Str.find_eq_none_iff.mpr fun c hc => by simp [hz c hc]
      rw [isTooPrecise_dot (dot_notMem_zeros ha n), if_neg (not_len_append_zeros_le hne n),
        findNonZeroFromEnd_zeros, hbehind]
      rfl

end

/-! ## The sign and the denomination -/

variable {d : Denomination} {s : Str}

theorem precision_le (d : Denomination) : d.precision ≤ 4 := by
  cases d <;> decide

theorem parseMagnitude_coarse (hd : d.precision < 0) (neg : Bool) (s : Str) :
    parseMagnitude neg s d = parseDigits neg (-d.precision).toNat s := by
  rw [parseMagnitude]
  exact if_neg (by omega)

/-- The last digits of a text for a fine denomination are dropped, when they are zeros. -/
theorem parseMagnitude_of_endsInZeros (hd : 0 ≤ d.precision) {a : Str}
    (h : EndsInZeros d.precision.toNat a s) (neg : Bool) :
    parseMagnitude neg s d = parseDigits neg 0 a := by
  have hn : (-d.precision).natAbs = d.precision.toNat := by omega
  have hprecise := (isTooPrecise_eq_none_iff (ε := InnerParseError)).mpr ⟨a, h⟩
  obtain ⟨hne, ha, htext⟩ := h
  have hstop : (s.find (· == '.')).getD s.len = a.len + d.precision.toNat := by
    rcases htext with rfl | ⟨z, -, rfl⟩
    · rw [find_dot_eq_none (dot_notMem_zeros ha _), Option.getD_none, Str.len_append, len_zeros]
    · rw [find_dot (dot_notMem_zeros ha _), Option.getD_some, Str.len_append, len_zeros]
  have hslice : (s.sliceTo a.len : Outcome InnerParseError Str) = .ok a := by
    rcases htext with rfl | ⟨z, -, rfl⟩
    · exact Str.sliceTo_append a _
    · rw [List.append_assoc]
      exact Str.sliceTo_append a _
  rw [parseMagnitude]
  dsimp only
  rw [if_pos (by omega : -d.precision ≤ 0), hn, hprecise, Outcome.ok_bind]
  dsimp only
  rw [hstop, Outcome.require_of (Nat.le_add_left _ _), Outcome.ok_bind, Nat.add_sub_cancel, hslice]
  rfl

/-- Any other text for a fine denomination must be one of zero. -/
theorem parseMagnitude_of_tooPrecise (hd : 0 ≤ d.precision)
    (h : ¬ ∃ a, EndsInZeros d.precision.toNat a s) (neg : Bool) :
    ∃ e, parseMagnitude neg s d = if s.parseI64 = some 0 then .ok (neg, 0) else .err e := by
  have hn : (-d.precision).natAbs = d.precision.toNat := by omega
  obtain ⟨position, hposition⟩ := isTooPrecise_ok (ε := InnerParseError) s d.precision.toNat
  cases position with
  | none => exact absurd (isTooPrecise_eq_none_iff.mp hposition) h
  | some position =>
    refine ⟨.tooPrecise (position + neg.toNat), ?_⟩
    rw [parseMagnitude]
    dsimp only
    rw [if_pos (by omega : -d.precision ≤ 0), hn, hposition]
    rfl

theorem noPanic_parseMagnitude (neg : Bool) (s : Str) (d : Denomination) :
    (parseMagnitude neg s d).NoPanic := by
  by_cases hd : d.precision < 0
  · rw [parseMagnitude_coarse hd]
    exact noPanic_parseDigits s
  · have hfine : 0 ≤ d.precision := Int.not_lt.mp hd
    by_cases h : ∃ a, EndsInZeros d.precision.toNat a s
    · obtain ⟨a, ha⟩ := h
      rw [parseMagnitude_of_endsInZeros hfine ha]
      exact noPanic_parseDigits a
    · obtain ⟨e, he⟩ := parseMagnitude_of_tooPrecise hfine h neg
      rw [he]
      by_cases hzero : s.parseI64 = some 0
      · rw [if_pos hzero]
        exact Outcome.noPanic_ok _
      · rw [if_neg hzero]
        exact Outcome.noPanic_err e

/-- The text behind one minus sign. -/
def unsigned (s : Str) : Str := if s.head? = some '-' then s.tail else s

/-- A text with a minus sign, or without one. -/
def signed (neg : Bool) (s : Str) : Str := if neg then '-' :: s else s

theorem signed_unsigned (s : Str) : signed (s.head? == some '-') (unsigned s) = s := by
  by_cases h : s.head? = some '-'
  · rw [unsigned, if_pos h, h]
    exact (List.eq_cons_of_mem_head? h).symm
  · rw [unsigned, if_neg h, signed, if_neg (by simpa using h)]

theorem unsigned_signed (neg : Bool) (h : s.head? ≠ some '-') :
    unsigned (signed neg s) = s ∧ ((signed neg s).head? == some '-') = neg := by
  cases neg with
  | true => exact ⟨rfl, rfl⟩
  | false =>
    refine ⟨if_neg h, ?_⟩
    rw [signed, if_neg (by decide)]
    exact beq_eq_false_iff_ne.mpr h

theorem len_le_unsigned (s : Str) : s.len ≤ (unsigned s).len + 1 := by
  rw [unsigned]
  by_cases h : s.head? = some '-'
  · rw [if_pos h]
    obtain ⟨rest, rfl⟩ : ∃ rest, s = '-' :: rest := ⟨s.tail, List.eq_cons_of_mem_head? h⟩
    exact Nat.le_of_eq (Nat.add_comm 1 _)
  · rw [if_neg h]
    exact Nat.le_add_right _ 1

/-- A text that is not too long is parsed behind its sign. -/
theorem parseSignedToSatoshi_eq (hlen : s.len ≤ INPUT_STRING_LEN_LIMIT) (hs : unsigned s ≠ [])
    (d : Denomination) :
    parseSignedToSatoshi s d = parseMagnitude (s.head? == some '-') (unsigned s) d := by
  have hne : s ≠ [] := by
    rintro rfl
    exact hs rfl
  rw [parseSignedToSatoshi, if_neg hne, if_neg (by omega)]
  by_cases h : s.head? = some '-'
  · obtain ⟨rest, rfl⟩ : ∃ rest, s = '-' :: rest := ⟨s.tail, List.eq_cons_of_mem_head? h⟩
    have hrest : Str.len rest ≠ 0 := fun h0 => hs (Str.len_eq_zero_iff.mp h0)
    have hone : ¬ Str.len ('-' :: rest) = 1 := by
      show ¬ 1 + Str.len rest = 1
      omega
    have hslice : (Str.sliceFrom ('-' :: rest) 1 : Outcome InnerParseError Str) = .ok rest :=
      Str.sliceFrom_append ['-'] rest
    rw [if_pos h, if_neg hone, hslice]
    rfl
  · rw [if_neg h, unsigned, if_neg h, beq_eq_false_iff_ne.mpr h]

theorem parseSignedToSatoshi_err
    (h : ¬ (s.len ≤ INPUT_STRING_LEN_LIMIT ∧ unsigned s ≠ [])) (d : Denomination) :
    ∃ e, parseSignedToSatoshi s d = .err e := by
  by_cases hne : s = []
  · exact ⟨_, by rw [parseSignedToSatoshi, if_pos hne]⟩
  · by_cases hlen : INPUT_STRING_LEN_LIMIT < s.len
    · exact ⟨_, by rw [parseSignedToSatoshi, if_neg hne, if_pos hlen]⟩
    · have hrest : unsigned s = [] := by
        by_contra hrest
        exact h ⟨Nat.not_lt.mp hlen, hrest⟩
      have hminus : s = ['-'] := by
        by_cases hhead : s.head? = some '-'
        · rw [unsigned, if_pos hhead] at hrest
          rw [List.eq_cons_of_mem_head? hhead, hrest]
        · rw [unsigned, if_neg hhead] at hrest
          exact absurd hrest hne
      rw [hminus]
      exact ⟨.missingDigits .onlyMinusSign, rfl⟩

theorem noPanic_parseSignedToSatoshi (s : Str) (d : Denomination) :
    (parseSignedToSatoshi s d).NoPanic := by
  by_cases h : s.len ≤ INPUT_STRING_LEN_LIMIT ∧ unsigned s ≠ []
  · rw [parseSignedToSatoshi_eq h.1 h.2]
    exact noPanic_parseMagnitude _ _ _
  · obtain ⟨e, he⟩ := parseSignedToSatoshi_err h d
    rw [he]
    exact Outcome.noPanic_err e

end RustDogecoin.Units
