import RustDogecoin.Consensus.Encode
import RustDogecoin.Pow.Work
import RustDogecoin.Units.IntParse

/-!
# Decimal numbers of 256 bits

`U256::fmt_decimal` fills a buffer of 78 digits from its end, with the remainders of repeated division by ten.  A
number below `10 ^ (i + 1)` has room in the places up to `i`, so the index stops at the first digit of the number and
does not go below zero (`U256.fmtDecimalLoop_eq`).
-/

namespace RustDogecoin

/-- `fmt::Formatter`, with the flag `#` too. -/
structure Formatter extends Units.FormatOptions where
  alternate : Bool := false
  deriving DecidableEq, Repr

/-- `Formatter::pad_integral`: the padding of an integer that has been written without its sign. -/
def Formatter.padIntegral (f : Formatter) (isNonnegative : Bool) (mark buf : Str) : Str :=
  let front := (if !isNonnegative then ['-'] else if f.signPlus then ['+'] else []) ++ if f.alternate then mark else []
  let missing := f.width.getD 0 - (front.length + buf.len)
  if f.signAwareZeroPad then front ++ List.replicate missing '0' ++ buf
  else
    let (pre, post) := match f.align.getD .right with
      | .left => (0, missing)
      | .right => (missing, 0)
      | .center => (missing / 2, (missing + 1) / 2)
    List.replicate pre f.fill ++ front ++ buf ++ List.replicate post f.fill

/-- Without flags and a width nothing is added. -/
theorem Formatter.padIntegral_default (mark buf : Str) : padIntegral {} true mark buf = buf := by
  simp [padIntegral]

namespace U256

def DIGITS : ℕ := 78

def TEN : U256 := ⟨0, 10⟩

/-- One turn of the loop before the index goes down. -/
def fmtDecimalTurn (i : ℕ) (buf : Bytes) (cur : U256) : Outcome Empty (Bytes × U256) := do
  let digit : UInt8 := ⟨(← rem cur TEN).lo.setWidth 8⟩
  .require (digit.toNat + 48 < 2 ^ 8) .overflow
  .require (i < buf.length) .outOfBounds
  let buf := buf.set i (digit + 48)
  let cur ← div cur TEN
  return (buf, cur)

/-- The loop of `fmt_decimal`: the index of the first digit, and the buffer. -/
def fmtDecimalLoop : ℕ → Bytes → U256 → Outcome Empty (ℕ × Bytes)
  | 0, buf, cur => do
    let (buf, cur) ← fmtDecimalTurn 0 buf cur
    -- `i -= 1` below zero
    if isZero cur then return (0, buf) else .panic .overflow
  | i + 1, buf, cur => do
    let (buf, cur) ← fmtDecimalTurn (i + 1) buf cur
    if isZero cur then return (i + 1, buf) else fmtDecimalLoop i buf cur

/-- Format `self` to `f` as a decimal when value is known to be non-zero. -/
def fmtDecimal (x : U256) (f : Formatter) : Outcome Empty Str := do
  let (i, buf) ← fmtDecimalLoop (DIGITS - 1) (List.replicate DIGITS 0) x
  .require (i ≤ buf.length) .outOfBounds
  match fromUtf8 (buf.drop i) with
  | some s => return f.padIntegral true [] s.toList
  | none => .panic .unwrap

/-- `Display`. -/
def fmt (x : U256) (f : Formatter) : Outcome Empty Str :=
  if isZero x then .ok (f.padIntegral true [] ['0']) else x.fmtDecimal f

/-! ## Digits in the buffer -/

/-- The byte of a digit. -/
def digitByte (c : Char) : UInt8 := UInt8.ofNat c.toNat

theorem digitByte_digitChar : ∀ d < 10, digitByte (Nat.digitChar d) = UInt8.ofNat d + 48 := by decide

theorem utf8EncodeChar_digitChar :
    ∀ d < 10, String.utf8EncodeChar (Nat.digitChar d) = [digitByte (Nat.digitChar d)] := by decide

theorem asBytes_digits {s : Str} (hs : Units.Digits s) : asBytes (String.ofList s) = s.map digitByte := by
  rw [asBytes_ofList]
  induction s with
  | nil => rfl
  | cons c s ih =>
    obtain ⟨hlt, hchar⟩ := Units.digitChar_digitVal (hs c List.mem_cons_self)
    have hbyte := utf8EncodeChar_digitChar _ hlt
    rw [hchar] at hbyte
    rw [List.flatMap_cons, hbyte, ih fun d hd => hs d (List.mem_cons_of_mem c hd)]
    rfl

theorem low_digit {r : U256} (h : r.toNat < 10) : (⟨r.lo.setWidth 8⟩ : UInt8) = UInt8.ofNat r.toNat := by
  rw [← UInt8.toNat_inj, UInt8.toNat_ofNat_of_lt' (Nat.lt_trans h (by decide))]
  change (r.lo.setWidth 8).toNat = r.toNat
  rw [BitVec.toNat_setWidth]
  have hlo := r.lo.isLt
  unfold U256.toNat at h ⊢
  omega

/-- A turn writes the last digit and takes it off the number. -/
theorem fmtDecimalTurn_spec {i : ℕ} {buf : Bytes} (hi : i < buf.length) (cur : U256) :
    ∃ cur', fmtDecimalTurn i buf cur = .ok (buf.set i (digitByte (Nat.digitChar (cur.toNat % 10))), cur') ∧
      cur'.toNat = cur.toNat / 10 := by
  have hten : TEN.toNat = 10 := rfl
  obtain ⟨r, hrem, hr⟩ := rem_spec (ε := Empty) cur (b := TEN) (by decide)
  obtain ⟨q, hdiv, hq⟩ := div_spec (ε := Empty) cur (b := TEN) (by decide)
  rw [hten] at hr hq
  have hlt : r.toNat < 10 := by
    rw [hr]
    exact Nat.mod_lt _ (by decide)
  have hfits : (UInt8.ofNat r.toNat).toNat + 48 < 2 ^ 8 := by
    rw [UInt8.toNat_ofNat_of_lt' (Nat.lt_trans hlt (by decide))]
    omega
  refine ⟨q, ?_, hq⟩
  rw [fmtDecimalTurn, hrem, Outcome.ok_bind]
  simp only [low_digit hlt]
  rw [Outcome.require_of hfits, Outcome.ok_bind, Outcome.require_of hi, Outcome.ok_bind, hdiv, Outcome.ok_bind, ← hr,
    digitByte_digitChar _ hlt]
  rfl

theorem drop_set {buf : Bytes} {i : ℕ} (hi : i < buf.length) (x : UInt8) :
    (buf.set i x).drop i = x :: buf.drop (i + 1) := by
  rw [List.set_eq_take_append_cons_drop, if_pos hi]
  exact List.drop_left' (List.length_take_of_le (Nat.le_of_lt hi))

/-- The first digit is the last one that is written. -/
theorem drop_set_of_div_eq_zero {buf : Bytes} {i n : ℕ} (hi : i < buf.length) (hn : n / 10 = 0) :
    (buf.set i (digitByte (Nat.digitChar (n % 10)))).drop i =
      (Nat.toDigits 10 n).map digitByte ++ buf.drop (i + 1) := by
  have hlt : n < 10 := by omega
  rw [drop_set hi, Nat.toDigits_of_lt_base hlt, Nat.mod_eq_of_lt hlt]
  rfl

/-- The digits of the number come to stand in front of what is in the buffer behind `i`. -/
theorem fmtDecimalLoop_eq {i : ℕ} (buf : Bytes) {cur : U256} (hcur : cur.toNat < 10 ^ (i + 1)) (hi : i < buf.length) :
    ∃ j buf', fmtDecimalLoop i buf cur = .ok (j, buf') ∧ j ≤ i ∧ buf'.length = buf.length ∧
      buf'.drop j = (Nat.toDigits 10 cur.toNat).map digitByte ++ buf.drop (i + 1) := by
  induction i generalizing buf cur with
  | zero =>
    obtain ⟨cur', hturn, hquot⟩ := fmtDecimalTurn_spec hi cur
    have hzero : cur.toNat / 10 = 0 := by omega
    refine ⟨0, _, ?_, Nat.le_refl 0, List.length_set, drop_set_of_div_eq_zero hi hzero⟩
    rw [fmtDecimalLoop, hturn, Outcome.ok_bind]
    exact if_pos ((isZero_iff cur').2 (hquot.trans hzero))
  | succ i ih =>
    obtain ⟨cur', hturn, hquot⟩ := fmtDecimalTurn_spec hi cur
    rw [fmtDecimalLoop, hturn, Outcome.ok_bind]
    dsimp only
    by_cases hzero : cur.toNat / 10 = 0
    · exact ⟨i + 1, _, if_pos ((isZero_iff cur').2 (hquot.trans hzero)), Nat.le_refl _, List.length_set,
        drop_set_of_div_eq_zero hi hzero⟩
    · have hnot : ¬isZero cur' = true := fun h => hzero (hquot.symm.trans ((isZero_iff cur').1 h))
      have hquot' : cur'.toNat < 10 ^ (i + 1) := by
        rw [hquot]
        exact Nat.div_lt_of_lt_mul (by rwa [Nat.pow_succ, Nat.mul_comm] at hcur)
      obtain ⟨j, buf', hloop, hj, hlen, hdrop⟩ :=
        ih (buf.set (i + 1) (digitByte (Nat.digitChar (cur.toNat % 10)))) hquot'
          (by rw [List.length_set]; omega)
      refine ⟨j, buf', (if_neg hnot).trans hloop, Nat.le_succ_of_le hj, hlen.trans List.length_set, ?_⟩
      have hge : 10 ≤ cur.toNat := by omega
      rw [hdrop, drop_set hi, hquot, Nat.toDigits_of_base_le (by decide) hge, List.map_append, List.append_assoc]
      rfl

/-! ## The text -/

theorem toNat_lt_ten_pow (x : U256) : x.toNat < 10 ^ DIGITS := Nat.lt_trans x.toNat_lt (by decide)

/-- The index ends as many places before the end of the buffer as there are digits. -/
theorem fmtDecimalLoop_run (x : U256) :
    ∃ i buf, fmtDecimalLoop (DIGITS - 1) (List.replicate DIGITS 0) x = .ok (i, buf) ∧
      i + (Nat.toDigits 10 x.toNat).length = DIGITS ∧ i ≤ buf.length ∧
      buf.drop i = (Nat.toDigits 10 x.toNat).map digitByte := by
  obtain ⟨i, buf, hloop, hi, hlen, hdrop⟩ :=
    fmtDecimalLoop_eq (i := DIGITS - 1) (List.replicate DIGITS 0) x.toNat_lt_ten_pow (by decide)
  have hend : (List.replicate DIGITS (0 : UInt8)).drop (DIGITS - 1 + 1) = [] := by decide
  rw [List.length_replicate] at hlen
  rw [hend, List.append_nil] at hdrop
  have hcount := congrArg List.length hdrop
  rw [List.length_drop, List.length_map, hlen] at hcount
  have hpos : DIGITS - 1 < DIGITS := by decide
  exact ⟨i, buf, hloop, by omega, by omega, hdrop⟩

theorem fmtDecimal_eq (x : U256) (f : Formatter) :
    x.fmtDecimal f = .ok (f.padIntegral true [] (Nat.toDigits 10 x.toNat)) := by
  obtain ⟨i, buf, hloop, -, hi, hdrop⟩ := x.fmtDecimalLoop_run
  have htext : fromUtf8 (buf.drop i) = some (String.ofList (Nat.toDigits 10 x.toNat)) := by
    rw [fromUtf8_eq_some_iff, hdrop]
    exact asBytes_digits (Units.digits_toDigits x.toNat)
  rw [fmtDecimal, hloop, Outcome.ok_bind]
  dsimp only
  rw [Outcome.require_of hi, Outcome.ok_bind, htext]
  dsimp only
  rw [String.toList_ofList]
  rfl

/-- `Display` writes zero apart, as the loop would too. -/
theorem fmt_eq (x : U256) (f : Formatter) : x.fmt f = .ok (f.padIntegral true [] (Nat.toDigits 10 x.toNat)) := by
  rw [fmt]
  split_ifs with hzero
  · rw [(isZero_iff x).1 hzero]
    rfl
  · exact fmtDecimal_eq x f

/-- The canonical decimal form of a number: digits without a zero in front, except that zero is one. -/
def CanonicalDecimal (n : ℕ) (s : Str) : Prop :=
  s ≠ [] ∧ Units.Digits s ∧ (s.head? = some '0' → s = ['0']) ∧ Units.valueFrom 0 s = n

theorem canonicalDecimal_iff {n : ℕ} {s : Str} : CanonicalDecimal n s ↔ s = Nat.toDigits 10 n := by
  constructor
  · rintro ⟨hne, hdigits, hzero, rfl⟩
    exact Units.eq_toDigits hne hdigits hzero
  · rintro rfl
    exact ⟨Nat.toDigits_ne_nil, Units.digits_toDigits n, Units.toDigits_of_head, Units.valueFrom_toDigits n⟩

/-- What is printed is the canonical decimal form, padded as the formatter asks for, and the index of the loop stays
within the buffer. -/
theorem fmtDecimal_prints_canonical (x : U256) :
    (∃ i buf, fmtDecimalLoop (DIGITS - 1) (List.replicate DIGITS 0) x = .ok (i, buf) ∧
      i + (Nat.toDigits 10 x.toNat).length = DIGITS) ∧
      (∀ s, x.fmtDecimal {} = .ok s ↔ CanonicalDecimal x.toNat s) ∧
      ∀ f : Formatter, ∃ s, CanonicalDecimal x.toNat s ∧ x.fmtDecimal f = .ok (f.padIntegral true [] s) := by
  refine ⟨?_, fun s => ?_, fun f => ⟨_, canonicalDecimal_iff.2 rfl, fmtDecimal_eq x f⟩⟩
  · obtain ⟨i, buf, hloop, hindex, -⟩ := x.fmtDecimalLoop_run
    exact ⟨i, buf, hloop, hindex⟩
  · rw [fmtDecimal_eq, Formatter.padIntegral_default, canonicalDecimal_iff, Outcome.ok.injEq, eq_comm]

end U256

end RustDogecoin
