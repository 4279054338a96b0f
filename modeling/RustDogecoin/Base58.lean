import RustDogecoin.Lib.Numeral
import RustDogecoin.Hashes.Sha256
import Mathlib.Data.List.GetD

/-!
# Base58

The crate `base58`.  `decode` multiplies a scratch buffer of bytes by 58 in place, digit by digit;
`formatIter` builds the digits in base 58, least significant first, in a vector that holds a hundred
of them on the stack and the rest on the heap.  Both keep the leading zeros apart from the number,
so that either is a change of base of a string of digits (`Numeral.convert`).  The text is handled
through its bytes, as the source does.
-/

namespace RustDogecoin

namespace Base58

/-! ## Errors -/

/-- Found a invalid ASCII byte while decoding base58 string. -/
structure InvalidCharacterError where
  invalid : UInt8
  deriving DecidableEq, Repr

/-- Checksum was not correct. -/
structure IncorrectChecksumError where
  incorrect : UInt32
  expected : UInt32
  deriving DecidableEq, Repr

/-- The decoded data was too short. -/
structure TooShortError where
  length : ℕ
  deriving DecidableEq, Repr

/-- An error occurred during base58 decoding (with checksum). -/
inductive Error where
  | decode (e : InvalidCharacterError)
  | incorrectChecksum (e : IncorrectChecksumError)
  | tooShort (e : TooShortError)
  deriving DecidableEq, Repr

/-! ## The alphabet -/

/-- The fifty-eight characters. -/
def alphabet : List Char :=
  ['1', '2', '3', '4', '5', '6', '7', '8', '9', 'A', 'B', 'C', 'D', 'E', 'F', 'G', 'H', 'J', 'K', 'L',
   'M', 'N', 'P', 'Q', 'R', 'S', 'T', 'U', 'V', 'W', 'X', 'Y', 'Z', 'a', 'b', 'c', 'd', 'e', 'f', 'g',
   'h', 'i', 'j', 'k', 'm', 'n', 'o', 'p', 'q', 'r', 's', 't', 'u', 'v', 'w', 'x', 'y', 'z']

def BASE58_CHARS : Bytes := alphabet.map fun c => UInt8.ofNat c.toNat

def BASE58_DIGITS : List (Option UInt8) :=
  [none, none, none, none, none, none, none, none,
   none, none, none, none, none, none, none, none,
   none, none, none, none, none, none, none, none,
   none, none, none, none, none, none, none, none,
   none, none, none, none, none, none, none, none,
   none, none, none, none, none, none, none, none,
   none, some 0, some 1, some 2, some 3, some 4, some 5, some 6,
   some 7, some 8, none, none, none, none, none, none,
   none, some 9, some 10, some 11, some 12, some 13, some 14, some 15,
   some 16, none, some 17, some 18, some 19, some 20, some 21, none,
   some 22, some 23, some 24, some 25, some 26, some 27, some 28, some 29,
   some 30, some 31, some 32, none, none, none, none, none,
   none, some 33, some 34, some 35, some 36, some 37, some 38, some 39,
   some 40, some 41, some 42, some 43, none, some 44, some 45, some 46,
   some 47, some 48, some 49, some 50, some 51, some 52, some 53, some 54,
   some 55, some 56, some 57, none, none, none, none, none]

/-! ## Decoding -/

/-- The value of a byte of the text. -/
def digit (d58 : UInt8) : Outcome InvalidCharacterError UInt8 :=
  match BASE58_DIGITS[d58.toNat]? with
  | none => .err ⟨d58⟩
  | some none => .err ⟨d58⟩
  | some (some d) => .ok d

/-- One turn of the loop of `decode`: "X = X * 58 + next_digit" in base 256, from the last byte of
the scratch buffer to the first.  The carry stays below `58 * 256`, far from the end of `u32`. -/
def decodeStep (scratch : Bytes) (d58 : UInt8) : Outcome InvalidCharacterError Bytes := do
  let carry ← digit d58
  let (rev, carry) := Numeral.mulAdd 256 58 carry.toNat scratch.reverse
  .require (carry = 0) .assertion
  return rev.reverse

/-- Decodes a base58-encoded string into a byte vector. -/
def decode (data : String) : Outcome InvalidCharacterError Bytes := do
  -- 11/15 is just over log_256(58)
  let scratch ← (asBytes data).foldlM decodeStep (List.replicate (1 + (asBytes data).length * 11 / 15) 0)
  let ret := ((asBytes data).takeWhile fun x => x == BASE58_CHARS.getD 0 0).map fun _ => 0
  return ret ++ scratch.dropWhile (· == 0)

/-- `u32::from_le_bytes`. -/
def u32FromLeBytes (bs : Bytes) : UInt32 := UInt32.ofNat (leNat bs)

/-- Decodes a base58check-encoded string into a byte vector verifying the checksum. -/
def decodeCheck (data : String) : Outcome Error Bytes := do
  let ret ← (decode data).mapErr .decode
  .ensure (4 ≤ ret.length) (.tooShort ⟨ret.length⟩)
  let checkStart := ret.length - 4
  let expected := u32FromLeBytes ((Sha256d.hash (ret.take checkStart)).toList.take 4)
  let actual := u32FromLeBytes (ret.drop checkStart)
  .ensure (actual = expected) (.incorrectChecksum ⟨actual, expected⟩)
  return ret.take checkStart

/-! ## Encoding -/

/-- Vector-like object that holds the first 100 elements on the stack. If more space is needed it
will be allocated on the heap. -/
structure SmallVec (α : Type) where
  len : ℕ
  stack : List α
  heap : List α
  length_stack : stack.length = 100
  len_le : len ≤ 100
  heap_eq_nil : len < 100 → heap = []

namespace SmallVec

variable {α : Type}

def new (default : α) : SmallVec α :=
  ⟨0, List.replicate 100 default, [], List.length_replicate, Nat.zero_le _, fun _ => rfl⟩

def push (v : SmallVec α) (val : α) : SmallVec α :=
  if h : v.len < 100 then
    ⟨v.len + 1, v.stack.set v.len val, v.heap, by simp [v.length_stack], h, fun _ => v.heap_eq_nil h⟩
  else
    ⟨v.len, v.stack, v.heap ++ [val], v.length_stack, v.len_le, fun h' => absurd h' h⟩

def iter (v : SmallVec α) : List α := v.stack.take v.len ++ v.heap

/-- The loop over `iter_mut` in `format_iter`: the stack, and then the heap with the carry of it. -/
def mulAdd (v : SmallVec UInt8) (carry : ℕ) : SmallVec UInt8 × ℕ :=
  let onStack := Numeral.mulAdd 58 256 carry (v.stack.take v.len)
  let onHeap := Numeral.mulAdd 58 256 onStack.2 v.heap
  (⟨v.len, onStack.1 ++ v.stack.drop v.len, onHeap.1,
    by simp [onStack, v.length_stack, v.len_le], v.len_le,
    fun h => by simp [onHeap, v.heap_eq_nil h, Numeral.mulAdd]⟩, onHeap.2)

/-- `while carry > 0 { ret.push((carry % 58) as u8); carry /= 58; }`. -/
def pushCarry (v : SmallVec UInt8) (carry : ℕ) : SmallVec UInt8 :=
  if 0 < carry then pushCarry (v.push (UInt8.ofNat (carry % 58))) (carry / 58) else v
termination_by carry
decreasing_by omega

end SmallVec

/-- The variables of `format_iter`. -/
structure FormatState where
  ret : SmallVec UInt8
  leadingZeroCount : ℕ
  leadingZeroes : Bool

def FormatState.init : FormatState := ⟨.new 0, 0, true⟩

/-- One turn of the loop of `format_iter`. -/
def formatStep (st : FormatState) (d256 : UInt8) : FormatState :=
  let zero := st.leadingZeroes && d256.toNat == 0
  let (ret, carry) := st.ret.mulAdd d256.toNat
  ⟨ret.pushCarry carry, if zero then st.leadingZeroCount + 1 else st.leadingZeroCount, zero⟩

/-- `BASE58_CHARS[*ch as usize] as char`. -/
def charOf (ch : UInt8) : Outcome Empty Char :=
  match BASE58_CHARS[ch.toNat]? with
  | some c => .ok (Char.ofNat c.toNat)
  | none => .panic .outOfBounds

/-- The text that `format_iter` writes. -/
def formatIter (data : Bytes) : Outcome Empty String := do
  let st := data.foldl formatStep .init
  let ret := (fun ret => ret.push 0)^[st.leadingZeroCount] st.ret
  return String.ofList (← ret.iter.reverse.mapM charOf)

/-- Encodes `data` as a base58 string. -/
def encode (data : Bytes) : Outcome Empty String := formatIter data

/-- The data and the first four bytes of its double hash. -/
def withChecksum (data : Bytes) : Bytes := data ++ (Sha256d.hash data).toList.take 4

/-- Encodes `data` as a base58 string including the checksum. -/
def encodeCheck (data : Bytes) : Outcome Empty String := formatIter (withChecksum data)

/-- Encodes a slice as base58, including the checksum, into a formatter. -/
def encodeCheckToFmt (data : Bytes) : Outcome Empty String := formatIter (withChecksum data)

/-! ## What the small vector holds -/

namespace SmallVec

variable {α : Type}

@[simp] theorem iter_new (default : α) : (new default).iter = [] := rfl

@[simp] theorem iter_push (v : SmallVec α) (val : α) : (v.push val).iter = v.iter ++ [val] := by
  unfold push
  split_ifs with h
  · have hlen : v.len < v.stack.length := by
      rw [v.length_stack]
      exact h
    simp [iter, v.heap_eq_nil h, List.take_add_one, hlen, List.take_set_of_le]
  · simp [iter]

theorem iter_mulAdd (v : SmallVec UInt8) (carry : ℕ) :
    ((v.mulAdd carry).1.iter, (v.mulAdd carry).2) = Numeral.mulAdd 58 256 carry v.iter := by
  have hlen : (Numeral.mulAdd 58 256 carry (v.stack.take v.len)).1.length = v.len := by
    simp [v.length_stack, v.len_le]
  rw [iter, iter, Numeral.mulAdd_append]
  simp only [mulAdd]
  rw [List.take_append_of_le_length hlen.ge, List.take_of_length_le hlen.le]

theorem iter_pushCarry (v : SmallVec UInt8) (carry : ℕ) :
    (v.pushCarry carry).iter.map UInt8.toNat = v.iter.map UInt8.toNat ++ Nat.digits 58 carry := by
  induction carry using Nat.strong_induction_on generalizing v with
  | _ carry ih =>
    rw [pushCarry]
    split_ifs with hpos
    · rw [ih (carry / 58) (by omega), Nat.digits_eq_cons_digits_div (n := carry) (by omega) hpos.ne', iter_push,
        List.map_append, List.map_singleton, Numeral.toNat_ofNat_mod (by omega) (by omega),
        List.append_assoc, List.singleton_append]
    · obtain rfl : carry = 0 := by omega
      simp

theorem iter_push_iterate (v : SmallVec α) (val : α) (n : ℕ) :
    ((fun v => v.push val)^[n] v).iter = v.iter ++ List.replicate n val := by
  induction n with
  | zero => simp
  | succ n ih => rw [Function.iterate_succ_apply', iter_push, ih, List.replicate_succ', List.append_assoc]

end SmallVec

/-! ## What `format_iter` writes -/

/-- The digits of `data` in base 58, most significant first. -/
def digits58 (data : Bytes) : List ℕ := Numeral.convert 256 58 (data.map UInt8.toNat)

/-- The state of the loop after it has read `data`. -/
structure FormatState.Reads (st : FormatState) (data : Bytes) : Prop where
  digits : st.ret.iter.map UInt8.toNat =
    Nat.digits 58 (Nat.ofDigits 256 (data.map UInt8.toNat).reverse)
  count : st.leadingZeroCount = Numeral.leadingZeros (data.map UInt8.toNat)
  zeroes : st.leadingZeroes = (data.map UInt8.toNat).all (· == 0)

theorem FormatState.Reads.step {st : FormatState} {data : Bytes} (h : st.Reads data) (d : UInt8) :
    (formatStep st d).Reads (data ++ [d]) where
  digits := by
    have hpass := SmallVec.iter_mulAdd st.ret d.toNat
    have hnew := Numeral.digits_mulAdd (by omega : 1 < 58) (by omega) (by omega : 0 < 256) d.toNat h.digits
    rw [← hpass] at hnew
    simp only [formatStep]
    rw [SmallVec.iter_pushCarry, hnew, List.map_append, List.map_singleton, List.reverse_append,
      List.reverse_singleton, List.singleton_append, Nat.ofDigits_cons]
    congr 1
    ring
  count := by
    rw [List.map_append, List.map_singleton, Numeral.leadingZeros_concat, ← h.count, ← h.zeroes]
    simp only [formatStep]
    split_ifs <;> rfl
  zeroes := by
    simp [formatStep, h.zeroes]

/-- What the loop has built at the end. -/
theorem reads_foldl (data : Bytes) : (data.foldl formatStep .init).Reads data := by
  induction data using List.reverseRecOn with
  | nil => exact ⟨by simp [FormatState.init], rfl, rfl⟩
  | append_singleton data d ih =>
    rw [List.foldl_append, List.foldl_cons, List.foldl_nil]
    exact ih.step d

/-- The character of a digit. -/
def char58 (d : ℕ) : Char := alphabet.getD d '1'

/-- The text with the given digits. -/
def text (ds : List ℕ) : String := String.ofList (ds.map char58)

theorem charOf_eq : ∀ d < 58, charOf (UInt8.ofNat d) = .ok (char58 d) := by decide

theorem mapM_charOf {l : Bytes} (hl : ∀ ch ∈ l, ch.toNat < 58) :
    l.mapM charOf = .ok ((l.map UInt8.toNat).map char58) := by
  induction l with
  | nil => rfl
  | cons ch l ih =>
    have hch := charOf_eq ch.toNat (hl ch List.mem_cons_self)
    rw [UInt8.ofNat_toNat] at hch
    rw [List.mapM_cons, hch, Outcome.ok_bind, ih fun c hc => hl c (List.mem_cons_of_mem _ hc)]
    rfl

theorem formatIter_eq (data : Bytes) : formatIter data = .ok (text (digits58 data)) := by
  have hst := reads_foldl data
  set st := data.foldl formatStep .init
  have hdigits : ((st.ret.iter ++ List.replicate st.leadingZeroCount 0).reverse.map UInt8.toNat) =
      digits58 data := by
    rw [digits58, Numeral.convert, Numeral.join, ← hst.count, ← hst.digits, List.reverse_append,
      List.map_append, List.reverse_replicate, List.map_replicate, List.map_reverse]
    rfl
  simp only [formatIter]
  rw [SmallVec.iter_push_iterate, mapM_charOf, hdigits]
  · rfl
  · intro ch hch
    have hmem := List.mem_map_of_mem (f := UInt8.toNat) hch
    rw [hdigits] at hmem
    exact Numeral.convert_lt (by omega) hmem

/-! ## What `decode` reads -/

/-- The byte of a digit. -/
def byte58 (d : ℕ) : UInt8 := BASE58_CHARS.getD d 0

theorem digit_byte58 : ∀ d < 58, digit (byte58 d) = .ok (UInt8.ofNat d) := by decide

theorem byte58_injective {d e : ℕ} (hd : d < 58) (he : e < 58) (h : byte58 d = byte58 e) : d = e := by
  have hdigit : UInt8.ofNat d = UInt8.ofNat e := by
    apply Outcome.ok.inj
    rw [← digit_byte58 d hd, h, digit_byte58 e he]
  simpa [Nat.mod_eq_of_lt, hd.trans (by omega : 58 < 256), he.trans (by omega : 58 < 256)] using
    congrArg UInt8.toNat hdigit

theorem map_byte58_injective {ds es : List ℕ} (hds : ∀ d ∈ ds, d < 58) (hes : ∀ e ∈ es, e < 58)
    (h : ds.map byte58 = es.map byte58) : ds = es := by
  induction ds generalizing es with
  | nil => exact (List.map_eq_nil_iff.1 h.symm).symm
  | cons d ds ih =>
    cases es with
    | nil => cases h
    | cons e es =>
      rw [List.forall_mem_cons] at hds hes
      rw [List.map_cons, List.map_cons, List.cons.injEq] at h
      rw [byte58_injective hds.1 hes.1 h.1, ih hds.2 hes.2 h.2]

theorem byte58_beq_zero : ∀ d < 58, (byte58 d == BASE58_CHARS.getD 0 0) = (d == 0) := by decide

/-- A byte is that of a digit or gives an error. -/
theorem digit_cases (c : UInt8) : (∃ d < 58, c = byte58 d) ∨ digit c = .err ⟨c⟩ := by
  have htable : ∀ d ∈ BASE58_DIGITS[c.toNat]?.join, d.toNat < 58 ∧ c = byte58 d.toNat := by
    -- only the entry of the table is tried, not every byte
    have hall : ∀ n < 256, (BASE58_DIGITS[n]?.join).all fun d => d.toNat < 58 ∧ UInt8.ofNat n = byte58 d.toNat := by
      decide +kernel
    have hc := hall c.toNat c.toNat_lt
    rw [UInt8.ofNat_toNat, Option.all_eq_true] at hc
    exact fun d hd => of_decide_eq_true (hc d hd)
  unfold digit
  rcases hd : BASE58_DIGITS[c.toNat]? with _ | _ | d
  · exact .inr rfl
  · exact .inr rfl
  · rw [hd] at htable
    exact .inl ⟨d.toNat, htable d rfl⟩

/-- The number in a scratch buffer. -/
def scratchValue (scratch : Bytes) : ℕ := Numeral.value 256 scratch.reverse

theorem decodeStep_byte58 {scratch : Bytes} {d : ℕ} (hd : d < 58)
    (hfits : scratchValue scratch * 58 + d < 256 ^ scratch.length) :
    ∃ scratch', decodeStep scratch (byte58 d) = .ok scratch' ∧
      scratch'.length = scratch.length ∧ scratchValue scratch' = scratchValue scratch * 58 + d := by
  have hpass := Numeral.value_mulAdd (by omega : 0 < 256) (le_refl 256) 58 d scratch.reverse
  rw [List.length_reverse] at hpass
  have hcarry : (Numeral.mulAdd 256 58 d scratch.reverse).2 = 0 := by
    by_contra hne
    have hle := Nat.le_mul_of_pos_right (256 ^ scratch.length) (Nat.pos_of_ne_zero hne)
    unfold scratchValue at hfits
    omega
  rw [hcarry, Nat.mul_zero, Nat.add_zero] at hpass
  have htoNat : (UInt8.ofNat d).toNat = d := by
    rw [UInt8.toNat_ofNat', Nat.mod_eq_of_lt]
    omega
  refine ⟨(Numeral.mulAdd 256 58 d scratch.reverse).1.reverse, ?_, by simp, ?_⟩
  · rw [decodeStep, digit_byte58 d hd, Outcome.ok_bind, htoNat]
    simp only [hcarry, Outcome.require_of]
    rfl
  · rw [scratchValue, List.reverse_reverse, hpass, scratchValue]

/-- The loop of `decode` on a buffer with room for the number: it reads every digit, or stops with an
error at a byte that is not in the alphabet. -/
theorem foldlM_decodeStep (bs scratch : Bytes)
    (hroom : (scratchValue scratch + 1) * 58 ^ bs.length ≤ 256 ^ scratch.length) :
    (∃ (ds : List ℕ) (scratch' : Bytes), (∀ d ∈ ds, d < 58) ∧ bs = ds.map byte58 ∧
      bs.foldlM decodeStep scratch = .ok scratch' ∧
      scratchValue scratch' = scratchValue scratch * 58 ^ ds.length + Nat.ofDigits 58 ds.reverse) ∨
    ∃ c ∈ bs, digit c = .err ⟨c⟩ ∧ bs.foldlM decodeStep scratch = .err ⟨c⟩ := by
  induction bs generalizing scratch with
  | nil => exact .inl ⟨[], scratch, by simp, rfl, rfl, by simp⟩
  | cons c bs ih =>
    rcases digit_cases c with ⟨d, hd, rfl⟩ | hbad
    · rw [List.length_cons, pow_succ'] at hroom
      have hpos : 0 < 58 ^ bs.length := by positivity
      have hnext : (scratchValue scratch * 58 + d + 1) * 58 ^ bs.length ≤ 256 ^ scratch.length := by
        refine le_trans ?_ hroom
        rw [← Nat.mul_assoc]
        exact Nat.mul_le_mul_right _ (by omega)
      have hfits : scratchValue scratch * 58 + d < 256 ^ scratch.length :=
        lt_of_lt_of_le (Nat.lt_succ_self _) ((Nat.le_mul_of_pos_right _ hpos).trans hnext)
      obtain ⟨scratch', hstep, hlen, hval⟩ := decodeStep_byte58 hd hfits
      rw [List.foldlM_cons, hstep, Outcome.ok_bind]
      rcases ih scratch' (by rw [hval, hlen]; exact hnext) with ⟨ds, out, hds, rfl, hrun, hout⟩ | ⟨e, he, hbad⟩
      · refine .inl ⟨d :: ds, out, ?_, rfl, hrun, ?_⟩
        · simpa using ⟨hd, hds⟩
        · rw [hout, hval, Nat.ofDigits_reverse_cons, List.length_cons, pow_succ']
          ring
      · exact .inr ⟨e, List.mem_cons_of_mem _ he, hbad⟩
    · refine .inr ⟨c, List.mem_cons_self, hbad, ?_⟩
      rw [List.foldlM_cons, decodeStep, hbad]
      rfl

/-- 11/15 is just over log_256(58). -/
theorem scratch_suffices (n : ℕ) : 58 ^ n ≤ 256 ^ (1 + n * 11 / 15) := by
  have hsmall : ∀ r < 15, 58 ^ r ≤ 256 ^ (1 + r * 11 / 15) := by decide
  have hlen : 1 + n * 11 / 15 = 11 * (n / 15) + (1 + n % 15 * 11 / 15) := by omega
  calc 58 ^ n = (58 ^ 15) ^ (n / 15) * 58 ^ (n % 15) := by
        rw [← pow_mul, ← pow_add, Nat.div_add_mod]
    _ ≤ (256 ^ 11) ^ (n / 15) * 256 ^ (1 + n % 15 * 11 / 15) :=
        Nat.mul_le_mul (Nat.pow_le_pow_left (by norm_num) _) (hsmall _ (Nat.mod_lt _ (by omega)))
    _ = 256 ^ (1 + n * 11 / 15) := by rw [← pow_mul, ← pow_add, ← hlen]

theorem takeWhile_byte58 {ds : List ℕ} (hds : ∀ d ∈ ds, d < 58) :
    ((ds.map byte58).takeWhile fun x => x == BASE58_CHARS.getD 0 0).length = Numeral.leadingZeros ds := by
  rw [List.takeWhile_map, List.length_map, Numeral.leadingZeros]
  induction ds with
  | nil => rfl
  | cons d ds ih =>
    have hd := byte58_beq_zero d (hds d List.mem_cons_self)
    have ih := ih fun e he => hds e (List.mem_cons_of_mem _ he)
    rw [List.takeWhile_cons, List.takeWhile_cons, Function.comp_apply, hd]
    split_ifs
    · rw [List.length_cons, List.length_cons, ih]
    · rfl

theorem dropWhile_scratch (scratch : Bytes) :
    (scratch.dropWhile (· == 0)).map UInt8.toNat = (Nat.digits 256 (scratchValue scratch)).reverse := by
  have hzero : ((· == 0) ∘ UInt8.toNat) = ((· == 0) : UInt8 → Bool) := by
    funext c
    rw [Function.comp_apply, Bool.eq_iff_iff, beq_iff_eq, beq_iff_eq, ← UInt8.toNat_inj]
    rfl
  rw [scratchValue, Numeral.value, List.map_reverse, ← Numeral.dropWhile_eq_digits (by omega),
    List.dropWhile_map, hzero]
  · intro d hd
    obtain ⟨c, -, rfl⟩ := List.mem_map.1 hd
    exact c.toNat_lt

/-- `decode` changes the base of the digits of its text, or returns an error for one of its bytes. -/
theorem decode_cases (data : String) :
    (∃ (ds : List ℕ) (ret : Bytes), (∀ d ∈ ds, d < 58) ∧ asBytes data = ds.map byte58 ∧
      decode data = .ok ret ∧ ret.map UInt8.toNat = Numeral.convert 58 256 ds) ∨
    ∃ c ∈ asBytes data, digit c = .err ⟨c⟩ ∧ decode data = .err ⟨c⟩ := by
  have hzero : scratchValue (List.replicate (1 + (asBytes data).length * 11 / 15) 0) = 0 := by
    rw [scratchValue, Numeral.value, List.reverse_replicate, List.map_replicate]
    exact Nat.ofDigits_replicate_zero
  have hroom : (scratchValue (List.replicate (1 + (asBytes data).length * 11 / 15) 0) + 1)
      * 58 ^ (asBytes data).length ≤
      256 ^ (List.replicate (1 + (asBytes data).length * 11 / 15) (0 : UInt8)).length := by
    rw [hzero, Nat.zero_add, Nat.one_mul, List.length_replicate]
    exact scratch_suffices _
  rcases foldlM_decodeStep _ _ hroom with ⟨ds, scratch, hds, hbytes, hrun, hval⟩ | ⟨c, hc, hbad, hrun⟩
  · refine .inl ⟨ds, ((asBytes data).takeWhile fun x => x == BASE58_CHARS.getD 0 0).map (fun _ => 0) ++
      scratch.dropWhile (· == 0), hds, hbytes, ?_, ?_⟩
    · rw [decode, hrun]
      rfl
    · rw [hzero, Nat.zero_mul, Nat.zero_add] at hval
      rw [List.map_append, dropWhile_scratch, hval, List.map_map, hbytes, Numeral.convert, Numeral.join,
        ← takeWhile_byte58 hds, ← List.map_const']
      rfl
  · refine .inr ⟨c, hc, hbad, ?_⟩
    rw [decode, hrun]
    rfl

/-! ## Text and digits -/

theorem utf8EncodeChar_char58 : ∀ d < 58, String.utf8EncodeChar (char58 d) = [byte58 d] := by decide

theorem asBytes_text {ds : List ℕ} (hds : ∀ d ∈ ds, d < 58) : asBytes (text ds) = ds.map byte58 := by
  rw [text, asBytes_ofList, List.flatMap_map]
  induction ds with
  | nil => rfl
  | cons d ds ih =>
    rw [List.flatMap_cons, utf8EncodeChar_char58 d (hds d List.mem_cons_self),
      ih fun e he => hds e (List.mem_cons_of_mem _ he)]
    rfl

theorem mem_alphabet_iff {c : Char} : c ∈ alphabet ↔ ∃ d < 58, char58 d = c := by
  rw [List.mem_iff_getElem]
  constructor
  · rintro ⟨d, hd, rfl⟩
    exact ⟨d, hd, List.getD_eq_getElem _ _ hd⟩
  · rintro ⟨d, hd, rfl⟩
    exact ⟨d, hd, (List.getD_eq_getElem _ _ hd).symm⟩

theorem text_of_alphabet {l : List Char} (hl : ∀ c ∈ l, c ∈ alphabet) :
    ∃ ds : List ℕ, (∀ d ∈ ds, d < 58) ∧ ds.map char58 = l := by
  induction l with
  | nil => exact ⟨[], by simp, rfl⟩
  | cons c l ih =>
    obtain ⟨d, hd, rfl⟩ := mem_alphabet_iff.1 (hl c List.mem_cons_self)
    obtain ⟨ds, hds, rfl⟩ := ih fun e he => hl e (List.mem_cons_of_mem _ he)
    exact ⟨d :: ds, by simpa using ⟨hd, hds⟩, rfl⟩

/-- A text that `decode` accepts is that of a string of digits. -/
theorem of_decode_eq_ok {data : String} {ret : Bytes} (h : decode data = .ok ret) :
    ∃ ds : List ℕ, (∀ d ∈ ds, d < 58) ∧ data = text ds ∧
      ret.map UInt8.toNat = Numeral.convert 58 256 ds := by
  rcases decode_cases data with ⟨ds, ret', hds, hbytes, hrun, hret⟩ | ⟨c, -, -, hrun⟩
  · obtain rfl := Outcome.ok.inj (h.symm.trans hrun)
    exact ⟨ds, hds, asBytes_injective (hbytes.trans (asBytes_text hds).symm), hret⟩
  · rw [h] at hrun
    cases hrun

/-- `decode` on the text of a string of digits. -/
theorem decode_text {ds : List ℕ} (hds : ∀ d ∈ ds, d < 58) :
    ∃ ret, decode (text ds) = .ok ret ∧ ret.map UInt8.toNat = Numeral.convert 58 256 ds := by
  rcases decode_cases (text ds) with ⟨es, ret, hes, hbytes, hrun, hret⟩ | ⟨c, hc, hbad, -⟩
  · rw [asBytes_text hds] at hbytes
    obtain rfl := map_byte58_injective hds hes hbytes
    exact ⟨ret, hrun, hret⟩
  · rw [asBytes_text hds] at hc
    obtain ⟨d, hd, rfl⟩ := List.mem_map.1 hc
    rw [digit_byte58 d (hds d hd)] at hbad
    cases hbad

theorem digits58_lt {data : Bytes} {d : ℕ} (hd : d ∈ digits58 data) : d < 58 :=
  Numeral.convert_lt (by omega) hd

theorem toNat_lt_of_mem {data : Bytes} {d : ℕ} (hd : d ∈ data.map UInt8.toNat) : d < 256 := by
  obtain ⟨c, -, rfl⟩ := List.mem_map.1 hd
  exact c.toNat_lt

theorem decode_text_digits58 (data : Bytes) : decode (text (digits58 data)) = .ok data := by
  obtain ⟨ret, hrun, hret⟩ := decode_text (fun d hd => digits58_lt hd)
  rw [digits58, Numeral.convert_convert 58 (by omega) fun d hd => toNat_lt_of_mem hd] at hret
  rw [hrun, List.map_injective_iff.2 (fun _ _ => UInt8.toNat_inj.1) hret]

theorem formatIter_of_decode {data : String} {ret : Bytes} (h : decode data = .ok ret) :
    formatIter ret = .ok data := by
  obtain ⟨ds, hds, rfl, hret⟩ := of_decode_eq_ok h
  rw [formatIter_eq, digits58, hret, Numeral.convert_convert 256 (by omega) hds]

theorem noPanic_decode (data : String) : (decode data).NoPanic := by
  rcases decode_cases data with ⟨ds, ret, -, -, hrun, -⟩ | ⟨c, -, -, hrun⟩
  · rw [hrun]
    exact Outcome.noPanic_ok ret
  · rw [hrun]
    exact Outcome.noPanic_err _

theorem decode_eq_ok_iff_alphabet (data : String) :
    (∃ ret, decode data = .ok ret) ↔ ∀ c ∈ data.toList, c ∈ alphabet := by
  constructor
  · rintro ⟨ret, h⟩ c hc
    obtain ⟨ds, hds, rfl, -⟩ := of_decode_eq_ok h
    rw [text, String.toList_ofList] at hc
    obtain ⟨d, hd, rfl⟩ := List.mem_map.1 hc
    exact mem_alphabet_iff.2 ⟨d, hds d hd, rfl⟩
  · intro hall
    obtain ⟨ds, hds, hchars⟩ := text_of_alphabet hall
    obtain ⟨ret, hrun, -⟩ := decode_text hds
    rw [text, hchars, String.ofList_toList] at hrun
    exact ⟨ret, hrun⟩

/-! ## The checksum -/

theorem length_checksum (data : Bytes) : ((Sha256d.hash data).toList.take 4).length = 4 := by simp

theorem u32FromLeBytes_injective {bs cs : Bytes} (hb : bs.length = 4) (hc : cs.length = 4)
    (h : u32FromLeBytes bs = u32FromLeBytes cs) : bs = cs := by
  have hb' : leNat bs < 2 ^ 32 := by
    have hlt := leNat_lt bs
    rw [hb] at hlt
    exact hlt
  have hc' : leNat cs < 2 ^ 32 := by
    have hlt := leNat_lt cs
    rw [hc] at hlt
    exact hlt
  have hnat : leNat bs = leNat cs := by
    have := congrArg UInt32.toNat h
    rwa [u32FromLeBytes, u32FromLeBytes, UInt32.toNat_ofNat_of_lt' hb', UInt32.toNat_ofNat_of_lt' hc'] at this
  rw [← leBytes_leNat bs, ← leBytes_leNat cs, hb, hc, hnat]

/-- `decode_check` accepts exactly the texts of data that ends in its checksum. -/
theorem decodeCheck_eq_ok_iff {data : String} {ret : Bytes} :
    decodeCheck data = .ok ret ↔ decode data = .ok (withChecksum ret) := by
  unfold decodeCheck
  constructor
  · intro h
    obtain ⟨all, hdec, h⟩ := Outcome.bind_eq_ok_iff.1 h
    obtain ⟨hlen, h⟩ := Outcome.ensure_bind_eq_ok_iff.1 h
    obtain ⟨hsum, h⟩ := Outcome.ensure_bind_eq_ok_iff.1 h
    rw [Outcome.mapErr_eq_ok_iff] at hdec
    cases h
    have hdrop : all.drop (all.length - 4) = (Sha256d.hash (all.take (all.length - 4))).toList.take 4 := by
      apply u32FromLeBytes_injective _ (length_checksum _) hsum
      rw [List.length_drop]
      omega
    rw [hdec, withChecksum, ← hdrop, List.take_append_drop]
  · intro h
    have hlen : (withChecksum ret).length = ret.length + 4 := by
      rw [withChecksum, List.length_append, length_checksum]
    have htake : (withChecksum ret).take ((withChecksum ret).length - 4) = ret := by
      rw [hlen, Nat.add_sub_cancel, withChecksum, List.take_left]
    have hdrop : (withChecksum ret).drop ((withChecksum ret).length - 4) =
        (Sha256d.hash ret).toList.take 4 := by
      rw [hlen, Nat.add_sub_cancel, withChecksum, List.drop_left]
    rw [h, Outcome.mapErr, Outcome.ok_bind, Outcome.ensure_of (by omega), Outcome.ok_bind]
    simp only [htake, hdrop, Outcome.ensure_of]
    rfl

theorem formatIter_eq_ok_iff {data : Bytes} {s : String} :
    formatIter data = .ok s ↔ decode s = .ok data := by
  constructor
  · intro h
    obtain rfl := Outcome.ok.inj ((formatIter_eq data).symm.trans h)
    exact decode_text_digits58 data
  · exact formatIter_of_decode

/-- The text that is written with a checksum is the one that `decode_check` accepts. -/
theorem encodeCheckToFmt_eq_ok_iff {data : Bytes} {s : String} :
    encodeCheckToFmt data = .ok s ↔ decodeCheck s = .ok data := by
  rw [encodeCheckToFmt, formatIter_eq_ok_iff, decodeCheck_eq_ok_iff]

theorem length_formatIter_le {data : Bytes} {s : String} (h : formatIter data = .ok s) :
    (asBytes s).length ≤ 2 * data.length := by
  obtain rfl := Outcome.ok.inj ((formatIter_eq data).symm.trans h)
  have hlt : ∀ d ∈ data.map UInt8.toNat, d < 256 := fun d hd => toNat_lt_of_mem hd
  have hle := Numeral.length_convert_le (by omega) (by omega : 1 < 58) (by omega) hlt
  rw [List.length_map] at hle
  rwa [asBytes_text fun d hd => digits58_lt hd, List.length_map, digits58]

/-- Decoding undoes encoding, with and without the checksum and on either path of the small vector;
`decode` accepts exactly the texts over the alphabet, never fails its assertion, and encoding gives
back every text that it accepts. -/
theorem decode_encode :
    (∀ data, ∃ s, encode data = .ok s ∧ decode s = .ok data) ∧
    (∀ data, ∃ s, encodeCheck data = .ok s ∧ encodeCheckToFmt data = .ok s ∧
      decodeCheck s = .ok data) ∧
    (∀ s, (∃ data, decode s = .ok data) ↔ ∀ c ∈ s.toList, c ∈ alphabet) ∧
    (∀ s, (decode s).NoPanic) ∧
    ∀ s data, decode s = .ok data → encode data = .ok s := by
  refine ⟨?_, ?_, decode_eq_ok_iff_alphabet, noPanic_decode, fun s data h => formatIter_of_decode h⟩
  · intro data
    exact ⟨_, formatIter_eq data, decode_text_digits58 data⟩
  · intro data
    exact ⟨_, formatIter_eq _, formatIter_eq _, encodeCheckToFmt_eq_ok_iff.1 (formatIter_eq _)⟩

end Base58

end RustDogecoin
