import RustDogecoin.Blockdata.Instruction
import RustDogecoin.Lib.SignMagnitude

/-!
# Numbers in scripts

`write_scriptint` and `read_scriptint` of `blockdata/script/mod.rs`.  The writer makes the shortest
sign-magnitude form of a number (`writeScriptint_eq`), the reader takes the shortest forms of at most four
bytes, and the buffer of eight bytes is long enough for every `i64` but the least.
-/

namespace RustDogecoin

open SignMagnitude

/-! ## Writing -/

/-- `out[index] = byte`. -/
def indexSet {ε : Type} (out : Bytes) (index : ℕ) (byte : UInt8) : Outcome ε Bytes := do
  .require (index < out.length) .outOfBounds
  return out.set index byte

/-- The loop over the low bytes of the absolute value. -/
def writeScriptintLoop (out : Bytes) (len abs : ℕ) : Outcome Empty (Bytes × ℕ × ℕ) :=
  if 0xFF < abs then do
    let out ← indexSet out len (UInt8.ofNat (abs &&& 0xFF))
    writeScriptintLoop out (len + 1) (abs >>> 8)
  else return (out, len, abs)
termination_by abs
decreasing_by
  rw [Nat.shiftRight_eq_div_pow]
  omega

/-- Encodes an integer in script (minimal CScriptNum) format; returns the buffer and the number of bytes
that were written to it. -/
def writeScriptint (out : U8Array 8) (n : Int64) : Outcome Empty (Bytes × ℕ) :=
  if n = 0 then return (out.toList, 0)
  else do
    let neg := n < 0
    let (out, len, abs) ← writeScriptintLoop out.toList 0 n.toInt.natAbs
    -- the sign bit is taken by the number, so that it needs a byte of its own
    if abs &&& 0x80 ≠ 0 then
      let out ← indexSet out len (UInt8.ofNat abs)
      let out ← indexSet out (len + 1) (if neg then 0x80 else 0)
      return (out, len + 2)
    else
      let out ← indexSet out len (UInt8.ofNat (abs ||| if neg then 0x80 else 0))
      return (out, len + 1)

/-- The bytes that are written for an integer, `&buf[..len]`. -/
def scriptintBytes (out : U8Array 8) (n : Int64) : Outcome Empty Bytes := do
  let (out, len) ← writeScriptint out n
  return out.take len

/-! ## Reading -/

/-- Caller to guarantee that `v` is not empty; both callers refuse more than four bytes, so that the sum
stays far below `i64::MAX`. -/
def scriptintParse (v : Bytes) : ℤ :=
  let (ret, sh) := v.foldl (fun (acc, sh) n => (acc + n.toNat <<< sh, sh + 8)) (0, 0)
  if v.getD (v.length - 1) 0 &&& 0x80 ≠ 0 then -((ret &&& (1 <<< (sh - 1) - 1) : ℕ) : ℤ) else (ret : ℤ)

/-- Decodes an integer in script (minimal CScriptNum) format. -/
def readScriptint (v : Bytes) : Except ScriptError ℤ :=
  match v.getLast? with
  | none => .ok 0
  | some last =>
    if v.length > 4 then .error .numericOverflow
    else if last &&& 0x7f = 0 ∧ (v.length ≤ 1 ∨ v.getD (v.length - 2) 0 &&& 0x80 = 0) then
      .error .nonMinimalPush
    else .ok (scriptintParse v)

/-! ## What is written -/

theorem indexSet_append {ε : Type} (out rest : Bytes) (old byte : UInt8) :
    (indexSet (out ++ old :: rest) out.length byte : Outcome ε Bytes) = .ok (out ++ byte :: rest) := by
  rw [indexSet, Outcome.require_of (by simp), Outcome.ok_bind, List.set_append_right _ _ le_rfl,
    Nat.sub_self, List.set_cons_zero]
  rfl

theorem indexSet_end {ε : Type} (out : Bytes) (byte : UInt8) :
    (indexSet out out.length byte : Outcome ε Bytes) = .panic .outOfBounds := by
  rw [indexSet, Outcome.require, if_neg (Nat.lt_irrefl _)]
  rfl

/-- The loop writes the low bytes of a number and leaves the highest one. -/
theorem writeScriptintLoop_eq {k abs : ℕ} (hle : 256 ^ k ≤ abs) (hlt : abs < 256 ^ (k + 1))
    (out rest : Bytes) (hrest : k ≤ rest.length) :
    writeScriptintLoop (out ++ rest) out.length abs =
      .ok (out ++ leBytes k abs ++ rest.drop k, out.length + k, abs / 256 ^ k) := by
  induction k generalizing abs out rest with
  | zero =>
    rw [writeScriptintLoop, if_neg (by omega)]
    simp [leBytes]
  | succ k ih =>
    have hpos : 0 < 256 ^ k := Nat.pow_pos (by decide)
    have hbyte : abs &&& 0xFF = abs % 256 := Nat.and_two_pow_sub_one_eq_mod abs 8
    have hshift : abs >>> 8 = abs / 256 := Nat.shiftRight_eq_div_pow abs 8
    have hle' : 256 ^ k ≤ abs / 256 := by
      rw [Nat.le_div_iff_mul_le (by decide), ← Nat.pow_succ]
      exact hle
    have hlt' : abs / 256 < 256 ^ (k + 1) := by
      rw [Nat.div_lt_iff_lt_mul (by decide), ← Nat.pow_succ]
      exact hlt
    cases rest with
    | nil => cases hrest
    | cons c rest =>
      have hnext := ih hle' hlt' (out ++ [UInt8.ofNat (abs % 256)]) rest (Nat.le_of_succ_le_succ hrest)
      rw [List.length_append, List.length_singleton, List.append_assoc, List.singleton_append] at hnext
      have hmore : 0xFF < abs := by
        rw [Nat.pow_succ] at hle
        omega
      rw [writeScriptintLoop, if_pos hmore, indexSet_append, Outcome.ok_bind, hbyte, hshift, hnext,
        leBytes, Nat.div_div_eq_div_mul, ← Nat.pow_succ', Nat.add_right_comm, Nat.add_assoc _ k 1]
      simp

/-- The sign bit of a byte. -/
theorem and_signBit_eq_zero_iff (b : UInt8) : b &&& 0x80 = 0 ↔ b.toNat < 128 := by
  have hall : ∀ b : Fin 256, UInt8.ofFin b &&& 0x80 = 0 ↔ b.val < 128 := by decide +kernel
  exact hall b.toFin

theorem and_magnitude_eq_zero_iff (b : UInt8) : b &&& 0x7f = 0 ↔ b.toNat % 128 = 0 := by
  have hall : ∀ b : Fin 256, UInt8.ofFin b &&& 0x7f = 0 ↔ b.val % 128 = 0 := by decide +kernel
  exact hall b.toFin

theorem natAnd_signBit_eq_zero_iff {a : ℕ} (h : a < 256) : a &&& 0x80 = 0 ↔ a < 128 := by
  have hall : ∀ a : Fin 256, a.val &&& 0x80 = 0 ↔ a.val < 128 := by decide +kernel
  exact hall ⟨a, h⟩

theorem or_signBit {a : ℕ} (h : a < 128) : a ||| 0x80 = a + 128 := by
  have hall : ∀ a : Fin 128, a.val ||| 0x80 = a.val + 128 := by decide +kernel
  exact hall ⟨a, h⟩

theorem toInt_eq_zero_iff {n : Int64} : n.toInt = 0 ↔ n = 0 := by
  rw [← Int64.toInt_inj, Int64.toInt_zero]

/-- The buffer up to the highest byte of the number, and what is done with that byte. -/
theorem writeScriptint_eq (out : U8Array 8) {n : Int64} {k : ℕ} (hle : 256 ^ k ≤ n.toInt.natAbs)
    (hlt : n.toInt.natAbs < 256 ^ (k + 1)) (hk : k < 8) :
    ∃ c rest, rest.length = 7 - k ∧ writeScriptint out n = (do
      let out := leBytes k n.toInt.natAbs ++ c :: rest
      let abs := n.toInt.natAbs / 256 ^ k
      if abs &&& 0x80 ≠ 0 then
        let out ← indexSet out k (UInt8.ofNat abs)
        let out ← indexSet out (k + 1) (if n < 0 then 0x80 else 0)
        return (out, k + 2)
      else
        let out ← indexSet out k (UInt8.ofNat (abs ||| if n < 0 then 0x80 else 0))
        return (out, k + 1)) := by
  have hlength : (out.toList.drop k).length = 8 - k := by simp
  have hzero : n ≠ 0 := by
    rintro rfl
    have hpos : 0 < 256 ^ k := Nat.pow_pos (by decide)
    rw [Int64.toInt_zero] at hle
    omega
  cases hdrop : out.toList.drop k with
  | nil =>
    rw [hdrop] at hlength
    rw [List.length_nil] at hlength
    omega
  | cons c rest =>
    have hloop := writeScriptintLoop_eq hle hlt [] out.toList (by simp; omega)
    rw [hdrop, List.nil_append, List.length_nil, Nat.zero_add, List.nil_append] at hloop
    refine ⟨c, rest, ?_, ?_⟩
    · rw [hdrop, List.length_cons] at hlength
      omega
    · rw [writeScriptint, if_neg hzero, hloop]
      rfl

theorem natAbs_toInt_le (n : Int64) : n.toInt.natAbs ≤ 2 ^ 63 := by
  have hlow := n.le_toInt
  have hhigh := n.toInt_lt
  omega

theorem natAbs_toInt_lt {n : Int64} (h : n ≠ Int64.minValue) : n.toInt.natAbs < 2 ^ 63 := by
  have hlow := n.le_toInt
  have hhigh := n.toInt_lt
  have hne : n.toInt ≠ -2 ^ 63 := by
    rwa [← Int64.toInt_minValue, Ne, Int64.toInt_inj]
  omega

theorem exists_pow_le_lt {a : ℕ} (h : a ≠ 0) : ∃ k, 256 ^ k ≤ a ∧ a < 256 ^ (k + 1) := by
  induction a using Nat.strongRecOn with
  | ind a ih =>
    by_cases hsmall : a < 256
    · exact ⟨0, by omega, by omega⟩
    · obtain ⟨k, hle, hlt⟩ := ih (a / 256) (by omega) (by omega)
      refine ⟨k + 1, ?_, ?_⟩
      · rw [Nat.pow_succ]
        exact (Nat.le_div_iff_mul_le (by decide)).1 hle
      · rw [Nat.pow_succ]
        exact (Nat.div_lt_iff_lt_mul (by decide)).1 hlt

/-- What is written in the byte after the low ones. -/
theorem indexSet_leBytes (k a : ℕ) (c byte : UInt8) (rest : Bytes) :
    (indexSet (leBytes k a ++ c :: rest) k byte : Outcome Empty Bytes) =
      .ok (leBytes k a ++ byte :: rest) := by
  have h := indexSet_append (ε := Empty) (leBytes k a) rest c byte
  rwa [length_leBytes] at h

/-- The sign goes to the highest byte of the number, when its high bit is free. -/
theorem writeScriptint_of_signBit_free (out : U8Array 8) {n : Int64} {k : ℕ} (hk : k < 8)
    (hle : 256 ^ k ≤ n.toInt.natAbs) (hlt : n.toInt.natAbs < bound (k + 1)) :
    ∃ rest, writeScriptint out n = .ok (encode (k + 1) n.toInt ++ rest, k + 1) := by
  have htop : n.toInt.natAbs / 256 ^ k < 128 := Nat.div_lt_of_lt_mul (by rwa [Nat.mul_comm])
  have hneg : n < 0 ↔ n.toInt < 0 := by rw [Int64.lt_iff_toInt_lt, Int64.toInt_zero]
  have hwidth : n.toInt.natAbs < 256 ^ (k + 1) := by
    rw [pow_succ_eq_bound]
    omega
  obtain ⟨c, rest, -, hwrite⟩ := writeScriptint_eq out hle hwidth hk
  refine ⟨rest, ?_⟩
  have hfree : n.toInt.natAbs / 256 ^ k &&& 0x80 = 0 := (natAnd_signBit_eq_zero_iff (by omega)).2 htop
  have hbyte : (n.toInt.natAbs / 256 ^ k ||| if n < 0 then 0x80 else 0) =
      n.toInt.natAbs / 256 ^ k + if n.toInt < 0 then 128 else 0 := by
    rw [if_congr hneg rfl rfl]
    split_ifs
    · exact or_signBit htop
    · rw [Nat.or_zero, Nat.add_zero]
  rw [hwrite, encode_succ hlt]
  simp only [hfree, ne_eq, not_true_eq_false, if_false, hbyte, indexSet_leBytes, Outcome.ok_bind]
  simp

/-- The sign gets a byte of its own, when the high bit of the number's highest byte is taken. -/
theorem writeScriptint_of_signBit_taken (out : U8Array 8) {n : Int64} {k : ℕ} (hk : k < 7)
    (hle : bound (k + 1) ≤ n.toInt.natAbs) (hlt : n.toInt.natAbs < 256 ^ (k + 1)) :
    ∃ rest, writeScriptint out n = .ok (encode (k + 2) n.toInt ++ rest, k + 2) := by
  have hpos : 0 < 256 ^ k := Nat.pow_pos (by decide)
  have htop : n.toInt.natAbs / 256 ^ k < 256 := by
    rwa [Nat.div_lt_iff_lt_mul hpos, ← Nat.pow_succ']
  have hbit : 128 ≤ n.toInt.natAbs / 256 ^ k := (Nat.le_div_iff_mul_le hpos).2 hle
  have hneg : n < 0 ↔ n.toInt < 0 := by rw [Int64.lt_iff_toInt_lt, Int64.toInt_zero]
  have hlow : 256 ^ k ≤ n.toInt.natAbs := by
    rw [bound] at hle
    omega
  have hfits : n.toInt.natAbs < bound (k + 2) := by
    rw [bound]
    omega
  obtain ⟨c, rest, hrest, hwrite⟩ := writeScriptint_eq out hlow hlt (by omega)
  cases rest with
  | nil =>
    rw [List.length_nil] at hrest
    omega
  | cons d rest =>
    refine ⟨rest, ?_⟩
    have htaken : n.toInt.natAbs / 256 ^ k &&& 0x80 ≠ 0 := by
      rw [Ne, natAnd_signBit_eq_zero_iff htop]
      omega
    have hsucc : leBytes (k + 1) n.toInt.natAbs =
        leBytes k n.toInt.natAbs ++ [UInt8.ofNat (n.toInt.natAbs / 256 ^ k)] := by
      rw [leBytes_succ_eq_append, Nat.mod_eq_of_lt htop]
    have hsecond := indexSet_leBytes (k + 1) n.toInt.natAbs d (if n < 0 then 0x80 else 0) rest
    rw [hsucc, List.append_assoc, List.singleton_append] at hsecond
    have hsign : UInt8.ofNat (n.toInt.natAbs / 256 ^ (k + 1) + if n.toInt < 0 then 128 else 0) =
        if n < 0 then 0x80 else 0 := by
      rw [Nat.div_eq_of_lt hlt, Nat.zero_add, if_congr hneg rfl rfl]
      split_ifs <;> rfl
    rw [hwrite, encode_succ hfits, hsign, hsucc]
    simp only [htaken, ne_eq, not_false_eq_true, if_true, indexSet_leBytes, hsecond, Outcome.ok_bind]
    simp

/-- The writer leaves the form of the number on as many bytes as it needs. -/
theorem writeScriptint_of_ne_minValue (out : U8Array 8) {n : Int64} (h : n ≠ Int64.minValue) :
    ∃ len rest, writeScriptint out n = .ok (encode len n.toInt ++ rest, len) ∧
      n.toInt.natAbs < bound len ∧ (len = 0 ∨ bound (len - 1) ≤ n.toInt.natAbs) := by
  by_cases hzero : n = 0
  · subst hzero
    exact ⟨0, out.toList, rfl, by decide, .inl rfl⟩
  · have hmax := natAbs_toInt_lt h
    have hpos : n.toInt.natAbs ≠ 0 := by
      rwa [Ne, Int.natAbs_eq_zero, toInt_eq_zero_iff]
    obtain ⟨k, hle, hlt⟩ := exists_pow_le_lt hpos
    have hk : k < 8 := by
      by_contra hge
      have hpow : 256 ^ 8 ≤ 256 ^ k := Nat.pow_le_pow_right (by decide) (Nat.le_of_not_lt hge)
      omega
    by_cases hfree : n.toInt.natAbs < bound (k + 1)
    · obtain ⟨rest, hwrite⟩ := writeScriptint_of_signBit_free out hk hle hfree
      exact ⟨k + 1, rest, hwrite, hfree, .inr ((bound_le_pow k).trans hle)⟩
    · have hk' : k < 7 := by
        by_contra hge
        have hbound : bound 8 ≤ bound (k + 1) := bound_le (by omega)
        have height : bound 8 = 2 ^ 63 := by decide
        omega
      obtain ⟨rest, hwrite⟩ := writeScriptint_of_signBit_taken out hk' (Nat.le_of_not_lt hfree) hlt
      refine ⟨k + 2, rest, hwrite, ?_, .inr (Nat.le_of_not_lt hfree)⟩
      rw [bound]
      omega

/-- The least `i64` takes the eight bytes and has its sign left over. -/
theorem writeScriptint_minValue (out : U8Array 8) :
    writeScriptint out Int64.minValue = .panic .outOfBounds := by
  have habs : Int64.minValue.toInt.natAbs = 128 * 256 ^ 7 := by decide
  obtain ⟨c, rest, hrest, hwrite⟩ :=
    writeScriptint_eq out (n := Int64.minValue) (k := 7) (by rw [habs]; decide)
      (by rw [habs]; decide) (by decide)
  have htop : 128 * 256 ^ 7 / 256 ^ 7 = 128 := by decide
  rw [List.length_eq_zero_iff.1 hrest, habs] at hwrite
  have hend := indexSet_end (ε := Empty) (leBytes 7 (128 * 256 ^ 7) ++ [UInt8.ofNat 128])
    (if Int64.minValue < 0 then 0x80 else 0)
  rw [List.length_append, length_leBytes, List.length_singleton] at hend
  rw [hwrite]
  simp only [htop, indexSet_leBytes, Outcome.ok_bind]
  rw [if_pos (by decide), hend]
  rfl

/-! ## What is read -/

theorem foldl_scriptint (v : Bytes) (acc sh : ℕ) :
    v.foldl (fun (acc, sh) n => (acc + n.toNat <<< sh, sh + 8)) (acc, sh) =
      (acc + leNat v * 2 ^ sh, sh + 8 * v.length) := by
  induction v generalizing acc sh with
  | nil => simp [leNat]
  | cons b v ih =>
    rw [List.foldl_cons, ih, leNat, List.length_cons, Nat.shiftLeft_eq, Nat.pow_add]
    congr 1
    · ring
    · ring

theorem scriptintParse_eq_value (v : Bytes) (b : UInt8) : scriptintParse (v ++ [b]) = value (v ++ [b]) := by
  have hlast : (v ++ [b]).getD ((v ++ [b]).length - 1) 0 = b := by simp
  have hlt := leNat_lt_bound (v ++ [b])
  have hwidth : 1 <<< (8 * (v ++ [b]).length - 1) = bound (v ++ [b]).length := by
    have hexp : 8 * (v.length + 1) - 1 = 7 + 8 * v.length := by omega
    rw [List.length_append, List.length_singleton, bound, Nat.shiftLeft_eq, Nat.one_mul, hexp,
      Nat.pow_add, Nat.pow_mul]
  rw [scriptintParse, foldl_scriptint, hlast, value, if_congr (leNat_append_lt_bound_iff v b) rfl rfl]
  simp only [Nat.zero_add, Nat.pow_zero, Nat.mul_one, ne_eq, and_signBit_eq_zero_iff]
  by_cases hsign : b.toNat < 128
  · rw [if_neg (not_not.2 hsign), if_pos hsign]
  · have hge := (leNat_append_lt_bound_iff v b).not.2 hsign
    have hmod : leNat (v ++ [b]) % bound (v ++ [b]).length = leNat (v ++ [b]) - bound (v ++ [b]).length := by
      rw [Nat.mod_eq_sub_mod (Nat.le_of_not_lt hge), Nat.mod_eq_of_lt]
      omega
    have hmask : leNat (v ++ [b]) &&& (1 <<< (8 * (v ++ [b]).length - 1) - 1) =
        leNat (v ++ [b]) - bound (v ++ [b]).length := by
      rw [Nat.one_shiftLeft, Nat.and_two_pow_sub_one_eq_mod, ← Nat.one_shiftLeft, hwidth, hmod]
    rw [if_pos hsign, if_neg hsign, hmask]

/-- The test on the last two bytes: the number would fit on one byte less. -/
theorem nonMinimal_iff (v : Bytes) (b : UInt8) :
    (b &&& 0x7f = 0 ∧ ((v ++ [b]).length ≤ 1 ∨
      (v ++ [b]).getD ((v ++ [b]).length - 2) 0 &&& 0x80 = 0)) ↔
        (value (v ++ [b])).natAbs < bound v.length := by
  have hmod := Nat.mod_lt b.toNat (show 0 < 128 by decide)
  rw [and_magnitude_eq_zero_iff, and_signBit_eq_zero_iff, natAbs_value_append]
  rcases List.eq_nil_or_concat v with rfl | ⟨v, c, rfl⟩
  · simp [leNat, bound]
  · rw [List.concat_eq_append]
    have hsecond : (v ++ [c] ++ [b]).getD ((v ++ [c] ++ [b]).length - 2) 0 = c := by simp
    have hlong : ¬(v ++ [c] ++ [b]).length ≤ 1 := by simp
    have hbound := bound_le_pow (v ++ [c]).length
    rw [hsecond, ← leNat_append_lt_bound_iff v c]
    constructor
    · rintro ⟨hzero, hshort | hlt⟩
      · exact absurd hshort hlong
      · rwa [hzero, Nat.mul_zero, Nat.add_zero]
    · intro hlt
      have hzero : b.toNat % 128 = 0 := by
        by_contra hne
        have hmul : 256 ^ (v ++ [c]).length * 1 ≤ 256 ^ (v ++ [c]).length * (b.toNat % 128) :=
          Nat.mul_le_mul_left _ (Nat.one_le_iff_ne_zero.2 hne)
        omega
      refine ⟨hzero, .inr ?_⟩
      rwa [hzero, Nat.mul_zero, Nat.add_zero] at hlt

/-- The reader takes the shortest forms of at most four bytes. -/
theorem readScriptint_eq_ok_iff {v : Bytes} {n : ℤ} :
    readScriptint v = .ok n ↔ v.length ≤ 4 ∧ IsShortest v ∧ value v = n := by
  rcases List.eq_nil_or_concat v with rfl | ⟨v, b, rfl⟩
  · have hshortest : IsShortest [] := isShortest_iff.2 (.inl rfl)
    simp [readScriptint, hshortest, value, leNat, bound]
  · rw [List.concat_eq_append]
    have hshortest : IsShortest (v ++ [b]) ↔ ¬(value (v ++ [b])).natAbs < bound v.length := by
      rw [isShortest_iff, Nat.not_lt]
      simp
    rw [hshortest, ← nonMinimal_iff, readScriptint, List.getLast?_concat]
    by_cases hlong : (v ++ [b]).length > 4
    · simp only [if_pos hlong, reduceCtorEq, false_iff]
      omega
    · simp only [if_neg hlong]
      split_ifs with hmin
      · exact iff_of_false (by simp) fun h => h.2.1 hmin
      · rw [scriptintParse_eq_value, Except.ok.injEq]
        exact ⟨fun h => ⟨Nat.le_of_not_lt hlong, hmin, h⟩, fun h => h.2.2⟩

/-! ## Writing and reading -/

theorem scriptintBytes_of_ne_minValue (out : U8Array 8) {n : Int64} (h : n ≠ Int64.minValue) :
    ∃ len, scriptintBytes out n = .ok (encode len n.toInt) ∧ value (encode len n.toInt) = n.toInt ∧
      IsShortest (encode len n.toInt) := by
  obtain ⟨len, rest, hwrite, hlt, hle⟩ := writeScriptint_of_ne_minValue out h
  refine ⟨len, ?_, value_encode hlt, ?_⟩
  · have htake : (encode len n.toInt ++ rest).take len = encode len n.toInt :=
      List.take_left' (length_encode len n.toInt)
    rw [scriptintBytes, hwrite, Outcome.ok_bind]
    exact congrArg Outcome.ok htake
  · rw [isShortest_iff, length_encode, value_encode hlt]
    exact hle

/-- What is written for an integer is its shortest form. -/
theorem scriptintBytes_eq_ok_iff {out : U8Array 8} {n : Int64} {v : Bytes} :
    scriptintBytes out n = .ok v ↔ n ≠ Int64.minValue ∧ IsShortest v ∧ value v = n.toInt := by
  by_cases hmin : n = Int64.minValue
  · subst hmin
    rw [scriptintBytes, writeScriptint_minValue]
    simp
  · obtain ⟨len, hbytes, hvalue, hshortest⟩ := scriptintBytes_of_ne_minValue out hmin
    rw [hbytes, Outcome.ok.injEq]
    constructor
    · rintro rfl
      exact ⟨hmin, hshortest, hvalue⟩
    · rintro ⟨-, hv, heq⟩
      exact hshortest.unique hv (hvalue.trans heq.symm)

/-- A number that is read fits into four bytes. -/
theorem exists_toInt_eq {v : Bytes} (h : v.length ≤ 4) :
    ∃ m : Int64, m ≠ Int64.minValue ∧ m.toInt = value v := by
  have hlt := (natAbs_value_lt v).trans_le (bound_le h)
  have hfour : bound 4 = 2 ^ 31 := by decide
  have htoInt : (Int64.ofInt (value v)).toInt = value v :=
    Int64.toInt_ofInt_of_le (by omega) (by omega)
  refine ⟨Int64.ofInt (value v), ?_, htoInt⟩
  intro hmin
  rw [hmin, Int64.toInt_minValue] at htoInt
  omega

/-- The reader inverts the writer on at most four bytes, and the writer leaves the shortest form of every
integer that has an opposite. -/
theorem readScriptint_iff_written_and_shortest_iff (out : U8Array 8) :
    (∀ v n, readScriptint v = .ok n ↔
      v.length ≤ 4 ∧ ∃ m : Int64, m.toInt = n ∧ scriptintBytes out m = .ok v) ∧
    ∀ n, (∃ v, scriptintBytes out n = .ok v ∧ value v = n.toInt ∧ IsShortest v) ↔ n ≠ Int64.minValue := by
  constructor
  · intro v n
    rw [readScriptint_eq_ok_iff]
    constructor
    · rintro ⟨hlength, hshortest, rfl⟩
      obtain ⟨m, hmin, hm⟩ := exists_toInt_eq hlength
      exact ⟨hlength, m, hm, scriptintBytes_eq_ok_iff.2 ⟨hmin, hshortest, hm.symm⟩⟩
    · rintro ⟨hlength, m, rfl, hbytes⟩
      obtain ⟨-, hshortest, hvalue⟩ := scriptintBytes_eq_ok_iff.1 hbytes
      exact ⟨hlength, hshortest, hvalue⟩
  · intro n
    constructor
    · rintro ⟨v, hbytes, -⟩
      exact (scriptintBytes_eq_ok_iff.1 hbytes).1
    · intro hmin
      obtain ⟨len, hwritten⟩ := scriptintBytes_of_ne_minValue out hmin
      exact ⟨_, hwritten⟩

/-- The least `i64` takes nine bytes. -/
theorem writeScriptint_minValue_outOfBounds :
    scriptintBytes (U8Array.replicate 8 0) Int64.minValue = .panic .outOfBounds ∧
      ¬∃ v, scriptintBytes (U8Array.replicate 8 0) Int64.minValue = .ok v ∧
        value v = Int64.minValue.toInt ∧ IsShortest v := by
  rw [scriptintBytes, writeScriptint_minValue]
  simp

example : readScriptint [0xff, 0x80] = .ok (-255) := by decide

end RustDogecoin
