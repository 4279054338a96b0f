import RustDogecoin.Blockdata.Transaction

/-!
# Output scripts

The standard output scripts of `blockdata/script`: how they are built and how they are recognised.  The
builders of `owned.rs` put opcodes and pushes together; the tests of `borrowed.rs` look at single bytes and
at the length.  For every kind of script, the test accepts exactly what the builder makes (`isP2pkh_iff`,
`isP2sh_iff`, `witnessVersion_eq_some_iff`).
-/

namespace RustDogecoin

abbrev PubkeyHash := U8Array 20

abbrev ScriptHash := U8Array 20

/-! ## Opcodes -/

def OP_PUSHBYTES_0 : UInt8 := 0x00

def OP_PUSHBYTES_2 : UInt8 := 0x02

def OP_PUSHBYTES_20 : UInt8 := 0x14

def OP_PUSHBYTES_32 : UInt8 := 0x20

def OP_PUSHBYTES_40 : UInt8 := 0x28

def OP_PUSHDATA1 : UInt8 := 0x4c

def OP_PUSHDATA2 : UInt8 := 0x4d

def OP_PUSHDATA4 : UInt8 := 0x4e

def OP_PUSHNUM_1 : UInt8 := 0x51

def OP_PUSHNUM_16 : UInt8 := 0x60

def OP_DUP : UInt8 := 0x76

def OP_EQUAL : UInt8 := 0x87

def OP_EQUALVERIFY : UInt8 := 0x88

def OP_HASH160 : UInt8 := 0xa9

def OP_CHECKSIG : UInt8 := 0xac

/-! ## Building scripts -/

/-- `PushBytes`: bytes that fit into one push. -/
structure PushBytes where
  bytes : Bytes
  length_lt : bytes.length < 2 ^ 32

/-- A short array, as bytes to push. -/
def PushBytes.ofArray {n : ℕ} (a : U8Array n) (h : n < 2 ^ 32) : PushBytes := ⟨a.toList, by simpa using h⟩

namespace ScriptBuf

/-- `ScriptBuf::push_opcode`. -/
def pushOpcode (script : ScriptBuf) (data : UInt8) : ScriptBuf := script ++ [data]

/-- `ScriptBuf::push_slice`; the bytes are too few for the branch that panics. -/
def pushSlice (script : ScriptBuf) (data : PushBytes) : ScriptBuf :=
  let n := data.bytes.length
  if n < OP_PUSHDATA1.toNat then script ++ [UInt8.ofNat n] ++ data.bytes
  else if n < 0x100 then script ++ [OP_PUSHDATA1, UInt8.ofNat n] ++ data.bytes
  else if n < 0x10000 then
    script ++ [OP_PUSHDATA2, UInt8.ofNat (n % 0x100), UInt8.ofNat (n / 0x100)] ++ data.bytes
  else script ++ [OP_PUSHDATA4, UInt8.ofNat (n % 0x100), UInt8.ofNat (n / 0x100 % 0x100),
    UInt8.ofNat (n / 0x10000 % 0x100), UInt8.ofNat (n / 0x1000000)] ++ data.bytes

/-- `ScriptBuf::new_p2pkh`. -/
def newP2pkh (pubkeyHash : PubkeyHash) : ScriptBuf :=
  ((((pushOpcode [] OP_DUP).pushOpcode OP_HASH160).pushSlice (.ofArray pubkeyHash (by decide))).pushOpcode
    OP_EQUALVERIFY).pushOpcode OP_CHECKSIG

/-- `ScriptBuf::new_p2sh`. -/
def newP2sh (scriptHash : ScriptHash) : ScriptBuf :=
  ((pushOpcode [] OP_HASH160).pushSlice (.ofArray scriptHash (by decide))).pushOpcode OP_EQUAL

/-- `ScriptBuf::p2wpkh_script_code`. -/
def p2wpkhScriptCode (wpkh : U8Array 20) : ScriptBuf :=
  ((((pushOpcode [] OP_DUP).pushOpcode OP_HASH160).pushSlice (.ofArray wpkh (by decide))).pushOpcode
    OP_EQUALVERIFY).pushOpcode OP_CHECKSIG

theorem pushSlice_of_lt {data : PushBytes} (h : data.bytes.length < 0x4c) (script : ScriptBuf) :
    pushSlice script data = script ++ [UInt8.ofNat data.bytes.length] ++ data.bytes := if_pos h

theorem newP2pkh_eq (hash : PubkeyHash) :
    newP2pkh hash = [OP_DUP, OP_HASH160, OP_PUSHBYTES_20] ++ hash.toList ++ [OP_EQUALVERIFY, OP_CHECKSIG] := by
  have hlt : (PushBytes.ofArray hash (by decide)).bytes.length < 0x4c := by simp [PushBytes.ofArray]
  rw [newP2pkh, pushSlice_of_lt hlt]
  simp [pushOpcode, PushBytes.ofArray, OP_PUSHBYTES_20]

theorem newP2sh_eq (hash : ScriptHash) :
    newP2sh hash = [OP_HASH160, OP_PUSHBYTES_20] ++ hash.toList ++ [OP_EQUAL] := by
  have hlt : (PushBytes.ofArray hash (by decide)).bytes.length < 0x4c := by simp [PushBytes.ofArray]
  rw [newP2sh, pushSlice_of_lt hlt]
  simp [pushOpcode, PushBytes.ofArray, OP_PUSHBYTES_20]

/-- Where the hash stands in a P2PKH script. -/
theorem take_drop_newP2pkh (hash : PubkeyHash) : ((newP2pkh hash).drop 3).take 20 = hash.toList := by
  rw [newP2pkh_eq]
  simp

/-- Where the hash stands in a P2SH script. -/
theorem take_drop_newP2sh (hash : ScriptHash) : ((newP2sh hash).drop 2).take 20 = hash.toList := by
  rw [newP2sh_eq]
  simp

end ScriptBuf

/-! ## Witness programs -/

/-- `WitnessVersion`. -/
inductive WitnessVersion where
  | v0 | v1 | v2 | v3 | v4 | v5 | v6 | v7 | v8 | v9 | v10 | v11 | v12 | v13 | v14 | v15 | v16
  deriving DecidableEq, Repr

namespace WitnessVersion

/-- `WitnessVersion::to_num`. -/
def toNum : WitnessVersion → UInt8
  | v0 => 0 | v1 => 1 | v2 => 2 | v3 => 3 | v4 => 4 | v5 => 5 | v6 => 6 | v7 => 7 | v8 => 8
  | v9 => 9 | v10 => 10 | v11 => 11 | v12 => 12 | v13 => 13 | v14 => 14 | v15 => 15 | v16 => 16

/-- `TryFrom<u8> for WitnessVersion`; the error holds the byte. -/
def tryFromU8 (no : UInt8) : Outcome UInt8 WitnessVersion :=
  match no.toNat with
  | 0 => .ok v0 | 1 => .ok v1 | 2 => .ok v2 | 3 => .ok v3 | 4 => .ok v4 | 5 => .ok v5 | 6 => .ok v6
  | 7 => .ok v7 | 8 => .ok v8 | 9 => .ok v9 | 10 => .ok v10 | 11 => .ok v11 | 12 => .ok v12
  | 13 => .ok v13 | 14 => .ok v14 | 15 => .ok v15 | 16 => .ok v16
  | _ => .err no

/-- `TryFrom<Opcode> for WitnessVersion`; the error holds the opcode. -/
def tryFromOpcode (opcode : UInt8) : Outcome UInt8 WitnessVersion :=
  if opcode = 0 then .ok v0
  else if OP_PUSHNUM_1 ≤ opcode ∧ opcode ≤ OP_PUSHNUM_16 then tryFromU8 (opcode - OP_PUSHNUM_1 + 1)
  else .err opcode

/-- `From<WitnessVersion> for Opcode`. -/
def toOpcode : WitnessVersion → UInt8
  | v0 => OP_PUSHBYTES_0
  | no => OP_PUSHNUM_1 + no.toNum - 1

theorem tryFromOpcode_toOpcode (v : WitnessVersion) : tryFromOpcode v.toOpcode = .ok v := by
  cases v <;> rfl

/-- No other opcode stands for a version. -/
theorem toOpcode_of_tryFromOpcode : ∀ n : Fin 256,
    (match tryFromOpcode (UInt8.ofFin n) with
      | .ok v => v.toOpcode == UInt8.ofFin n
      | _ => true) = true := by
  decide +kernel

theorem tryFromOpcode_eq_ok_iff {opcode : UInt8} {v : WitnessVersion} :
    tryFromOpcode opcode = .ok v ↔ opcode = v.toOpcode := by
  constructor
  · intro h
    have hback := toOpcode_of_tryFromOpcode opcode.toFin
    rw [UInt8.ofFin_toFin, h] at hback
    exact (beq_iff_eq.1 hback).symm
  · rintro rfl
    exact tryFromOpcode_toOpcode v

theorem toOpcode_injective : Function.Injective toOpcode := by
  intro v w h
  apply Outcome.ok.inj (ε := UInt8)
  rw [← tryFromOpcode_toOpcode v, h, tryFromOpcode_toOpcode w]

end WitnessVersion

/-! ## Recognising scripts -/

namespace Script

/-- `Script::witness_version`. -/
def witnessVersion (s : ScriptBuf) : Option WitnessVersion :=
  let scriptLen := s.length
  if ¬(4 ≤ scriptLen ∧ scriptLen ≤ 42) then none
  else
    let verOpcode := s.getD 0 0
    let pushOpbyte := s.getD 1 0
    if pushOpbyte < OP_PUSHBYTES_2 ∨ OP_PUSHBYTES_40 < pushOpbyte then none
    else if scriptLen - 2 ≠ pushOpbyte.toNat then none
    else match WitnessVersion.tryFromOpcode verOpcode with
      | .ok v => some v
      | _ => none

/-- `Script::is_p2sh`. -/
def isP2sh (s : ScriptBuf) : Bool :=
  s.length == 23 && s.getD 0 0 == OP_HASH160 && s.getD 1 0 == OP_PUSHBYTES_20 && s.getD 22 0 == OP_EQUAL

/-- `Script::is_p2pkh`. -/
def isP2pkh (s : ScriptBuf) : Bool :=
  s.length == 25 && s.getD 0 0 == OP_DUP && s.getD 1 0 == OP_HASH160 && s.getD 2 0 == OP_PUSHBYTES_20 &&
    s.getD 23 0 == OP_EQUALVERIFY && s.getD 24 0 == OP_CHECKSIG

/-- `Script::is_witness_program`. -/
def isWitnessProgram (s : ScriptBuf) : Bool := (witnessVersion s).isSome

/-- The tests of `is_p2wsh`, `is_p2wpkh` and `is_p2tr`. -/
def isVersionedPush (len : ℕ) (version : WitnessVersion) (push : UInt8) (s : ScriptBuf) : Bool :=
  s.length == len && witnessVersion s == some version && s.getD 1 0 == push

/-- `Script::is_p2wsh`. -/
def isP2wsh (s : ScriptBuf) : Bool := isVersionedPush 34 .v0 OP_PUSHBYTES_32 s

/-- `Script::is_p2wpkh`. -/
def isP2wpkh (s : ScriptBuf) : Bool := isVersionedPush 22 .v0 OP_PUSHBYTES_20 s

/-- `Script::is_p2tr`. -/
def isP2tr (s : ScriptBuf) : Bool := isVersionedPush 34 .v1 OP_PUSHBYTES_32 s

/-- `Script::p2wpkh_script_code`. -/
def p2wpkhScriptCode (s : ScriptBuf) : Outcome Empty (Option ScriptBuf) :=
  if isP2wpkh s then
    if h : (s.drop 2).length = 20 then .ok (some (ScriptBuf.p2wpkhScriptCode ⟨s.drop 2, h⟩))
    else .panic .unwrap
  else .ok none

/-- The last byte of a script. -/
theorem eq_take_append_getD {s : Bytes} {n : ℕ} (h : s.length = n + 1) : s = s.take n ++ [s.getD n 0] := by
  have hlt : n < s.length := by omega
  have hlast : s.drop n = [s.getD n 0] := by
    rw [List.drop_eq_getElem_cons hlt, List.drop_of_length_le (by omega)]
    simp [List.getD_eq_getElem?_getD, List.getElem?_eq_getElem hlt]
  rw [← hlast, List.take_append_drop]

/-- The first two bytes of a script. -/
theorem eq_cons_cons_drop {s : Bytes} (h : 2 ≤ s.length) : s = s.getD 0 0 :: s.getD 1 0 :: s.drop 2 := by
  match s, h with
  | _ :: _ :: _, _ => rfl

theorem isP2sh_iff {s : ScriptBuf} : isP2sh s = true ↔ ∃ hash : ScriptHash, s = ScriptBuf.newP2sh hash := by
  constructor
  · intro h
    simp only [isP2sh, Bool.and_eq_true, beq_iff_eq] at h
    obtain ⟨⟨⟨hlen, h0⟩, h1⟩, h22⟩ := h
    refine ⟨⟨(s.drop 2).take 20, by simp [hlen]⟩, ?_⟩
    have htail : s.drop 2 = (s.drop 2).take 20 ++ [(s.drop 2).getD 20 0] :=
      eq_take_append_getD (by simp [hlen])
    rw [ScriptBuf.newP2sh_eq]
    have hget : (s.drop 2).getD 20 0 = s.getD 22 0 := by simp [List.getD_eq_getElem?_getD]
    conv_lhs => rw [eq_cons_cons_drop (s := s) (by omega), htail, hget, h0, h1, h22]
    simp
  · rintro ⟨hash, rfl⟩
    rw [ScriptBuf.newP2sh_eq]
    simp [isP2sh, List.getD_eq_getElem?_getD]

theorem isP2pkh_iff {s : ScriptBuf} :
    isP2pkh s = true ↔ ∃ hash : PubkeyHash, s = ScriptBuf.newP2pkh hash := by
  constructor
  · intro h
    simp only [isP2pkh, Bool.and_eq_true, beq_iff_eq] at h
    obtain ⟨⟨⟨⟨⟨hlen, h0⟩, h1⟩, h2⟩, h23⟩, h24⟩ := h
    refine ⟨⟨(s.drop 3).take 20, by simp [hlen]⟩, ?_⟩
    have hhead : s.drop 2 = s.getD 2 0 :: s.drop 3 := by
      rw [List.drop_eq_getElem_cons (by omega)]
      simp [List.getD_eq_getElem?_getD, hlen]
    have htail : s.drop 3 = (s.drop 3).take 20 ++ [s.getD 23 0, s.getD 24 0] := by
      have hone : s.drop 3 = (s.drop 3).take 21 ++ [(s.drop 3).getD 21 0] :=
        eq_take_append_getD (by simp [hlen])
      have htwo : (s.drop 3).take 21 = ((s.drop 3).take 21).take 20 ++ [((s.drop 3).take 21).getD 20 0] :=
        eq_take_append_getD (by simp [hlen])
      rw [htwo, List.take_take] at hone
      simpa [List.getD_eq_getElem?_getD] using hone
    rw [ScriptBuf.newP2pkh_eq]
    conv_lhs => rw [eq_cons_cons_drop (s := s) (by omega), hhead, htail, h0, h1, h2, h23, h24]
    simp
  · rintro ⟨hash, rfl⟩
    rw [ScriptBuf.newP2pkh_eq]
    simp [isP2pkh, List.getD_eq_getElem?_getD]

theorem isP2pkh_newP2pkh (hash : PubkeyHash) : isP2pkh (ScriptBuf.newP2pkh hash) = true :=
  isP2pkh_iff.2 ⟨hash, rfl⟩

theorem isP2sh_newP2sh (hash : ScriptHash) : isP2sh (ScriptBuf.newP2sh hash) = true :=
  isP2sh_iff.2 ⟨hash, rfl⟩

theorem isP2pkh_newP2sh (hash : ScriptHash) : isP2pkh (ScriptBuf.newP2sh hash) = false := by
  rw [ScriptBuf.newP2sh_eq]
  simp [isP2pkh]

/-- The test for a kind of script and the comparison of the hash in it find the script of the hash. -/
theorem matches_iff {test : ScriptBuf → Bool} {build : U8Array 20 → ScriptBuf} {n : ℕ}
    (htest : ∀ s, test s = true ↔ ∃ hash, s = build hash)
    (hhash : ∀ hash, ((build hash).drop n).take 20 = hash.toList) (hash : U8Array 20) (s : ScriptBuf) :
    (if test s then (s.drop n).take 20 == hash.toList else false) = true ↔ build hash = s := by
  constructor
  · intro h
    split_ifs at h with ht
    obtain ⟨hash', rfl⟩ := (htest s).1 ht
    rw [hhash, beq_iff_eq] at h
    rw [U8Array.ext h]
  · rintro rfl
    rw [if_pos ((htest _).2 ⟨hash, rfl⟩), hhash, beq_iff_eq]

/-- A witness program: a version and a push of two to forty bytes. -/
theorem witnessVersion_eq_some_iff {s : ScriptBuf} {v : WitnessVersion} :
    witnessVersion s = some v ↔ ∃ program : Bytes, 2 ≤ program.length ∧ program.length ≤ 40 ∧
      s = v.toOpcode :: UInt8.ofNat program.length :: program := by
  unfold witnessVersion
  constructor
  · intro h
    simp only at h
    split_ifs at h with hlen hpush hsize
    rw [not_not] at hsize
    refine ⟨s.drop 2, by simp; omega, by simp; omega, ?_⟩
    have hver : WitnessVersion.tryFromOpcode (s.getD 0 0) = .ok v := by
      split at h
      · rename_i w hw
        rw [hw, Option.some.inj h]
      · cases h
    have hbyte : UInt8.ofNat (s.drop 2).length = s.getD 1 0 := by
      rw [List.length_drop, hsize, UInt8.ofNat_toNat]
    rw [hbyte, ← WitnessVersion.tryFromOpcode_eq_ok_iff.1 hver]
    exact eq_cons_cons_drop (by omega)
  · rintro ⟨program, hmin, hmax, rfl⟩
    have hbyte : (UInt8.ofNat program.length).toNat = program.length :=
      UInt8.toNat_ofNat_of_lt' (by rw [UInt8.size]; omega)
    have hpush : ¬(UInt8.ofNat program.length < OP_PUSHBYTES_2 ∨ OP_PUSHBYTES_40 < UInt8.ofNat program.length) := by
      rw [UInt8.lt_iff_toNat_lt, UInt8.lt_iff_toNat_lt, hbyte]
      show ¬(program.length < 2 ∨ 40 < program.length)
      omega
    simp only [List.length_cons, List.getD_cons_zero, List.getD_cons_succ]
    rw [if_neg (by omega), if_neg hpush, if_neg (by rw [hbyte]; omega),
      WitnessVersion.tryFromOpcode_toOpcode]

theorem isWitnessProgram_iff {s : ScriptBuf} :
    isWitnessProgram s = true ↔ ∃ (v : WitnessVersion) (program : Bytes), 2 ≤ program.length ∧
      program.length ≤ 40 ∧ s = v.toOpcode :: UInt8.ofNat program.length :: program := by
  rw [isWitnessProgram, Option.isSome_iff_exists]
  exact exists_congr fun v => witnessVersion_eq_some_iff

/-- The script code is there exactly for the scripts that ask for it. -/
theorem p2wpkhScriptCode_eq {s : ScriptBuf} :
    ∃ code, p2wpkhScriptCode s = .ok code ∧ (code.isSome ↔ isP2wpkh s = true) := by
  unfold p2wpkhScriptCode
  by_cases h : isP2wpkh s = true
  · have hlen : (s.drop 2).length = 20 := by
      simp only [isP2wpkh, isVersionedPush, Bool.and_eq_true, beq_iff_eq] at h
      rw [List.length_drop, h.1.1]
    rw [if_pos h, dif_pos hlen]
    exact ⟨_, rfl, iff_of_true rfl h⟩
  · rw [if_neg h]
    exact ⟨none, rfl, iff_of_false (by simp) h⟩

end Script

end RustDogecoin
