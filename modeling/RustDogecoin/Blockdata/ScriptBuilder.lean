import RustDogecoin.Blockdata.RelativeLockTime
import RustDogecoin.Blockdata.ScriptExtend
import RustDogecoin.Blockdata.ScriptInt
import RustDogecoin.Crypto.CurveFormats

/-!
# The script builder

`Builder` of `blockdata/script/builder.rs` keeps the last opcode that it pushed, so that `push_verify` need
not read the script again.  The opcode in the cache and the one that `last_opcode` finds have the same
`VERIFY` form after every operation (`Builder.Invariant`).  They are not always the same opcode: a zero is
pushed as an opcode and read as an empty push.
-/

namespace RustDogecoin

def OP_VERIFY : UInt8 := 0x69

def OP_NUMEQUAL : UInt8 := 0x9c

def OP_NUMEQUALVERIFY : UInt8 := 0x9d

/-- `opcode_to_verify`. -/
def opcodeToVerify (opcode : Option UInt8) : Option UInt8 :=
  opcode.bind fun opcode =>
    if opcode = OP_EQUAL then some OP_EQUALVERIFY
    else if opcode = OP_NUMEQUAL then some OP_NUMEQUALVERIFY
    else if opcode = OP_CHECKSIG then some OP_CHECKSIGVERIFY
    else if opcode = OP_CHECKMULTISIG then some OP_CHECKMULTISIGVERIFY
    else none

/-- Returns the opcode if the instruction is not a data push. -/
def Instruction.opcode : Instruction → Option UInt8
  | .op data => some data
  | .pushBytes _ => none

namespace ScriptBuf

/-- Iterates the script to find the last opcode. -/
def lastOpcode (script : ScriptBuf) : Option UInt8 :=
  match (instructions script).items.getLast? with
  | some (.ok (.op op)) => some op
  | _ => none

/-- Adds an `OP_VERIFY` to the script or changes the most-recently-added opcode to `VERIFY` alternative. -/
def pushVerify (script : ScriptBuf) (lastOpcode : Option UInt8) : ScriptBuf :=
  match opcodeToVerify lastOpcode with
  | some opcode => ScriptBuf.pushOpcode script.dropLast opcode
  | none => script.pushOpcode OP_VERIFY

/-- `ScriptBuf::scan_and_push_verify`. -/
def scanAndPushVerify (script : ScriptBuf) : ScriptBuf := script.pushVerify script.lastOpcode

end ScriptBuf

/-- `&<&PushBytes>::from(&buf)[..len]`. -/
def PushBytes.upTo (buf : Bytes) (len : ℕ) : Outcome Empty PushBytes := do
  .require (len ≤ buf.length) .outOfBounds
  if h : (buf.take len).length < 2 ^ 32 then return ⟨buf.take len, h⟩ else .panic .unwrap

/-- An object which can be used to construct a script piece by piece: the script, and the last opcode. -/
structure Builder where
  script : ScriptBuf
  lastOp : Option UInt8
  deriving DecidableEq

namespace Builder

variable {S : KeyFormats}

/-- Creates a new empty script. -/
def new : Builder := ⟨[], none⟩

/-- `From<Vec<u8>> for Builder`. -/
def fromVec (v : Bytes) : Builder := ⟨v, ScriptBuf.lastOpcode v⟩

/-- Adds instructions to push some arbitrary data onto the stack. -/
def pushSlice (b : Builder) (data : PushBytes) : Builder := ⟨b.script.pushSlice data, none⟩

/-- Adds a single opcode to the script. -/
def pushOpcode (b : Builder) (data : UInt8) : Builder := ⟨b.script.pushOpcode data, some data⟩

/-- Adds instructions to push an integer onto the stack without optimization. -/
def pushIntNonMinimal (b : Builder) (data : Int64) : Outcome Empty Builder := do
  let (buf, len) ← writeScriptint (.replicate 8 0) data
  let bytes ← PushBytes.upTo buf len
  return b.pushSlice bytes

/-- Adds instructions to push an integer onto the stack. -/
def pushInt (b : Builder) (data : Int64) : Outcome Empty Builder :=
  if data = -1 ∨ 1 ≤ data ∧ data ≤ 16 then
    return b.pushOpcode (data - 1 + OP_PUSHNUM_1.toUInt64.toInt64).toInt8.toUInt8
  else if data = 0 then return b.pushOpcode OP_PUSHBYTES_0
  else b.pushIntNonMinimal data

/-- Adds instructions to push a public key onto the stack. -/
def pushKey (b : Builder) (key : PublicKey S) : Builder :=
  if key.compressed then b.pushSlice (.ofArray (S.serialize key.inner) (by decide))
  else b.pushSlice (.ofArray (S.serializeUncompressed key.inner) (by decide))

/-- Adds instructions to push an XOnly public key onto the stack. -/
def pushXOnlyKey (b : Builder) (xOnlyKey : S.XOnlyPublicKey) : Builder :=
  b.pushSlice (.ofArray (S.xOnlySerialize xOnlyKey) (by decide))

/-- Adds an `OP_VERIFY` to the script or replaces the last opcode with VERIFY form. -/
def pushVerify (b : Builder) : Builder :=
  match opcodeToVerify b.lastOp with
  | some opcode => Builder.pushOpcode { b with script := b.script.dropLast } opcode
  | none => b.pushOpcode OP_VERIFY

/-- Adds instructions to push an absolute lock time onto the stack. -/
def pushLockTime (b : Builder) (lockTime : LockTime) : Outcome Empty Builder :=
  b.pushInt lockTime.toConsensusU32.toUInt64.toInt64

/-- Adds instructions to push a sequence number onto the stack. -/
def pushSequence (b : Builder) (sequence : Sequence) : Outcome Empty Builder :=
  b.pushInt sequence.toUInt64.toInt64

/-! ## Runs -/

/-- The operations of a builder. -/
inductive Call (S : KeyFormats) where
  | int (data : Int64)
  | intNonMinimal (data : Int64)
  | slice (data : PushBytes)
  | key (key : PublicKey S)
  | xOnlyKey (key : S.XOnlyPublicKey)
  | opcode (data : UInt8)
  | verify
  | lockTime (lockTime : LockTime)
  | sequence (sequence : Sequence)

def call (b : Builder) : Call S → Outcome Empty Builder
  | .int data => b.pushInt data
  | .intNonMinimal data => b.pushIntNonMinimal data
  | .slice data => return b.pushSlice data
  | .key key => return b.pushKey key
  | .xOnlyKey key => return b.pushXOnlyKey key
  | .opcode data => return b.pushOpcode data
  | .verify => return b.pushVerify
  | .lockTime lockTime => b.pushLockTime lockTime
  | .sequence sequence => b.pushSequence sequence

def run (b : Builder) (calls : List (Call S)) : Outcome Empty Builder := calls.foldlM call b

/-- Opcodes that are followed by data are not pushed as opcodes. -/
def Call.Valid : Call S → Prop
  | .opcode data => OP_PUSHDATA4 < data
  | _ => True

/-- The empty builder, or a builder from the bytes of a script without errors. -/
def Start (b : Builder) : Prop :=
  b = new ∨ ∃ (v : Bytes) (is : List Instruction),
    (ScriptBuf.instructions v).items = is.map .ok ∧ b = fromVec v

/-- The script is without errors, and the cache leads to the form that its last instruction leads to. -/
structure Invariant (b : Builder) : Prop where
  complete : ∃ is : List Instruction, (ScriptBuf.instructions b.script).items = is.map .ok
  cache : opcodeToVerify b.lastOp = opcodeToVerify b.script.lastOpcode

/-! ## One operation -/

/-- An instruction at the end of a script without errors. -/
theorem items_append_reads {script raw : Bytes} {is : List Instruction} {i : Instruction}
    (h : (ScriptBuf.instructions script).items = is.map .ok) (hi : i.Reads false raw) :
    (ScriptBuf.instructions (script ++ raw)).items = (is ++ [i]).map .ok := by
  have happend := Instructions.items_append h raw
  rw [Instructions.items_reads hi] at happend
  rw [List.map_append]
  exact happend

theorem lastOpcode_append {script : Bytes} {is : List Instruction} {i : Instruction}
    (h : (ScriptBuf.instructions script).items = (is ++ [i]).map .ok) :
    ScriptBuf.lastOpcode script = i.opcode := by
  rw [ScriptBuf.lastOpcode, h, List.map_append, List.map_singleton, List.getLast?_append]
  cases i <;> rfl

/-- A builder that has one more instruction, and the cache for it. -/
theorem Invariant.append {b : Builder} (h : b.Invariant) {raw : Bytes} {i : Instruction}
    (hi : i.Reads false raw) {lastOp : Option UInt8}
    (hlast : opcodeToVerify lastOp = opcodeToVerify i.opcode) : Invariant ⟨b.script ++ raw, lastOp⟩ := by
  obtain ⟨is, his⟩ := h.complete
  have hitems := items_append_reads his hi
  exact ⟨⟨_, hitems⟩, by rw [lastOpcode_append hitems, hlast]⟩

theorem Invariant.pushOpcode {b : Builder} (h : b.Invariant) {data : UInt8} (hdata : OP_PUSHDATA4 < data) :
    (b.pushOpcode data).Invariant :=
  h.append (i := .op data) ⟨⟨hdata, rfl⟩, nofun⟩ rfl

theorem Invariant.pushSlice {b : Builder} (h : b.Invariant) (data : PushBytes) :
    (b.pushSlice data).Invariant := by
  have hi : (Instruction.pushBytes data).Reads false (Instruction.pushBytes data).bytes :=
    ⟨⟨_, ((PushForm.ofLen_eq_iff data.length_lt).1 rfl).2, rfl⟩, nofun⟩
  rw [Builder.pushSlice, ScriptBuf.pushSlice_eq]
  exact h.append hi rfl

/-- A zero is pushed as an opcode that has no other form, and read as an empty push. -/
theorem Invariant.pushZero {b : Builder} (h : b.Invariant) : (b.pushOpcode OP_PUSHBYTES_0).Invariant :=
  h.append (i := .pushBytes .empty) ⟨⟨.direct, by decide, rfl⟩, nofun⟩ (by decide)

theorem Invariant.pushIntNonMinimal {b b' : Builder} (h : b.Invariant) {data : Int64}
    (hrun : b.pushIntNonMinimal data = .ok b') : b'.Invariant := by
  obtain ⟨⟨buf, len⟩, -, hrest⟩ := Outcome.bind_eq_ok_iff.1 hrun
  obtain ⟨bytes, -, hb'⟩ := Outcome.bind_eq_ok_iff.1 hrest
  cases hb'
  exact h.pushSlice bytes

theorem smallInt_opcode {data : Int64} (h : data = -1 ∨ 1 ≤ data ∧ data ≤ 16) :
    OP_PUSHDATA4 < (data - 1 + OP_PUSHNUM_1.toUInt64.toInt64).toInt8.toUInt8 := by
  rcases h with rfl | ⟨hmin, hmax⟩
  · decide
  · have hall : ∀ n : Fin 17, 1 ≤ n.val → OP_PUSHDATA4 <
        (Int64.ofInt n.val - 1 + OP_PUSHNUM_1.toUInt64.toInt64).toInt8.toUInt8 := by decide +kernel
    rw [Int64.le_iff_toInt_le] at hmin hmax
    have hone : (1 : Int64).toInt = 1 := by decide
    have hsixteen : (16 : Int64).toInt = 16 := by decide
    rw [hone] at hmin
    rw [hsixteen] at hmax
    have hdata : data = Int64.ofInt (data.toInt.toNat : ℤ) := by
      rw [Int.toNat_of_nonneg (by omega), Int64.ofInt_toInt]
    rw [hdata]
    exact hall ⟨data.toInt.toNat, by omega⟩ (by show 1 ≤ data.toInt.toNat; omega)

theorem Invariant.pushInt {b b' : Builder} (h : b.Invariant) {data : Int64} (hrun : b.pushInt data = .ok b') :
    b'.Invariant := by
  unfold Builder.pushInt at hrun
  split_ifs at hrun with hsmall hzero
  · cases hrun
    exact h.pushOpcode (smallInt_opcode hsmall)
  · cases hrun
    exact h.pushZero
  · exact h.pushIntNonMinimal hrun

/-- The last opcode is the last byte, and what is before it is without errors. -/
theorem items_dropLast {script : Bytes} {is : List Instruction} {op : UInt8}
    (h : (ScriptBuf.instructions script).items = is.map .ok) (hlast : ScriptBuf.lastOpcode script = some op) :
    script = script.dropLast ++ [op] ∧
      ∃ is' : List Instruction, (ScriptBuf.instructions script.dropLast).items = is'.map .ok := by
  obtain ⟨pieces, rfl, rfl, hreads⟩ := Instructions.items_eq_map_ok_iff.1 h
  rcases List.eq_nil_or_concat pieces with rfl | ⟨pieces, ⟨raw, i⟩, rfl⟩
  · cases hlast
  · rw [List.concat_eq_append] at h hlast hreads ⊢
    have hi := hreads _ (List.mem_append_right pieces (List.mem_singleton_self _))
    have happend := @lastOpcode_append _ (pieces.map Prod.snd) i (by rw [h, List.map_append]; rfl)
    rw [happend] at hlast
    cases i with
    | pushBytes data => cases hlast
    | op opcode =>
      cases hlast
      obtain ⟨⟨-, rfl⟩, -⟩ := hi
      rw [List.map_append, List.flatten_append]
      simp only [List.map_cons, List.map_nil, List.flatten_cons, List.flatten_nil, List.append_nil,
        List.dropLast_concat, true_and]
      exact ⟨pieces.map Prod.snd, Instructions.items_eq_map_ok_iff.2
        ⟨pieces, rfl, rfl, fun p hp => hreads p (List.mem_append_left _ hp)⟩⟩

theorem opcodeToVerify_eq_some {lastOp : Option UInt8} {opcode : UInt8}
    (h : opcodeToVerify lastOp = some opcode) : lastOp.isSome ∧ OP_PUSHDATA4 < opcode := by
  cases lastOp with
  | none => cases h
  | some op =>
    refine ⟨rfl, ?_⟩
    simp only [opcodeToVerify, Option.bind_some] at h
    split_ifs at h <;> cases h <;> decide

theorem pushVerify_of_none {b : Builder} (h : opcodeToVerify b.lastOp = none) :
    b.pushVerify = b.pushOpcode OP_VERIFY := by simp only [pushVerify, h]

theorem pushVerify_of_some {b : Builder} {opcode : UInt8} (h : opcodeToVerify b.lastOp = some opcode) :
    b.pushVerify = ⟨b.script.dropLast ++ [opcode], some opcode⟩ := by
  simp only [pushVerify, h]
  rfl

theorem Invariant.pushVerify {b : Builder} (h : b.Invariant) : b.pushVerify.Invariant := by
  cases hverify : opcodeToVerify b.lastOp with
  | none =>
    rw [pushVerify_of_none hverify]
    exact h.pushOpcode (by decide)
  | some opcode =>
    obtain ⟨-, hopcode⟩ := opcodeToVerify_eq_some hverify
    obtain ⟨hsome, -⟩ := opcodeToVerify_eq_some (h.cache.symm.trans hverify)
    obtain ⟨op, hop⟩ := Option.isSome_iff_exists.1 hsome
    obtain ⟨is, his⟩ := h.complete
    obtain ⟨-, is', his'⟩ := items_dropLast his hop
    have hitems := items_append_reads (i := .op opcode) his' ⟨⟨hopcode, rfl⟩, nofun⟩
    rw [pushVerify_of_some hverify]
    exact ⟨⟨_, hitems⟩, by rw [lastOpcode_append hitems, Instruction.opcode]⟩

/-- Every operation keeps the invariant. -/
theorem Invariant.call {b b' : Builder} (h : b.Invariant) {c : Call S} (hc : c.Valid)
    (hrun : b.call c = .ok b') : b'.Invariant := by
  cases c with
  | int data => exact h.pushInt hrun
  | intNonMinimal data => exact h.pushIntNonMinimal hrun
  | slice data =>
    cases hrun
    exact h.pushSlice data
  | key key =>
    cases hrun
    unfold Builder.pushKey
    split_ifs
    · exact h.pushSlice _
    · exact h.pushSlice _
  | xOnlyKey key =>
    cases hrun
    exact h.pushSlice _
  | opcode data =>
    cases hrun
    exact h.pushOpcode hc
  | verify =>
    cases hrun
    exact h.pushVerify
  | lockTime lockTime => exact h.pushInt hrun
  | sequence sequence => exact h.pushInt hrun

/-! ## Runs -/

theorem Start.invariant {b : Builder} (h : b.Start) : b.Invariant := by
  rcases h with rfl | ⟨v, is, his, rfl⟩
  · exact ⟨⟨[], rfl⟩, rfl⟩
  · exact ⟨⟨is, his⟩, rfl⟩

theorem Invariant.run {b b' : Builder} (h : b.Invariant) {calls : List (Call S)}
    (hcalls : ∀ c ∈ calls, c.Valid) (hrun : b.run calls = .ok b') : b'.Invariant := by
  induction calls generalizing b with
  | nil =>
    cases hrun
    exact h
  | cons c calls ih =>
    obtain ⟨hc, hcalls⟩ := List.forall_mem_cons.1 hcalls
    obtain ⟨b₁, hcall, hrest⟩ := Outcome.bind_eq_ok_iff.1 hrun
    exact ih (h.call hc hcall) hcalls hrest

/-- Integers other than the least are pushed. -/
theorem exists_pushIntNonMinimal (b : Builder) {data : Int64} (h : data ≠ Int64.minValue) :
    ∃ b', b.pushIntNonMinimal data = .ok b' := by
  obtain ⟨len, rest, hwrite, -, hlen⟩ := writeScriptint_of_ne_minValue (.replicate 8 0) h
  have habs := natAbs_toInt_le data
  have hle : len ≤ 9 := by
    by_contra hlong
    have hbound : SignMagnitude.bound 9 ≤ SignMagnitude.bound (len - 1) := SignMagnitude.bound_le (by omega)
    have hnine : 2 ^ 63 < SignMagnitude.bound 9 := by decide
    omega
  have htake : (SignMagnitude.encode len data.toInt ++ rest).take len = SignMagnitude.encode len data.toInt :=
    List.take_left' (SignMagnitude.length_encode len data.toInt)
  have hshort : (SignMagnitude.encode len data.toInt).length < 2 ^ 32 := by
    rw [SignMagnitude.length_encode]
    omega
  refine ⟨b.pushSlice ⟨SignMagnitude.encode len data.toInt, hshort⟩, ?_⟩
  rw [pushIntNonMinimal, hwrite]
  simp only [Outcome.ok_bind, PushBytes.upTo, htake]
  rw [Outcome.require_of (by simp), Outcome.ok_bind, dif_pos hshort]
  rfl

theorem exists_pushInt (b : Builder) {data : Int64} (h : data ≠ Int64.minValue) :
    ∃ b', b.pushInt data = .ok b' := by
  unfold pushInt
  split_ifs
  · exact ⟨_, rfl⟩
  · exact ⟨_, rfl⟩
  · exact exists_pushIntNonMinimal b h

theorem toInt64_ne_minValue (n : UInt32) : n.toUInt64.toInt64 ≠ Int64.minValue := by
  intro h
  have hbits := congrArg Int64.toUInt64 h
  rw [UInt64.toUInt64_toInt64] at hbits
  have hnat := congrArg UInt64.toNat hbits
  have hlt := n.toNat_lt
  rw [UInt32.toNat_toUInt64] at hnat
  have hmin : Int64.minValue.toUInt64.toNat = 2 ^ 63 := by decide
  omega

/-- The least `i64` is not pushed as an integer. -/
def Call.NotMin : Call S → Prop
  | .int data => data ≠ Int64.minValue
  | .intNonMinimal data => data ≠ Int64.minValue
  | _ => True

/-- All sequences of operations come to an end, but for those that push the least `i64`. -/
theorem exists_run (b : Builder) {calls : List (Call S)} (h : ∀ c ∈ calls, c.NotMin) :
    ∃ b', b.run calls = .ok b' := by
  induction calls generalizing b with
  | nil => exact ⟨b, rfl⟩
  | cons c calls ih =>
    obtain ⟨hc, hcalls⟩ := List.forall_mem_cons.1 h
    have hcall : ∃ b₁, b.call c = .ok b₁ := by
      cases c with
      | int data => exact exists_pushInt b hc
      | intNonMinimal data => exact exists_pushIntNonMinimal b hc
      | lockTime lockTime => exact exists_pushInt b (toInt64_ne_minValue _)
      | sequence sequence => exact exists_pushInt b (toInt64_ne_minValue _)
      | _ => exact ⟨_, rfl⟩
    obtain ⟨b₁, hb₁⟩ := hcall
    obtain ⟨b', hb'⟩ := ih b₁ hcalls
    refine ⟨b', ?_⟩
    rw [run, List.foldlM_cons, hb₁]
    exact hb'

/-- In every run the cache gives the form that the script gives, so that `push_verify` makes the script
that `scan_and_push_verify` makes, and leaves a data push at the end as it is. -/
theorem pushVerify_eq_scanAndPushVerify {start b : Builder} {calls : List (Call S)} (hstart : start.Start)
    (hcalls : ∀ c ∈ calls, c.Valid) (hrun : start.run calls = .ok b) :
    opcodeToVerify b.lastOp = opcodeToVerify b.script.lastOpcode ∧
    b.pushVerify.script = b.script.scanAndPushVerify ∧
    ∀ data, (ScriptBuf.instructions b.script).items.getLast? = some (.ok (.pushBytes data)) →
      b.pushVerify.script = b.script ++ [OP_VERIFY] := by
  have hinv := hstart.invariant.run hcalls hrun
  refine ⟨hinv.cache, ?_, ?_⟩
  · rw [ScriptBuf.scanAndPushVerify, ScriptBuf.pushVerify, ← hinv.cache]
    unfold pushVerify
    cases opcodeToVerify b.lastOp <;> rfl
  · intro data hdata
    have hnone : opcodeToVerify b.lastOp = none := by
      rw [hinv.cache, ScriptBuf.lastOpcode, hdata]
      rfl
    rw [pushVerify_of_none hnone]
    rfl

/-- `OP_2` and `OP_CHECKSIG`, from the empty builder. -/
theorem pushVerify_two_checksig :
    (⟨[0x52, 0xac], some 0xac⟩ : Builder).pushVerify.script = ScriptBuf.scanAndPushVerify [0x52, 0xac] :=
  (@pushVerify_eq_scanAndPushVerify KeyFormats.curve new _ [.int 2, .opcode 0xac] (.inl rfl)
    (by simp [Call.Valid, OP_PUSHDATA4]) rfl).2.1

/-- A push whose last byte is `OP_CHECKSIG`. -/
example : ScriptBuf.scanAndPushVerify [0x01, 0xac] = [0x01, 0xac, 0x69] := by decide

end Builder

end RustDogecoin
