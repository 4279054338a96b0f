import RustDogecoin.Blockdata.Push
import RustDogecoin.Lib.Iteration

/-!
# Reading the instructions of a script

`Instructions` and `InstructionIndices` of `blockdata/script/instruction.rs`.  A call of `next` takes one
opcode with its data off the script; an error ends the iteration by taking the rest.  `next_push`,
`next_op` and `next_cut` say what a call does for each way a script can begin (`head_cases`).
-/

namespace RustDogecoin

/-- The errors of the instruction iterators. -/
inductive ScriptError where
  | nonMinimalPush
  | earlyEndOfScript
  | numericOverflow
  deriving DecidableEq, Repr

inductive UintError where
  | earlyEndOfScript
  | numericOverflow
  deriving DecidableEq, Repr

instance : DecidableEq PushBytes := fun a b =>
  decidable_of_iff (a.bytes = b.bytes) ⟨fun h => by cases a; cases h; rfl, congrArg _⟩

theorem length_nil_lt : ([] : Bytes).length < 2 ^ 32 := by decide

/-- Creates an empty `PushBytes`. -/
def PushBytes.empty : PushBytes := ⟨[], length_nil_lt⟩

/-- A "parsed opcode" which allows iterating over a script in a more sensible way. -/
inductive Instruction where
  | pushBytes (bytes : PushBytes)
  | op (opcode : UInt8)
  deriving DecidableEq

/-! ## Lengths behind an opcode -/

/-- The loop of `read_uint_iter` from the `i`-th byte on; shifts and sums are those of `usize`. -/
def readUintLoop : Bytes → ℕ → ℕ → Except UintError ℕ
  | [], _, ret => .ok ret
  | item :: data, i, ret =>
    if i * 8 < 64 then
      let shifted := item.toNat * 2 ^ (i * 8) % 2 ^ 64
      if shifted + ret < 2 ^ 64 then readUintLoop data (i + 1) (shifted + ret) else .error .numericOverflow
    else .error .numericOverflow

/-- Reads `size` bytes as a number, and returns what is left of the data. -/
def readUintIter (data : Bytes) (size : ℕ) : Except UintError (ℕ × Bytes) :=
  if data.length < size then .error .earlyEndOfScript
  else if size > 0xFFFF / 8 then .error .numericOverflow
  else match readUintLoop (data.take size) 0 0 with
    | .ok ret => .ok (ret, data.drop size)
    | .error e => .error e

/-- Allowed length of push data length. -/
inductive PushDataLenLen where
  | one
  | two
  | four
  deriving DecidableEq, Repr

def PushDataLenLen.toNat : PushDataLenLen → ℕ
  | one => 1
  | two => 2
  | four => 4

/-! ## Instructions -/

/-- Iterator over a script returning parsed opcodes. -/
structure Instructions where
  data : Bytes
  enforceMinimal : Bool
  deriving DecidableEq

theorem length_take_lt (data : Bytes) (len : UInt32) : (data.take len.toNat).length < 2 ^ 32 :=
  (List.length_take_le _ _).trans_lt len.toNat_lt

namespace Instructions

/-- Sets the iterator to end so that it won't iterate any longer.  `nth` drops one more than it says. -/
def kill (self : Instructions) : Instructions :=
  { self with data := self.data.drop (max self.data.length 1 - 1 + 1) }

/-- Takes a `len` bytes long slice from the iterator, or kills it if it is not long enough. -/
def takeSliceOrKill (self : Instructions) (len : UInt32) : Except ScriptError PushBytes × Instructions :=
  if len.toNat ≤ self.data.length then
    (.ok ⟨self.data.take len.toNat, length_take_lt self.data len⟩, { self with data := self.data.drop len.toNat })
  else (.error .earlyEndOfScript, self.kill)

/-- A slice as an instruction. -/
def takePush (self : Instructions) (len : UInt32) : Option (Except ScriptError Instruction) × Instructions :=
  let (slice, self) := self.takeSliceOrKill len
  (some (slice.map .pushBytes), self)

def nextPushDataLen (self : Instructions) (len : PushDataLenLen) (minPushLen : ℕ) :
    Option (Except ScriptError Instruction) × Instructions :=
  match readUintIter self.data len.toNat with
  | .error .earlyEndOfScript => (some (.error .earlyEndOfScript), self.kill)
  | .error .numericOverflow => (some (.error .earlyEndOfScript), self.kill)
  | .ok (n, data) =>
    let self := { self with data }
    if self.enforceMinimal ∧ n < minPushLen then (some (.error .nonMinimalPush), self.kill)
    else if n < 2 ^ 32 then self.takePush (UInt32.ofNat n)
    else (some (.error .numericOverflow), self)

def next (self : Instructions) : Option (Except ScriptError Instruction) × Instructions :=
  match self.data with
  | [] => (none, self)
  | byte :: data =>
    let self := { self with data }
    match classify byte .legacy with
    | .pushBytes n =>
      let opByte := data.head?
      if self.enforceMinimal ∧ n = 1 ∧ opByte.any fun b => b == 0x81 || (0 < b && b ≤ 16) then
        (some (.error .nonMinimalPush), self.kill)
      else if opByte = none ∧ n = 0 then (some (.ok (.pushBytes .empty)), self)
      else self.takePush n
    | .ordinary op =>
      if op = OP_PUSHDATA1 then self.nextPushDataLen .one 76
      else if op = OP_PUSHDATA2 then self.nextPushDataLen .two 0x100
      else if op = OP_PUSHDATA4 then self.nextPushDataLen .four 0x10000
      else (some (.ok (.op byte)), self)
    | _ => (some (.ok (.op byte)), self)

end Instructions

/-- Iterator over script instructions with their positions. -/
structure InstructionIndices where
  instructions : Instructions
  pos : ℕ
  deriving DecidableEq

namespace InstructionIndices

/-- Creates `Self` setting `pos` to 0. -/
def fromInstructions (instructions : Instructions) : InstructionIndices := ⟨instructions, 0⟩

def remainingBytes (self : InstructionIndices) : ℕ := self.instructions.data.length

/-- Modifies the iterator using `nextFn` returning the next item; less bytes remain than before. -/
def nextWith (self : InstructionIndices)
    (nextFn : InstructionIndices → Option (Except ScriptError Instruction) × InstructionIndices) :
    Option (Except ScriptError (ℕ × Instruction)) × InstructionIndices :=
  let prevRemaining := self.remainingBytes
  let prevPos := self.pos
  match nextFn self with
  | (none, self) => (none, self)
  | (some instruction, self) =>
    let consumed := prevRemaining - self.remainingBytes
    (some (instruction.map fun instruction => (prevPos, instruction)), { self with pos := self.pos + consumed })

def next (self : InstructionIndices) : Option (Except ScriptError (ℕ × Instruction)) × InstructionIndices :=
  self.nextWith fun this =>
    let (instruction, instructions) := this.instructions.next
    (instruction, { this with instructions })

end InstructionIndices

namespace ScriptBuf

/-- `Script::instructions`. -/
def instructions (script : ScriptBuf) : Instructions := ⟨script, false⟩

/-- `Script::instructions_minimal`. -/
def instructionsMinimal (script : ScriptBuf) : Instructions := ⟨script, true⟩

/-- `Script::instruction_indices`. -/
def instructionIndices (script : ScriptBuf) : InstructionIndices := .fromInstructions (instructions script)

/-- `Script::instruction_indices_minimal`. -/
def instructionIndicesMinimal (script : ScriptBuf) : InstructionIndices :=
  .fromInstructions (instructionsMinimal script)

end ScriptBuf

/-! ## What one call does -/

/-- The bytes from the `i`-th on, on top of those before. -/
theorem readUintLoop_eq {data : Bytes} {i ret : ℕ} (hlen : i + data.length ≤ 8) (hret : ret < 256 ^ i) :
    readUintLoop data i ret = .ok (ret + 256 ^ i * leNat data) := by
  induction data generalizing i ret with
  | nil => rfl
  | cons item data ih =>
    rw [List.length_cons] at hlen
    have hitem := item.toNat_lt
    have hpow : 2 ^ (i * 8) = 256 ^ i := by rw [Nat.mul_comm, Nat.pow_mul]
    have hle : item.toNat * 256 ^ i ≤ 255 * 256 ^ i := Nat.mul_le_mul_right _ (by omega)
    have hnext : item.toNat * 256 ^ i + ret < 256 ^ (i + 1) := by
      rw [pow_succ]
      omega
    have hmax : 256 ^ (i + 1) ≤ 2 ^ 64 := Nat.pow_le_pow_right (by decide) (by omega : i + 1 ≤ 8)
    have hmod : item.toNat * 256 ^ i % 2 ^ 64 = item.toNat * 256 ^ i := Nat.mod_eq_of_lt (by omega)
    rw [readUintLoop, if_pos (by omega), hpow]
    simp only [hmod]
    rw [if_pos (by omega), ih (by omega) hnext, leNat]
    congr 1
    ring

theorem readUintIter_eq {data : Bytes} {size : ℕ} (hsize : size ≤ 8) (h : size ≤ data.length) :
    readUintIter data size = .ok (leNat (data.take size), data.drop size) := by
  have hlength : (data.take size).length = size := List.length_take_of_le h
  have hloop : readUintLoop (data.take size) 0 0 = .ok (0 + 256 ^ 0 * leNat (data.take size)) :=
    readUintLoop_eq (by omega) (by decide)
  rw [readUintIter, if_neg (by omega), if_neg (by omega), hloop]
  simp

theorem readUintIter_append {size n : ℕ} (hsize : size ≤ 8) (hn : n < 256 ^ size) (tail : Bytes) :
    readUintIter (leBytes size n ++ tail) size = .ok (n, tail) := by
  have hlength : (leBytes size n).length = size := length_leBytes size n
  rw [readUintIter_eq hsize (by simp), List.take_left' hlength, List.drop_left' hlength,
    leNat_leBytes_of_lt hn]

namespace Instructions

@[simp] theorem kill_eq (data : Bytes) (m : Bool) : kill ⟨data, m⟩ = ⟨[], m⟩ := by
  have hlen : data.length ≤ max data.length 1 - 1 + 1 := by omega
  rw [kill, List.drop_of_length_le hlen]

theorem takePush_of_le {data : Bytes} {n : ℕ} (hn : n < 2 ^ 32) (h : n ≤ data.length) (m : Bool)
    {bytes : PushBytes} (hbytes : bytes.bytes = data.take n) :
    takePush ⟨data, m⟩ (.ofNat n) = (some (.ok (.pushBytes bytes)), ⟨data.drop n, m⟩) := by
  obtain ⟨bytes, hlt⟩ := bytes
  subst hbytes
  have hval : (UInt32.ofNat n).toNat = n := UInt32.toNat_ofNat_of_lt' hn
  simp only [takePush, takeSliceOrKill, hval, if_pos h]
  rfl

theorem takePush_of_lt {data : Bytes} {n : ℕ} (hn : n < 2 ^ 32) (h : data.length < n) (m : Bool) :
    takePush ⟨data, m⟩ (.ofNat n) = (some (.error .earlyEndOfScript), ⟨[], m⟩) := by
  have hval : (UInt32.ofNat n).toNat = n := UInt32.toNat_ofNat_of_lt' hn
  simp only [takePush, takeSliceOrKill, hval, if_neg (Nat.not_le.2 h), kill_eq]
  rfl

theorem nextPushDataLen_append (len : PushDataLenLen) {n : ℕ} (hn : n < 256 ^ len.toNat) (minPushLen : ℕ)
    (tail : Bytes) (m : Bool) : nextPushDataLen ⟨leBytes len.toNat n ++ tail, m⟩ len minPushLen =
      if m = true ∧ n < minPushLen then (some (.error .nonMinimalPush), ⟨[], m⟩)
      else takePush ⟨tail, m⟩ (.ofNat n) := by
  have hsize : len.toNat ≤ 4 := by cases len <;> decide
  have hlt : n < 2 ^ 32 := hn.trans_le (Nat.pow_le_pow_right (n := 256) (by decide) hsize)
  simp only [nextPushDataLen, readUintIter_append (hsize.trans (by decide)) hn, kill_eq, if_pos hlt]

theorem nextPushDataLen_cut {len : PushDataLenLen} {data : Bytes} (h : data.length < len.toNat)
    (minPushLen : ℕ) (m : Bool) :
    nextPushDataLen ⟨data, m⟩ len minPushLen = (some (.error .earlyEndOfScript), ⟨[], m⟩) := by
  simp only [nextPushDataLen, readUintIter, if_pos h, kill_eq]

theorem next_pushData1 (data : Bytes) (m : Bool) :
    next ⟨OP_PUSHDATA1 :: data, m⟩ = nextPushDataLen ⟨data, m⟩ .one 76 := by
  have hclass : classify OP_PUSHDATA1 .legacy = .ordinary OP_PUSHDATA1 := by decide
  simp only [next, hclass, if_true]

theorem next_pushData2 (data : Bytes) (m : Bool) :
    next ⟨OP_PUSHDATA2 :: data, m⟩ = nextPushDataLen ⟨data, m⟩ .two 0x100 := by
  have hclass : classify OP_PUSHDATA2 .legacy = .ordinary OP_PUSHDATA2 := by decide
  have hne : OP_PUSHDATA2 ≠ OP_PUSHDATA1 := by decide
  simp only [next, hclass, if_neg hne, if_true]

theorem next_pushData4 (data : Bytes) (m : Bool) :
    next ⟨OP_PUSHDATA4 :: data, m⟩ = nextPushDataLen ⟨data, m⟩ .four 0x10000 := by
  have hclass : classify OP_PUSHDATA4 .legacy = .ordinary OP_PUSHDATA4 := by decide
  have hne₁ : OP_PUSHDATA4 ≠ OP_PUSHDATA1 := by decide
  have hne₂ : OP_PUSHDATA4 ≠ OP_PUSHDATA2 := by decide
  simp only [next, hclass, if_neg hne₁, if_neg hne₂, if_true]

/-- An opcode that is not followed by data. -/
theorem next_op {op : UInt8} (h : OP_PUSHDATA4 < op) (data : Bytes) (m : Bool) :
    next ⟨op :: data, m⟩ = (some (.ok (.op op)), ⟨data, m⟩) := by
  have hpushes : (classify op .legacy).pushesData = false := by
    rw [← Bool.not_eq_true, pushesData_classify, UInt8.not_le]
    exact h
  cases hclass : classify op .legacy with
  | pushBytes n =>
    rw [hclass] at hpushes
    cases hpushes
  | ordinary o =>
    rw [hclass] at hpushes
    simp only [Class.pushesData, Bool.or_eq_false_iff, beq_eq_false_iff_ne] at hpushes
    obtain ⟨⟨h₁, h₂⟩, h₄⟩ := hpushes
    simp only [next, hclass, if_neg h₁, if_neg h₂, if_neg h₄]
  | _ => simp only [next, hclass]

/-- A push whose form is not the shortest for its length, or whose one byte has an opcode of its own, as
far as it can be seen: the data are what follows the header, and may be cut off. -/
def NonMinimal (form : PushForm) (n : ℕ) (tail : Bytes) : Prop :=
  n < form.minPushLen ∨ n = 1 ∧ ∃ b ∈ tail.head?, IsNumByte b

instance (form : PushForm) (n : ℕ) (tail : Bytes) : Decidable (NonMinimal form n tail) :=
  inferInstanceAs (Decidable (_ ∨ _ ∧ _))

theorem any_numByte_iff (tail : Bytes) :
    (tail.head?.any fun b => b == 0x81 || (0 < b && b ≤ 16)) = true ↔ ∃ b ∈ tail.head?, IsNumByte b := by
  cases tail with
  | nil => simp
  | cons b tail => simp [IsNumByte]

theorem nonMinimal_direct_iff {n : ℕ} {tail : Bytes} :
    NonMinimal .direct n tail ↔ n = 1 ∧ ∃ b ∈ tail.head?, IsNumByte b :=
  ⟨fun h => h.resolve_left (Nat.not_lt_zero n), .inr⟩

theorem nonMinimal_iff_of_le {form : PushForm} (hform : 76 ≤ form.minPushLen) {n : ℕ} {tail : Bytes} :
    NonMinimal form n tail ↔ n < form.minPushLen :=
  ⟨fun h => h.elim id fun hone => by omega, .inl⟩

theorem next_direct {n : ℕ} (hn : n < 76) (tail : Bytes) (m : Bool) :
    next ⟨UInt8.ofNat n :: tail, m⟩ = if m = true ∧ NonMinimal .direct n tail then
      (some (.error .nonMinimalPush), ⟨[], m⟩) else takePush ⟨tail, m⟩ (.ofNat n) := by
  have hval : (UInt8.ofNat n).toNat = n := UInt8.toNat_ofNat_of_lt' (hn.trans (by decide))
  have hval' : (UInt32.ofNat n).toNat = n := UInt32.toNat_ofNat_of_lt' (hn.trans (by decide))
  have hle : UInt8.ofNat n ≤ OP_PUSHBYTES_75 := by
    rw [UInt8.le_iff_toNat_le, hval]
    exact Nat.le_of_lt_succ hn
  have hlen : (UInt8.ofNat n).toUInt32 = UInt32.ofNat n := by
    apply UInt32.toNat_inj.1
    rw [UInt8.toNat_toUInt32, hval, hval']
  have hone : UInt32.ofNat n = 1 ↔ n = 1 := by
    rw [← UInt32.toNat_inj, hval']
    rfl
  have hzero : UInt32.ofNat n = 0 ↔ n = 0 := by
    rw [← UInt32.toNat_inj, hval']
    rfl
  simp only [next, classify_pushBytes hle, hlen, hone, hzero, any_numByte_iff, kill_eq,
    nonMinimal_direct_iff]
  split_ifs with hmin hempty
  · rfl
  · -- the shortcut for an empty push at the end of the script
    obtain ⟨hnil, rfl⟩ := hempty
    rw [List.head?_eq_none_iff.1 hnil]
    rfl
  · rfl

/-- A push, as far as its opcode and its length are there. -/
theorem next_push {form : PushForm} {n : ℕ} (hn : n < form.limit) (tail : Bytes) (m : Bool) :
    next ⟨form.header n ++ tail, m⟩ = if m = true ∧ NonMinimal form n tail then
      (some (.error .nonMinimalPush), ⟨[], m⟩) else takePush ⟨tail, m⟩ (.ofNat n) := by
  cases form with
  | direct => exact next_direct hn tail m
  | pushData1 =>
    simp only [nonMinimal_iff_of_le (by decide : 76 ≤ PushForm.pushData1.minPushLen)]
    exact (next_pushData1 _ m).trans (nextPushDataLen_append .one hn _ tail m)
  | pushData2 =>
    simp only [nonMinimal_iff_of_le (by decide : 76 ≤ PushForm.pushData2.minPushLen)]
    exact (next_pushData2 _ m).trans (nextPushDataLen_append .two hn _ tail m)
  | pushData4 =>
    simp only [nonMinimal_iff_of_le (by decide : 76 ≤ PushForm.pushData4.minPushLen)]
    exact (next_pushData4 _ m).trans (nextPushDataLen_append .four hn _ tail m)

/-- The three ways in which a script can begin: an opcode without data, a push up to its length, or a
push whose length is cut off. -/
inductive Head : Bytes → Prop
  | op {op : UInt8} (h : OP_PUSHDATA4 < op) (data : Bytes) : Head (op :: data)
  | push (form : PushForm) {n : ℕ} (hn : n < form.limit) (tail : Bytes) : Head (form.header n ++ tail)
  | cut {data : Bytes} (h : ∀ m, next ⟨data, m⟩ = (some (.error .earlyEndOfScript), ⟨[], m⟩)) : Head data

/-- An opcode with a length behind it. -/
theorem head_pushData (form : PushForm) {opcode : UInt8} {len : PushDataLenLen} {minPushLen : ℕ}
    (hheader : ∀ n, form.header n = opcode :: leBytes len.toNat n) (hlimit : form.limit = 256 ^ len.toNat)
    (hnext : ∀ data m, next ⟨opcode :: data, m⟩ = nextPushDataLen ⟨data, m⟩ len minPushLen) (data : Bytes) :
    Head (opcode :: data) := by
  by_cases h : len.toNat ≤ data.length
  · have hlength : (data.take len.toNat).length = len.toNat := List.length_take_of_le h
    have hlt := leNat_lt (data.take len.toNat)
    rw [hlength, ← hlimit] at hlt
    have hback := leBytes_leNat (data.take len.toNat)
    rw [hlength] at hback
    have hpush := Head.push form hlt (data.drop len.toNat)
    rwa [hheader, hback, List.cons_append, List.take_append_drop] at hpush
  · exact .cut fun m => (hnext data m).trans (nextPushDataLen_cut (Nat.lt_of_not_le h) minPushLen m)

theorem head_cases {data : Bytes} (h : data ≠ []) : Head data := by
  obtain ⟨opcode, data, rfl⟩ := List.exists_cons_of_ne_nil h
  by_cases hop : OP_PUSHDATA4 < opcode
  · exact .op hop data
  by_cases hdirect : opcode.toNat < 76
  · have hpush := Head.push .direct hdirect data
    rwa [PushForm.header, UInt8.ofNat_toNat] at hpush
  have hle : opcode.toNat ≤ 78 := UInt8.le_iff_toNat_le.1 (UInt8.not_lt.1 hop)
  have hcode : opcode = OP_PUSHDATA1 ∨ opcode = OP_PUSHDATA2 ∨ opcode = OP_PUSHDATA4 := by
    simp only [← UInt8.toNat_inj, show OP_PUSHDATA1.toNat = 76 from rfl,
      show OP_PUSHDATA2.toNat = 77 from rfl, show OP_PUSHDATA4.toNat = 78 from rfl]
    omega
  rcases hcode with rfl | rfl | rfl
  · exact head_pushData .pushData1 (fun _ => rfl) rfl next_pushData1 data
  · exact head_pushData .pushData2 (fun _ => rfl) rfl next_pushData2 data
  · exact head_pushData .pushData4 (fun _ => rfl) rfl next_pushData4 data

end Instructions

end RustDogecoin
