import RustDogecoin.Blockdata.InstructionItems

/-!
# Scripts from instructions

`Extend<Instruction> for ScriptBuf` of `blockdata/script/owned.rs`.  Few instructions are first counted, so
that their bytes are reserved at once; more are pushed one by one.  Both ways write the shortest bytes of
each instruction (`pushInstruction_eq`), and these are what the iterator in minimal mode reads
(`Instruction.reads_true_iff`).
-/

namespace RustDogecoin

namespace ScriptBuf

/-- Computes the sum of `len` and the length of an appropriate push opcode. -/
def reservedLenForSlice (len : ℕ) : ℕ :=
  len + if len ≤ 0x4b then 1 else if len ≤ 0xff then 2 else if len ≤ 0xffff then 3 else 5

/-- Pushes the slice without reserving; what `push_slice` reserves before does not show in the bytes. -/
def pushSliceNoOpt (script : ScriptBuf) (data : PushBytes) : ScriptBuf := pushSlice script data

/-- Add a single instruction to the script. -/
def pushInstruction (script : ScriptBuf) : Instruction → ScriptBuf
  | .op opcode => script.pushOpcode opcode
  | .pushBytes bytes => script.pushSlice bytes

/-- Like `pushInstruction`, but avoids calling `reserve` to not re-check the length. -/
def pushInstructionNoOpt (script : ScriptBuf) : Instruction → ScriptBuf
  | .op opcode => script.pushOpcode opcode
  | .pushBytes bytes => script.pushSliceNoOpt bytes

end ScriptBuf

/-- Returns the number of bytes required to encode the instruction in script. -/
def Instruction.scriptSerializedLen : Instruction → ℕ
  | .op _ => 1
  | .pushBytes bytes => ScriptBuf.reservedLenForSlice bytes.bytes.length

namespace ScriptBuf

/-- The loop over `head.iter_mut().zip(&mut iter)`: the slots of `head`, the sum of the lengths, and what
is left of the iterator. -/
def fillHead : ℕ → List Instruction → ℕ → List (Option Instruction) × ℕ × List Instruction
  | 0, iter, totalSize => ([], totalSize, iter)
  | slots + 1, [], totalSize => (List.replicate (slots + 1) none, totalSize, [])
  | slots + 1, instr :: iter, totalSize =>
    let (head, totalSize, iter) := fillHead slots iter (totalSize + instr.scriptSerializedLen)
    (some instr :: head, totalSize, iter)

/-- The way for iterators that promise less than six instructions: how much is reserved, and the script. -/
def extendSmall (script : ScriptBuf) (iter : List Instruction) : Outcome Empty (ℕ × ScriptBuf) := do
  let (head, totalSize, iter) := fillHead 5 iter 0
  .require (iter = []) .assertion
  return (totalSize, (head.filterMap id).foldl pushInstructionNoOpt script)

/-- `Extend<Instruction> for ScriptBuf`, for an iterator with the upper bound `upper` in its size hint and
the items `iter` up to its end. -/
def extend (script : ScriptBuf) (upper : Option ℕ) (iter : List Instruction) : Outcome Empty ScriptBuf :=
  if (upper.map fun max => decide (max < 6)).getD false then do
    let (_, script) ← extendSmall script iter
    return script
  else return iter.foldl pushInstruction script

/-- `FromIterator<Instruction> for ScriptBuf`. -/
def fromIter (upper : Option ℕ) (iter : List Instruction) : Outcome Empty ScriptBuf := extend [] upper iter

end ScriptBuf

/-! ## The shortest bytes of an instruction -/

/-- The shortest form with data for a length. -/
def PushForm.ofLen (n : ℕ) : PushForm :=
  if n < 76 then .direct else if n < 0x100 then .pushData1 else if n < 0x10000 then .pushData2 else .pushData4

theorem PushForm.ofLen_eq_iff {n : ℕ} {form : PushForm} (h : n < 2 ^ 32) :
    PushForm.ofLen n = form ↔ form.minPushLen ≤ n ∧ n < form.limit := by
  unfold PushForm.ofLen
  cases form <;> simp only [PushForm.minPushLen, PushForm.limit] <;> split_ifs <;>
    simp only [true_iff, false_iff] <;> omega

/-- The bytes that are written for an instruction. -/
def Instruction.bytes : Instruction → Bytes
  | .op opcode => [opcode]
  | .pushBytes data => (PushForm.ofLen data.bytes.length).header data.bytes.length ++ data.bytes

/-- An opcode that is not followed by data, or a push that has no opcode of its own. -/
def Instruction.Allowed : Instruction → Prop
  | .op opcode => OP_PUSHDATA4 < opcode
  | .pushBytes data => ¬∃ b, data.bytes = [b] ∧ IsNumByte b

namespace Instruction

theorem reads_bytes_of_allowed {i : Instruction} (h : i.Allowed) : i.Reads true i.bytes := by
  cases i with
  | op opcode => exact ⟨⟨h, rfl⟩, nofun⟩
  | pushBytes data =>
    obtain ⟨hmin, hlimit⟩ := (PushForm.ofLen_eq_iff data.length_lt).1 rfl
    refine ⟨⟨_, hlimit, rfl⟩, ?_⟩
    rintro - d ⟨⟩
    exact (shortest_iff hlimit).2 ⟨hmin, h⟩

theorem allowed_of_reads {raw : Bytes} {i : Instruction} (h : i.Reads true raw) :
    i.Allowed ∧ raw = i.bytes := by
  obtain ⟨hi, hshortest⟩ := h
  cases i with
  | op opcode => exact hi
  | pushBytes data =>
    obtain ⟨form, hlimit, rfl⟩ := hi
    obtain ⟨hmin, hnum⟩ := (shortest_iff hlimit).1 (hshortest rfl data rfl)
    refine ⟨hnum, ?_⟩
    rw [bytes, (PushForm.ofLen_eq_iff data.length_lt).2 ⟨hmin, hlimit⟩]

/-- In minimal mode an instruction is read from what is written for it, if at all. -/
theorem reads_true_iff {raw : Bytes} {i : Instruction} : i.Reads true raw ↔ i.Allowed ∧ raw = i.bytes := by
  constructor
  · exact allowed_of_reads
  · rintro ⟨h, rfl⟩
    exact reads_bytes_of_allowed h

/-- What is read in minimal mode is read in the other mode too. -/
theorem Reads.plain {m : Bool} {raw : Bytes} {i : Instruction} (h : i.Reads m raw) : i.Reads false raw :=
  ⟨h.1, nofun⟩

theorem length_bytes (i : Instruction) : i.bytes.length = i.scriptSerializedLen := by
  cases i with
  | op opcode => rfl
  | pushBytes data =>
    rw [bytes, scriptSerializedLen, ScriptBuf.reservedLenForSlice, List.length_append,
      PushForm.length_header, PushForm.ofLen, Nat.add_comm]
    congr 1
    split_ifs <;> first | rfl | omega

end Instruction

/-- In minimal mode a script is what is written for its instructions, and these are allowed. -/
theorem Instructions.items_minimal_iff {script : ScriptBuf} {is : List Instruction} :
    items ⟨script, true⟩ = is.map .ok ↔ script = (is.map Instruction.bytes).flatten ∧ ∀ i ∈ is, i.Allowed := by
  rw [items_eq_map_ok_iff]
  constructor
  · rintro ⟨pieces, rfl, rfl, hreads⟩
    constructor
    · apply congrArg List.flatten
      rw [List.map_map]
      exact List.map_congr_left fun p hp => (Instruction.allowed_of_reads (hreads p hp)).2
    · intro i hi
      obtain ⟨p, hp, rfl⟩ := List.mem_map.1 hi
      exact (Instruction.allowed_of_reads (hreads p hp)).1
  · rintro ⟨rfl, hallowed⟩
    refine ⟨is.map fun i => (i.bytes, i), ?_, ?_, ?_⟩
    · rw [List.map_map]
      exact List.map_id is
    · rw [List.map_map]
      rfl
    · simpa using fun i hi => Instruction.reads_bytes_of_allowed (hallowed i hi)

/-- What is read in minimal mode without an error is read in the other mode too. -/
theorem Instructions.items_plain {script : ScriptBuf} {is : List Instruction}
    (h : items ⟨script, true⟩ = is.map .ok) : items ⟨script, false⟩ = is.map .ok := by
  obtain ⟨pieces, hsnd, hfst, hreads⟩ := items_eq_map_ok_iff.1 h
  exact items_eq_map_ok_iff.2 ⟨pieces, hsnd, hfst, fun p hp => (hreads p hp).plain⟩

namespace ScriptBuf

/-! ## What is written -/

theorem pushSlice_eq (script : ScriptBuf) (data : PushBytes) :
    pushSlice script data = script ++ (Instruction.pushBytes data).bytes := by
  have hlt := data.length_lt
  have hcode : OP_PUSHDATA1.toNat = 76 := rfl
  unfold pushSlice Instruction.bytes PushForm.ofLen
  simp only [hcode]
  split_ifs with h₀ h₁ h₂
  · simp [PushForm.header]
  · simp [PushForm.header, leBytes, Nat.mod_eq_of_lt h₁]
  · have hhigh : data.bytes.length / 256 % 256 = data.bytes.length / 256 := Nat.mod_eq_of_lt (by omega)
    simp [PushForm.header, leBytes, hhigh]
  · have hhigh : data.bytes.length / 0x1000000 % 256 = data.bytes.length / 0x1000000 :=
      Nat.mod_eq_of_lt (by omega)
    simp [PushForm.header, leBytes, Nat.div_div_eq_div_mul, hhigh]

theorem pushInstruction_eq (script : ScriptBuf) (i : Instruction) :
    pushInstruction script i = script ++ i.bytes := by
  cases i with
  | op opcode => rfl
  | pushBytes data => exact pushSlice_eq script data

theorem pushInstructionNoOpt_eq (script : ScriptBuf) (i : Instruction) :
    pushInstructionNoOpt script i = script ++ i.bytes := by
  cases i with
  | op opcode => rfl
  | pushBytes data => exact pushSlice_eq script data

/-- Instructions that are pushed one after the other. -/
theorem foldl_push {push : ScriptBuf → Instruction → ScriptBuf} (h : ∀ s i, push s i = s ++ i.bytes)
    (is : List Instruction) (script : ScriptBuf) :
    is.foldl push script = script ++ (is.map Instruction.bytes).flatten := by
  induction is generalizing script with
  | nil => simp
  | cons i is ih => rw [List.foldl_cons, ih, h, List.map_cons, List.flatten_cons, List.append_assoc]

theorem fillHead_eq (slots : ℕ) (is : List Instruction) (totalSize : ℕ) : fillHead slots is totalSize =
    ((is.take slots).map some ++ List.replicate (slots - is.length) none,
      totalSize + ((is.take slots).map Instruction.scriptSerializedLen).sum, is.drop slots) := by
  induction slots generalizing is totalSize with
  | zero => simp [fillHead]
  | succ slots ih =>
    cases is with
    | nil => rfl
    | cons i is =>
      rw [fillHead, ih, List.length_cons, Nat.add_sub_add_right, List.take_succ_cons, List.map_cons,
        List.map_cons, List.sum_cons, Nat.add_assoc]
      rfl

theorem length_flatten_bytes (is : List Instruction) :
    (is.map Instruction.bytes).flatten.length = (is.map Instruction.scriptSerializedLen).sum := by
  rw [List.length_flatten, List.map_map]
  exact congrArg List.sum (List.map_congr_left fun i _ => i.length_bytes)

/-- The first way reserves as much as it writes. -/
theorem extendSmall_eq {is : List Instruction} (h : is.length ≤ 5) (script : ScriptBuf) :
    extendSmall script is = .ok ((is.map Instruction.bytes).flatten.length,
      script ++ (is.map Instruction.bytes).flatten) := by
  rw [extendSmall, fillHead_eq, length_flatten_bytes, List.take_of_length_le h, List.drop_of_length_le h]
  simp only [Outcome.require_of, Outcome.ok_bind, Nat.zero_add]
  have hhead : (is.map some ++ List.replicate (5 - is.length) none).filterMap id = is := by
    simp [List.filterMap_map]
  rw [hhead, foldl_push pushInstructionNoOpt_eq]
  rfl

/-- It takes no more than five instructions. -/
theorem length_of_extendSmall {script built : ScriptBuf} {is : List Instruction} {totalSize : ℕ}
    (h : extendSmall script is = .ok (totalSize, built)) : is.length ≤ 5 := by
  rw [extendSmall, fillHead_eq] at h
  obtain ⟨hdrop, -⟩ := Outcome.require_bind_eq_ok_iff.1 h
  exact List.drop_eq_nil_iff.1 hdrop

/-- Both ways write the same, as long as the iterator keeps to its upper bound. -/
theorem extend_eq {upper : Option ℕ} {is : List Instruction} (hupper : ∀ max ∈ upper, is.length ≤ max)
    (script : ScriptBuf) : extend script upper is = .ok (script ++ (is.map Instruction.bytes).flatten) := by
  unfold extend
  split_ifs with hsmall
  · cases upper with
    | none => cases hsmall
    | some max =>
      have hmax : max < 6 := of_decide_eq_true hsmall
      have hle := hupper max rfl
      rw [extendSmall_eq (by omega)]
      rfl
  · rw [foldl_push pushInstruction_eq]
    rfl

/-- Scripts that are read in minimal mode come back from their instructions, and instructions come back
from the script that is made of them, in both ways to make it.  What is reserved is what is written. -/
theorem extend_instructionsMinimal {upper : Option ℕ} {is : List Instruction}
    (hupper : ∀ max ∈ upper, is.length ≤ max) :
    (∀ script, (instructionsMinimal script).items = is.map .ok → fromIter upper is = .ok script) ∧
    ((∀ i ∈ is, i.Allowed) → ∃ built, fromIter upper is = .ok built ∧
      (instructionsMinimal built).items = is.map .ok ∧ (instructions built).items = is.map .ok) ∧
    (∀ script data, (pushSliceNoOpt script data).length =
      script.length + reservedLenForSlice data.bytes.length) ∧
    ∀ script totalSize built, extendSmall script is = .ok (totalSize, built) →
      built.length = script.length + totalSize := by
  have hfrom : fromIter upper is = .ok (is.map Instruction.bytes).flatten := extend_eq hupper []
  refine ⟨?_, ?_, ?_, ?_⟩
  · intro script hitems
    obtain ⟨hscript, -⟩ := Instructions.items_minimal_iff.1 hitems
    rw [hfrom, hscript]
  · intro hallowed
    have hitems := Instructions.items_minimal_iff.2 ⟨rfl, hallowed⟩
    exact ⟨_, hfrom, hitems, Instructions.items_plain hitems⟩
  · intro script data
    rw [pushSliceNoOpt, pushSlice_eq, List.length_append, Instruction.length_bytes]
    rfl
  · intro script totalSize built h
    rw [extendSmall_eq (length_of_extendSmall h)] at h
    cases h
    exact List.length_append

/-- Two instructions, announced as two. -/
theorem extend_instructionsMinimal_two :
    fromIter (some 2) [.op 0x51, .pushBytes ⟨[0x10, 0x20], by decide⟩] = .ok [0x51, 0x02, 0x10, 0x20] :=
  (@extend_instructionsMinimal (some 2) _ (by simp)).1 _ (by decide)

end ScriptBuf

end RustDogecoin
