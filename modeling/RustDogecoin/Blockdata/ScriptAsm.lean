import RustDogecoin.Blockdata.InstructionItems
import RustDogecoin.Blockdata.OpcodeName
import RustDogecoin.Hex

/-!
# Scripts as assembly

`bytes_to_asm_fmt` of `blockdata/script/mod.rs` reads a script on its own, without the instruction iterator.  The
two walks stay together (`asmLoop_trace`): the text has a marker exactly if the iterator yields an error, and
without errors the script can be read off its text.
-/

namespace RustDogecoin

/-- The length of the data behind an opcode, and what is left behind the length. -/
def asmDataLen (byte : UInt8) (iter : Bytes) : Except UintError (ℕ × Bytes) :=
  match classify byte .legacy with
  | .pushBytes n => .ok (n.toNat, iter)
  | _ =>
    if byte = OP_PUSHDATA1 then readUintIter iter 1
    else if byte = OP_PUSHDATA2 then readUintIter iter 2
    else if byte = OP_PUSHDATA4 then readUintIter iter 4
    else .ok (0, iter)

theorem readUintIter_length {data rest : Bytes} {size n : ℕ} (h : readUintIter data size = .ok (n, rest)) :
    size ≤ data.length ∧ rest = data.drop size := by
  unfold readUintIter at h
  split_ifs at h with hlt hmax
  split at h
  · cases h
    exact ⟨Nat.le_of_not_lt hlt, rfl⟩
  · cases h

theorem asmDataLen_length {byte : UInt8} {iter rest : Bytes} {n : ℕ}
    (h : asmDataLen byte iter = .ok (n, rest)) : rest.length ≤ iter.length := by
  have hread : ∀ size, readUintIter iter size = .ok (n, rest) → rest.length ≤ iter.length := by
    intro size hsize
    rw [(readUintIter_length hsize).2, List.length_drop]
    exact Nat.sub_le _ _
  unfold asmDataLen at h
  split at h
  · cases h
    exact le_rfl
  · split_ifs at h
    · exact hread 1 h
    · exact hread 2 h
    · exact hread 4 h
    · cases h
      exact le_rfl

def unexpectedEnd : Str := chars "<unexpected end>"

def pushPastEnd : Str := chars "<push past end>"

/-- What is written for an opcode. -/
def asmOpcode (opcode : UInt8) : Str :=
  if opcode = OP_PUSHBYTES_0 then chars "OP_0" else opcodeName opcode

/-- The loop of `bytes_to_asm_fmt`, with `write_str` of the formatter. -/
def asmLoop {W : Type} (writeStr : W → Str → Except FmtError W) (iter : Bytes) (atLeastOne : Bool) (f : W) :
    Except FmtError W :=
  match iter with
  | [] => .ok f
  | byte :: iter =>
    match _ : asmDataLen byte iter with
    | .error .earlyEndOfScript => writeStr f unexpectedEnd
    | .error .numericOverflow => writeStr f pushPastEnd
    | .ok (dataLen, rest) => do
      let f ← if atLeastOne then writeStr f [' '] else .ok f
      let f ← writeStr f (asmOpcode byte)
      if 0 < dataLen then
        let f ← writeStr f [' ']
        if dataLen ≤ rest.length then
          let f ← (rest.take dataLen).foldlM (fun f ch => writeStr f (hexText false [ch])) f
          asmLoop writeStr (rest.drop dataLen) true f
        else writeStr f pushPastEnd
      else asmLoop writeStr rest true f
termination_by iter.length
decreasing_by
  all_goals
    have hle := asmDataLen_length (by assumption)
    simp only [List.length_cons, List.length_drop]
    omega

/-- Writes the assembly decoding of the script bytes to the formatter. -/
def bytesToAsmFmt {W : Type} (writeStr : W → Str → Except FmtError W) (script : Bytes) (f : W) :
    Except FmtError W :=
  asmLoop writeStr script false f

namespace ScriptBuf

/-- Writes the human-readable assembly representation of the script to the formatter. -/
def fmtAsm {W : Type} (writeStr : W → Str → Except FmtError W) (script : ScriptBuf) (f : W) :
    Except FmtError W :=
  bytesToAsmFmt writeStr script f

/-- Returns the human-readable assembly representation of the script. -/
def toAsmString (script : ScriptBuf) : Outcome Empty Str :=
  match fmtAsm pushStr script [] with
  | .ok buf => .ok buf
  | .error _ => .panic .unwrap

end ScriptBuf

/-- `OP_PUSHBYTES_1` with its byte, and one whose byte is missing. -/
example : ScriptBuf.toAsmString [0x00, 0x01, 0xab] = .ok "OP_0 OP_PUSHBYTES_1 ab".toList ∧
    ScriptBuf.toAsmString [0x4c, 0x02, 0xab] = .ok "OP_PUSHDATA1 <push past end>".toList := by decide +kernel

/-! ## One instruction -/

/-- The data of an instruction as they are written behind its opcode. -/
def asmData (data : Bytes) : Str := if data = [] then [] else ' ' :: hexText false data

def separator (atLeastOne : Bool) : Str := if atLeastOne then [' '] else []

theorem foldlM_hex (data : Bytes) (f : Str) :
    data.foldlM (fun f ch => pushStr f (hexText false [ch])) f = pushStr f (hexText false data) := by
  induction data generalizing f with
  | nil => simp [hexText, pushStr, pure, Except.pure]
  | cons b data ih =>
    rw [List.foldlM_cons, pushStr_bind, ih, pushStr, List.append_assoc]
    rfl

theorem asmLoop_cut {byte : UInt8} {iter : Bytes} {e : UintError} (h : asmDataLen byte iter = .error e)
    (b : Bool) (f : Str) :
    asmLoop pushStr (byte :: iter) b f = .ok (f ++ unexpectedEnd) ∨
      asmLoop pushStr (byte :: iter) b f = .ok (f ++ pushPastEnd) := by
  rw [asmLoop]
  split
  · exact .inl rfl
  · exact .inr rfl
  · rename_i hok
    rw [h] at hok
    cases hok

/-- A length was read. -/
theorem asmLoop_ok {byte : UInt8} {iter rest : Bytes} {n : ℕ} (h : asmDataLen byte iter = .ok (n, rest))
    (b : Bool) (f : Str) :
    asmLoop pushStr (byte :: iter) b f =
      let f := f ++ separator b ++ asmOpcode byte
      if 0 < n then
        if n ≤ rest.length then
          asmLoop pushStr (rest.drop n) true (f ++ [' '] ++ hexText false (rest.take n))
        else .ok (f ++ [' '] ++ pushPastEnd)
      else asmLoop pushStr rest true f := by
  rw [asmLoop]
  split
  · rename_i herr
    rw [h] at herr
    cases herr
  · rename_i herr
    rw [h] at herr
    cases herr
  · rename_i hok
    obtain ⟨rfl, rfl⟩ := Prod.mk.inj (Except.ok.inj (hok.symm.trans h))
    cases b with
    | false =>
      have hsep : f ++ separator false = f := List.append_nil f
      rw [if_neg Bool.false_ne_true, hsep]
      simp only [foldlM_hex, pushStr_bind]
      rfl
    | true =>
      rw [if_pos rfl]
      simp only [foldlM_hex, pushStr_bind]
      rfl

theorem asmLoop_short {byte : UInt8} {iter rest : Bytes} {n : ℕ} (h : asmDataLen byte iter = .ok (n, rest))
    (hshort : rest.length < n) (b : Bool) (f : Str) :
    asmLoop pushStr (byte :: iter) b f = .ok (f ++ separator b ++ asmOpcode byte ++ [' '] ++ pushPastEnd) := by
  rw [asmLoop_ok h]
  dsimp only
  rw [if_pos (Nat.zero_lt_of_lt hshort), if_neg (Nat.not_le.2 hshort)]

theorem asmLoop_step {byte : UInt8} {iter rest : Bytes} {n : ℕ} (h : asmDataLen byte iter = .ok (n, rest))
    (hle : n ≤ rest.length) (b : Bool) (f : Str) :
    asmLoop pushStr (byte :: iter) b f =
      asmLoop pushStr (rest.drop n) true (f ++ separator b ++ asmOpcode byte ++ asmData (rest.take n)) := by
  rw [asmLoop_ok h]
  dsimp only
  by_cases hzero : n = 0
  · subst hzero
    rw [if_neg (Nat.lt_irrefl 0), List.drop_zero, List.take_zero, asmData, if_pos rfl, List.append_nil]
  · have hne : rest.take n ≠ [] := by
      apply List.ne_nil_of_length_pos
      rw [List.length_take_of_le hle]
      omega
    rw [if_pos (Nat.pos_of_ne_zero hzero), if_pos hle, asmData, if_neg hne, ← List.append_cons]

/-! ## The length of the data in both walks -/

theorem asmDataLen_op {opcode : UInt8} (h : OP_PUSHDATA4 < opcode) (iter : Bytes) :
    asmDataLen opcode iter = .ok (0, iter) := by
  have hpushes : (classify opcode .legacy).pushesData = false := by
    rw [← Bool.not_eq_true, pushesData_classify, UInt8.not_le]
    exact h
  have hle : ∀ o ≤ OP_PUSHDATA4, opcode ≠ o := fun o ho heq => UInt8.not_le.2 h (heq ▸ ho)
  unfold asmDataLen
  split
  · rename_i hclass
    rw [hclass] at hpushes
    cases hpushes
  · rw [if_neg (hle _ (by decide)), if_neg (hle _ (by decide)), if_neg (hle _ (by decide))]

theorem asmDataLen_direct {n : ℕ} (hn : n < 76) (iter : Bytes) :
    asmDataLen (UInt8.ofNat n) iter = .ok (n, iter) := by
  have hval : (UInt8.ofNat n).toNat = n := UInt8.toNat_ofNat_of_lt' (hn.trans (by decide))
  have hle : UInt8.ofNat n ≤ OP_PUSHBYTES_75 := by
    rw [UInt8.le_iff_toNat_le, hval]
    exact Nat.le_of_lt_succ hn
  rw [asmDataLen, classify_pushBytes hle]
  simp only [UInt8.toNat_toUInt32, hval]

theorem asmDataLen_pushData1 (iter : Bytes) : asmDataLen OP_PUSHDATA1 iter = readUintIter iter 1 := rfl

theorem asmDataLen_pushData2 (iter : Bytes) : asmDataLen OP_PUSHDATA2 iter = readUintIter iter 2 := rfl

theorem asmDataLen_pushData4 (iter : Bytes) : asmDataLen OP_PUSHDATA4 iter = readUintIter iter 4 := rfl

theorem asmDataLen_push {form : PushForm} {n : ℕ} (hn : n < form.limit) (tail : Bytes) :
    ∃ rest, form.header n ++ tail = (form.header n).headD 0 :: rest ∧
      asmDataLen ((form.header n).headD 0) rest = .ok (n, tail) := by
  cases form with
  | direct => exact ⟨tail, rfl, asmDataLen_direct hn tail⟩
  | pushData1 =>
    exact ⟨leBytes 1 n ++ tail, rfl, (asmDataLen_pushData1 _).trans (readUintIter_append (by decide) hn tail)⟩
  | pushData2 =>
    exact ⟨leBytes 2 n ++ tail, rfl, (asmDataLen_pushData2 _).trans (readUintIter_append (by decide) hn tail)⟩
  | pushData4 =>
    exact ⟨leBytes 4 n ++ tail, rfl, (asmDataLen_pushData4 _).trans (readUintIter_append (by decide) hn tail)⟩

/-- What an instruction pushes from the script. -/
def Instruction.data : Instruction → Bytes
  | .op _ => []
  | .pushBytes data => data.bytes

/-- The text of an instruction, from the bytes that it is read from. -/
def asmText (p : Bytes × Instruction) : Str := asmOpcode (p.1.headD 0) ++ asmData p.2.data

theorem asmLoop_encodes {raw : Bytes} {i : Instruction} (hi : i.Encodes raw) (data : Bytes) (b : Bool)
    (f : Str) :
    asmLoop pushStr (raw ++ data) b f = asmLoop pushStr data true (f ++ separator b ++ asmText (raw, i)) := by
  cases i with
  | op opcode =>
    obtain ⟨hop, rfl⟩ := hi
    have hstep := asmLoop_step (asmDataLen_op hop data) (Nat.zero_le _) b f
    rw [List.append_assoc] at hstep
    exact hstep
  | pushBytes d =>
    obtain ⟨form, hn, rfl⟩ := hi
    obtain ⟨rest, hrest, hlen⟩ := asmDataLen_push hn (d.bytes ++ data)
    have hhead : (form.header d.bytes.length ++ d.bytes).headD 0 = (form.header d.bytes.length).headD 0 := by
      cases form <;> rfl
    rw [List.append_assoc, hrest, asmLoop_step hlen (by simp), List.drop_left' rfl, List.take_left' rfl,
      asmText, hhead, ← List.append_assoc]
    rfl

namespace Instructions

theorem takePush_ok {data : Bytes} {n : ℕ} (hn : n < 2 ^ 32) (h : n ≤ data.length) (m : Bool) :
    ∃ i it, takePush ⟨data, m⟩ (.ofNat n) = (some (.ok i), it) := by
  let bytes : PushBytes := ⟨data.take n, (List.length_take_le _ _).trans_lt hn⟩
  have hbytes : bytes.bytes = data.take n := rfl
  exact ⟨_, _, takePush_of_le hn h m hbytes⟩

theorem nextPushDataLen_ok {len : PushDataLenLen} {data rest : Bytes} {n : ℕ}
    (h : readUintIter data len.toNat = .ok (n, rest)) (hle : n ≤ rest.length) (minPushLen : ℕ) :
    ∃ i it, nextPushDataLen ⟨data, false⟩ len minPushLen = (some (.ok i), it) := by
  have hsize : len.toNat ≤ 4 := by cases len <;> decide
  have hlength := List.length_take_of_le (readUintIter_length h).1
  have hlt := leNat_lt (data.take len.toNat)
  rw [hlength] at hlt
  have hmax : leNat (data.take len.toNat) < 2 ^ 32 := hlt.trans_le (Nat.pow_le_pow_right (by decide) hsize)
  have hread := readUintIter_eq (hsize.trans (by decide)) (readUintIter_length h).1
  obtain ⟨rfl, rfl⟩ := Prod.mk.inj (Except.ok.inj (h.symm.trans hread))
  simp only [nextPushDataLen, hread, if_neg fun h : false = true ∧ _ => Bool.false_ne_true h.1, if_pos hmax]
  exact takePush_ok hmax hle false

/-- Where the data are all there, the iterator yields an instruction. -/
theorem next_of_asmDataLen {byte : UInt8} {iter rest : Bytes} {n : ℕ}
    (h : asmDataLen byte iter = .ok (n, rest)) (hle : n ≤ rest.length) :
    ∃ i it, next ⟨byte :: iter, false⟩ = (some (.ok i), it) := by
  by_cases hop : OP_PUSHDATA4 < byte
  · exact ⟨_, _, next_op hop iter false⟩
  by_cases hdirect : byte.toNat < 76
  · have hdata := asmDataLen_direct hdirect iter
    rw [UInt8.ofNat_toNat, h] at hdata
    obtain ⟨rfl, rfl⟩ := Prod.mk.inj (Except.ok.inj hdata)
    have hnext := next_direct hdirect rest false
    rw [UInt8.ofNat_toNat, if_neg fun h => Bool.false_ne_true h.1] at hnext
    rw [hnext]
    exact takePush_ok (hdirect.trans (by decide)) hle false
  have hcode : byte = OP_PUSHDATA1 ∨ byte = OP_PUSHDATA2 ∨ byte = OP_PUSHDATA4 := by
    have hmax : byte.toNat ≤ 78 := UInt8.le_iff_toNat_le.1 (UInt8.not_lt.1 hop)
    simp only [← UInt8.toNat_inj, show OP_PUSHDATA1.toNat = 76 from rfl,
      show OP_PUSHDATA2.toNat = 77 from rfl, show OP_PUSHDATA4.toNat = 78 from rfl]
    omega
  rcases hcode with rfl | rfl | rfl
  · rw [next_pushData1]
    exact @nextPushDataLen_ok .one _ _ _ h hle 76
  · rw [next_pushData2]
    exact @nextPushDataLen_ok .two _ _ _ h hle 0x100
  · rw [next_pushData4]
    exact @nextPushDataLen_ok .four _ _ _ h hle 0x10000

/-- A run that ends with an error is one that yields it. -/
theorem Trace.exists_error_iff {m : Bool} {data rest : Bytes} {pieces : List (Bytes × Instruction)}
    {err : Option ScriptError} (h : Trace m data pieces err rest) :
    (∃ e, Except.error e ∈ Instructions.items ⟨data, m⟩) ↔ err ≠ none := by
  rw [h.items_eq, Trace.items, Option.ne_none_iff_exists']
  simp

end Instructions

/-! ## Whole scripts -/

/-- The texts of instructions, with blanks between them. -/
def asmTexts : Bool → List (Bytes × Instruction) → Str
  | _, [] => []
  | atLeastOne, p :: pieces => separator atLeastOne ++ asmText p ++ asmTexts true pieces

/-- The text has one of the two error markers. -/
def HasMarker (text : Str) : Prop := unexpectedEnd <:+: text ∨ pushPastEnd <:+: text

theorem hasMarker_append {tail : Str} (h : HasMarker tail) (text : Str) : HasMarker (text ++ tail) := by
  have hsuffix : tail <:+: text ++ tail := List.infix_append_right
  exact h.imp (·.trans hsuffix) (·.trans hsuffix)

theorem asmLoop_error {data : Bytes} {e : ScriptError}
    (h : Instructions.next ⟨data, false⟩ = (some (.error e), ⟨[], false⟩)) (b : Bool) (f : Str) :
    ∃ tail, asmLoop pushStr data b f = .ok (f ++ tail) ∧ HasMarker tail := by
  cases data with
  | nil => cases h
  | cons byte iter =>
    cases hlen : asmDataLen byte iter with
    | error e =>
      rcases asmLoop_cut hlen b f with hcut | hcut
      · exact ⟨_, hcut, .inl List.infix_rfl⟩
      · exact ⟨_, hcut, .inr List.infix_rfl⟩
    | ok answer =>
      obtain ⟨n, rest⟩ := answer
      have hshort : rest.length < n := by
        by_contra hle
        obtain ⟨i, it, hnext⟩ := Instructions.next_of_asmDataLen hlen (Nat.le_of_not_lt hle)
        rw [h] at hnext
        cases hnext
      have htext := asmLoop_short hlen hshort b f
      rw [List.append_assoc, List.append_assoc, List.append_assoc] at htext
      refine ⟨_, htext, ?_⟩
      rw [← List.append_assoc, ← List.append_assoc]
      exact hasMarker_append (.inr List.infix_rfl) _

/-- A run of the iterator, as it is written: the instructions, and a marker in place of an error. -/
theorem asmLoop_trace {data rest : Bytes} {pieces : List (Bytes × Instruction)} {err : Option ScriptError}
    (h : Instructions.Trace false data pieces err rest) (b : Bool) (f : Str) :
    ∃ tail, asmLoop pushStr data b f = .ok (f ++ asmTexts b pieces ++ tail) ∧
      (err = none → tail = []) ∧ (err ≠ none → HasMarker tail) := by
  induction h generalizing b f with
  | done => exact ⟨[], by simp [asmLoop, asmTexts], fun _ => rfl, fun h => absurd rfl h⟩
  | error hnext =>
    obtain ⟨tail, htext, hmarker⟩ := asmLoop_error hnext b f
    exact ⟨tail, by rw [htext, asmTexts, List.append_nil], by simp, fun _ => hmarker⟩
  | step hnext hi _ ih =>
    obtain ⟨tail, htext, hnone, hsome⟩ := ih true (f ++ separator b ++ asmText _)
    refine ⟨tail, ?_, hnone, hsome⟩
    rw [asmLoop_encodes hi, htext, asmTexts]
    simp only [List.append_assoc]

/-! ## The characters of a text -/

theorem isNameChar_asmOpcode (opcode : UInt8) : ∀ c ∈ asmOpcode opcode, isNameChar c = true := by
  rw [asmOpcode]
  split_ifs
  · exact List.all_eq_true.1 (by decide +kernel)
  · exact List.all_eq_true.1 (isNameChar_allOpcodes _ (opcodeName_mem opcode))

theorem isNameChar_hexChar {x : ℕ} (h : x < 16) : isNameChar (hexChar false x) = true ∧ hexChar false x ≠ 'O' := by
  have hall : ∀ y < 16, isNameChar (hexChar false y) = true ∧ hexChar false y ≠ 'O' := by decide
  exact hall x h

theorem isNameChar_hexText (data : Bytes) : ∀ c ∈ hexText false data, isNameChar c = true := by
  intro c hc
  obtain ⟨b, -, hb⟩ := List.mem_flatMap.1 hc
  have hlt := b.toNat_lt
  rcases List.mem_pair.1 hb with rfl | rfl
  · exact (isNameChar_hexChar (by omega)).1
  · exact (isNameChar_hexChar (by omega)).1

theorem mem_asmTexts {b : Bool} {pieces : List (Bytes × Instruction)} {c : Char}
    (h : c ∈ asmTexts b pieces) : isNameChar c = true ∨ c = ' ' := by
  induction pieces generalizing b with
  | nil => cases h
  | cons p pieces ih =>
    rw [asmTexts, asmText, List.mem_append, List.mem_append, List.mem_append] at h
    rcases h with (hsep | hopcode | hdata) | hrest
    · cases b with
      | false => cases hsep
      | true => exact .inr (List.mem_singleton.1 hsep)
    · exact .inl (isNameChar_asmOpcode _ c hopcode)
    · rw [asmData] at hdata
      split_ifs at hdata
      · cases hdata
      · exact (List.mem_cons.1 hdata).elim .inr fun hc => .inl (isNameChar_hexText _ c hc)
    · exact ih hrest

theorem not_hasMarker_asmTexts (b : Bool) (pieces : List (Bytes × Instruction)) :
    ¬HasMarker (asmTexts b pieces) := by
  have hnot : '<' ∉ asmTexts b pieces := by
    intro hmem
    rcases mem_asmTexts hmem with h | h <;> revert h <;> decide
  rintro (h | h)
  · exact hnot (h.subset (by decide))
  · exact hnot (h.subset (by decide))

/-! ## Reading a script off its text -/

/-- Where the first parts have a property at each place and the second ones do not begin with it, they are the
same. -/
theorem append_inj_of_head {α : Type} {P : α → Prop} {a b x y : List α} (ha : ∀ c ∈ a, P c)
    (hb : ∀ c ∈ b, P c) (hx : ∀ c ∈ x.head?, ¬P c) (hy : ∀ c ∈ y.head?, ¬P c) (h : a ++ x = b ++ y) :
    a = b ∧ x = y := by
  induction a generalizing b with
  | nil =>
    cases b with
    | nil => exact ⟨rfl, h⟩
    | cons c b =>
      obtain rfl : x = c :: (b ++ y) := h
      exact absurd (hb c List.mem_cons_self) (hx c rfl)
  | cons d a ih =>
    cases b with
    | nil =>
      obtain rfl : d :: (a ++ x) = y := h
      exact absurd (ha d List.mem_cons_self) (hy d rfl)
    | cons c b =>
      obtain ⟨rfl, htail⟩ := List.cons.inj h
      obtain ⟨rfl, hrest⟩ := ih (List.forall_mem_cons.1 ha).2 (List.forall_mem_cons.1 hb).2 htail
      exact ⟨rfl, hrest⟩

theorem asmOpcode_injective : Function.Injective asmOpcode := by
  have hzero : ∀ opcode, opcodeName opcode ≠ chars "OP_0" := fun opcode h =>
    (List.nodup_cons.1 nodup_allOpcodes).1 (h ▸ opcodeName_mem opcode)
  intro a b h
  unfold asmOpcode at h
  split_ifs at h with ha hb
  · rw [ha, hb]
  · exact absurd h.symm (hzero b)
  · exact absurd h (hzero a)
  · exact opcodeName_injective h

theorem hexText_injective : Function.Injective (hexText false) := by
  intro a b h
  have hbytes := congrArg hexBytes h
  rw [hexBytes_hexText, hexBytes_hexText] at hbytes
  exact Option.some.inj hbytes

theorem asmOpcode_eq_cons (opcode : UInt8) : ∃ rest, asmOpcode opcode = 'O' :: rest := by
  rw [asmOpcode]
  split_ifs
  · exact ⟨_, rfl⟩
  · exact head_allOpcodes _ (opcodeName_mem opcode)

/-- The text behind an opcode with its data is empty or begins with a blank. -/
theorem head_asmTexts {pieces : List (Bytes × Instruction)} {c : Char} (h : c ∈ (asmTexts true pieces).head?) :
    ¬isNameChar c = true := by
  cases pieces with
  | nil => cases h
  | cons p pieces =>
    obtain rfl : ' ' = c := Option.some.inj h
    decide

theorem head_asmData {data : Bytes} {pieces : List (Bytes × Instruction)} {c : Char}
    (h : c ∈ (asmData data ++ asmTexts true pieces).head?) : ¬isNameChar c = true := by
  rw [asmData] at h
  split_ifs at h
  · exact head_asmTexts h
  · obtain rfl : ' ' = c := Option.some.inj h
    decide

/-- Data are not taken for the next opcode, whose name does not begin like them. -/
theorem asmTexts_ne_hexText {data : Bytes} (hne : data ≠ []) (text : Str) (pieces : List (Bytes × Instruction)) :
    asmTexts true pieces ≠ ' ' :: hexText false data ++ text := by
  intro h
  cases pieces with
  | nil => cases h
  | cons p pieces =>
    obtain ⟨b, data, rfl⟩ := List.exists_cons_of_ne_nil hne
    obtain ⟨name, hname⟩ := asmOpcode_eq_cons (p.1.headD 0)
    rw [asmTexts, asmText, hname] at h
    have hchar := (List.cons.inj (List.cons.inj h).2).1
    have hlt := b.toNat_lt
    exact (isNameChar_hexChar (by omega)).2 hchar.symm

theorem asmData_append_inj {data data' : Bytes} {pieces pieces' : List (Bytes × Instruction)}
    (h : asmData data ++ asmTexts true pieces = asmData data' ++ asmTexts true pieces') :
    data = data' ∧ asmTexts true pieces = asmTexts true pieces' := by
  unfold asmData at h
  split_ifs at h with hdata hdata' hdata'
  · exact ⟨hdata.trans hdata'.symm, h⟩
  · exact absurd h (asmTexts_ne_hexText hdata' _ _)
  · exact absurd h.symm (asmTexts_ne_hexText hdata _ _)
  · obtain ⟨hhex, hrest⟩ := append_inj_of_head (isNameChar_hexText data) (isNameChar_hexText data')
      (fun _ => head_asmTexts) (fun _ => head_asmTexts) (List.cons.inj h).2
    exact ⟨hexText_injective hhex, hrest⟩

theorem headD_header (form : PushForm) (n : ℕ) (tail : Bytes) :
    (form.header n ++ tail).headD 0 = (form.header n).headD 0 := by
  cases form <;> rfl

/-- The opcode of a push says which form it has. -/
theorem form_of_headD {form form' : PushForm} {n n' : ℕ} (hn : n < form.limit) (hn' : n' < form'.limit)
    (h : (form.header n).headD 0 = (form'.header n').headD 0) : form = form' := by
  have hdirect : ∀ m < 76, ∀ opcode : UInt8, 76 ≤ opcode.toNat → UInt8.ofNat m ≠ opcode := by
    rintro m hm _ hle rfl
    rw [UInt8.toNat_ofNat_of_lt' (hm.trans (by decide))] at hle
    omega
  cases form <;> cases form'
  case direct.pushData1 => exact absurd h (hdirect n hn OP_PUSHDATA1 (by decide))
  case direct.pushData2 => exact absurd h (hdirect n hn OP_PUSHDATA2 (by decide))
  case direct.pushData4 => exact absurd h (hdirect n hn OP_PUSHDATA4 (by decide))
  case pushData1.direct => exact absurd h.symm (hdirect n' hn' OP_PUSHDATA1 (by decide))
  case pushData2.direct => exact absurd h.symm (hdirect n' hn' OP_PUSHDATA2 (by decide))
  case pushData4.direct => exact absurd h.symm (hdirect n' hn' OP_PUSHDATA4 (by decide))
  all_goals first | rfl | cases h

theorem headD_header_le {form : PushForm} {n : ℕ} (hn : n < form.limit) :
    (form.header n).headD 0 ≤ OP_PUSHDATA4 := by
  cases form with
  | direct =>
    have hlt : n < 76 := hn
    rw [UInt8.le_iff_toNat_le]
    show (UInt8.ofNat n).toNat ≤ 78
    rw [UInt8.toNat_ofNat_of_lt' (hlt.trans (by decide))]
    omega
  | pushData1 => exact UInt8.le_iff_toNat_le.2 (by decide : 76 ≤ 78)
  | pushData2 => exact UInt8.le_iff_toNat_le.2 (by decide : 77 ≤ 78)
  | pushData4 => exact UInt8.le_refl _

/-- The opcode and the data of an instruction are all that it is read from. -/
theorem Instruction.Encodes.raw_inj {raw raw' : Bytes} {i i' : Instruction} (hi : i.Encodes raw)
    (hi' : i'.Encodes raw') (hhead : raw.headD 0 = raw'.headD 0) (hdata : i.data = i'.data) : raw = raw' := by
  cases i with
  | op opcode =>
    obtain ⟨hop, rfl⟩ := hi
    cases i' with
    | op opcode' =>
      obtain ⟨-, rfl⟩ := hi'
      obtain rfl : opcode = opcode' := hhead
      rfl
    | pushBytes d =>
      obtain ⟨form, hn, rfl⟩ := hi'
      rw [headD_header] at hhead
      obtain rfl : opcode = _ := hhead
      exact absurd (headD_header_le hn) (UInt8.not_le.2 hop)
  | pushBytes d =>
    obtain ⟨form, hn, rfl⟩ := hi
    cases i' with
    | op opcode =>
      obtain ⟨hop, rfl⟩ := hi'
      rw [headD_header] at hhead
      obtain rfl : _ = opcode := hhead
      exact absurd (headD_header_le hn) (UInt8.not_le.2 hop)
    | pushBytes d' =>
      obtain ⟨form', hn', rfl⟩ := hi'
      have hbytes : d.bytes = d'.bytes := hdata
      rw [headD_header, headD_header] at hhead
      obtain rfl := form_of_headD hn hn' hhead
      rw [hbytes]

theorem asmTexts_inj {b : Bool} {pieces pieces' : List (Bytes × Instruction)}
    (hp : ∀ p ∈ pieces, p.2.Encodes p.1) (hp' : ∀ p ∈ pieces', p.2.Encodes p.1)
    (h : asmTexts b pieces = asmTexts b pieces') : pieces.map Prod.fst = pieces'.map Prod.fst := by
  induction pieces generalizing b pieces' with
  | nil =>
    cases pieces' with
    | nil => rfl
    | cons p' pieces' =>
      obtain ⟨name, hname⟩ := asmOpcode_eq_cons (p'.1.headD 0)
      rw [asmTexts, asmTexts, asmText, hname] at h
      simp at h
  | cons p pieces ih =>
    cases pieces' with
    | nil =>
      obtain ⟨name, hname⟩ := asmOpcode_eq_cons (p.1.headD 0)
      rw [asmTexts, asmTexts, asmText, hname] at h
      simp at h
    | cons p' pieces' =>
      obtain ⟨hi, hp⟩ := List.forall_mem_cons.1 hp
      obtain ⟨hi', hp'⟩ := List.forall_mem_cons.1 hp'
      simp only [asmTexts, asmText, List.append_assoc, List.append_right_inj] at h
      obtain ⟨hopcode, hdata⟩ := append_inj_of_head (isNameChar_asmOpcode _) (isNameChar_asmOpcode _)
        (fun _ => head_asmData) (fun _ => head_asmData) h
      obtain ⟨hdata, hrest⟩ := asmData_append_inj hdata
      have hraw := hi.raw_inj hi' (asmOpcode_injective hopcode) hdata
      rw [List.map_cons, List.map_cons, hraw, ih hp hp' hrest]

namespace ScriptBuf

open Instructions

theorem toAsmString_of_asmLoop {script : ScriptBuf} {text : Str}
    (h : asmLoop pushStr script false [] = .ok text) : toAsmString script = .ok text := by
  unfold toAsmString fmtAsm bytesToAsmFmt
  rw [h]

/-- A script without errors is written instruction by instruction. -/
theorem toAsmString_of_clean {script : ScriptBuf}
    (h : ∀ e, Except.error e ∉ (instructions script).items) :
    ∃ pieces : List (Bytes × Instruction), (∀ p ∈ pieces, p.2.Encodes p.1) ∧
      script = (pieces.map Prod.fst).flatten ∧ toAsmString script = .ok (asmTexts false pieces) := by
  obtain ⟨pieces, err, rest, ht⟩ := exists_trace false script
  obtain ⟨tail, htext, hnone, -⟩ := asmLoop_trace ht false []
  have herr : err = none := by
    by_contra herr
    obtain ⟨e, he⟩ := ht.exists_error_iff.2 herr
    exact h e he
  have hwhole := ht.whole
  rw [ht.rest_eq_nil_iff.2 herr, List.append_nil] at hwhole
  rw [hnone herr, List.nil_append, List.append_nil] at htext
  exact ⟨pieces, ht.encodes, hwhole, toAsmString_of_asmLoop htext⟩

/-- The disassembler returns on every script; it has a marker exactly if the iterator yields an error, and scripts
without errors that read alike are the same. -/
theorem toAsmString_laws :
    (∀ script : ScriptBuf, ∃ text, toAsmString script = .ok text ∧
      (HasMarker text ↔ ∃ e, Except.error e ∈ (instructions script).items)) ∧
    ∀ script script' : ScriptBuf, (∀ e, Except.error e ∉ (instructions script).items) →
      (∀ e, Except.error e ∉ (instructions script').items) →
      toAsmString script = toAsmString script' → script = script' := by
  constructor
  · intro script
    obtain ⟨pieces, err, rest, h⟩ := exists_trace false script
    obtain ⟨tail, htext, hnone, hsome⟩ := asmLoop_trace h false []
    refine ⟨_, toAsmString_of_asmLoop htext, Iff.trans ?_ h.exists_error_iff.symm⟩
    constructor
    · rintro hmarker rfl
      rw [hnone rfl, List.nil_append, List.append_nil] at hmarker
      exact not_hasMarker_asmTexts _ _ hmarker
    · intro herr
      exact hasMarker_append (hsome herr) _
  · intro script script' hclean hclean' heq
    obtain ⟨pieces, hencodes, hwhole, htext⟩ := toAsmString_of_clean hclean
    obtain ⟨pieces', hencodes', hwhole', htext'⟩ := toAsmString_of_clean hclean'
    rw [htext, htext'] at heq
    rw [hwhole, hwhole', asmTexts_inj hencodes hencodes' (Outcome.ok.inj heq)]

end ScriptBuf

end RustDogecoin
