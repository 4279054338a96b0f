import RustDogecoin.Blockdata.Script
import RustDogecoin.Lib.Str
import Mathlib.Data.List.GetD
import Mathlib.Data.List.Nodup

/-!
# The names of the opcodes

The table of `all_opcodes!` in `blockdata/opcodes.rs`.  Each of the 256 opcodes is displayed as the name of its
constant, so that two opcodes never read alike, and `OP_0` is not among the names.
-/

namespace RustDogecoin

/-- The characters of a literal, which are found with the proof. -/
def chars {l : Str} (s : String) (_ : s = String.ofList l := by rfl) : Str := l

/-- The constants of `all_opcodes!` in the order of their values. -/
def allOpcodes : List Str := [
  chars "OP_PUSHBYTES_0", chars "OP_PUSHBYTES_1", chars "OP_PUSHBYTES_2", chars "OP_PUSHBYTES_3",
  chars "OP_PUSHBYTES_4", chars "OP_PUSHBYTES_5", chars "OP_PUSHBYTES_6", chars "OP_PUSHBYTES_7",
  chars "OP_PUSHBYTES_8", chars "OP_PUSHBYTES_9", chars "OP_PUSHBYTES_10", chars "OP_PUSHBYTES_11",
  chars "OP_PUSHBYTES_12", chars "OP_PUSHBYTES_13", chars "OP_PUSHBYTES_14", chars "OP_PUSHBYTES_15",
  chars "OP_PUSHBYTES_16", chars "OP_PUSHBYTES_17", chars "OP_PUSHBYTES_18", chars "OP_PUSHBYTES_19",
  chars "OP_PUSHBYTES_20", chars "OP_PUSHBYTES_21", chars "OP_PUSHBYTES_22", chars "OP_PUSHBYTES_23",
  chars "OP_PUSHBYTES_24", chars "OP_PUSHBYTES_25", chars "OP_PUSHBYTES_26", chars "OP_PUSHBYTES_27",
  chars "OP_PUSHBYTES_28", chars "OP_PUSHBYTES_29", chars "OP_PUSHBYTES_30", chars "OP_PUSHBYTES_31",
  chars "OP_PUSHBYTES_32", chars "OP_PUSHBYTES_33", chars "OP_PUSHBYTES_34", chars "OP_PUSHBYTES_35",
  chars "OP_PUSHBYTES_36", chars "OP_PUSHBYTES_37", chars "OP_PUSHBYTES_38", chars "OP_PUSHBYTES_39",
  chars "OP_PUSHBYTES_40", chars "OP_PUSHBYTES_41", chars "OP_PUSHBYTES_42", chars "OP_PUSHBYTES_43",
  chars "OP_PUSHBYTES_44", chars "OP_PUSHBYTES_45", chars "OP_PUSHBYTES_46", chars "OP_PUSHBYTES_47",
  chars "OP_PUSHBYTES_48", chars "OP_PUSHBYTES_49", chars "OP_PUSHBYTES_50", chars "OP_PUSHBYTES_51",
  chars "OP_PUSHBYTES_52", chars "OP_PUSHBYTES_53", chars "OP_PUSHBYTES_54", chars "OP_PUSHBYTES_55",
  chars "OP_PUSHBYTES_56", chars "OP_PUSHBYTES_57", chars "OP_PUSHBYTES_58", chars "OP_PUSHBYTES_59",
  chars "OP_PUSHBYTES_60", chars "OP_PUSHBYTES_61", chars "OP_PUSHBYTES_62", chars "OP_PUSHBYTES_63",
  chars "OP_PUSHBYTES_64", chars "OP_PUSHBYTES_65", chars "OP_PUSHBYTES_66", chars "OP_PUSHBYTES_67",
  chars "OP_PUSHBYTES_68", chars "OP_PUSHBYTES_69", chars "OP_PUSHBYTES_70", chars "OP_PUSHBYTES_71",
  chars "OP_PUSHBYTES_72", chars "OP_PUSHBYTES_73", chars "OP_PUSHBYTES_74", chars "OP_PUSHBYTES_75",
  chars "OP_PUSHDATA1", chars "OP_PUSHDATA2", chars "OP_PUSHDATA4", chars "OP_PUSHNUM_NEG1",
  chars "OP_RESERVED", chars "OP_PUSHNUM_1", chars "OP_PUSHNUM_2", chars "OP_PUSHNUM_3", chars "OP_PUSHNUM_4",
  chars "OP_PUSHNUM_5", chars "OP_PUSHNUM_6", chars "OP_PUSHNUM_7", chars "OP_PUSHNUM_8",
  chars "OP_PUSHNUM_9", chars "OP_PUSHNUM_10", chars "OP_PUSHNUM_11", chars "OP_PUSHNUM_12",
  chars "OP_PUSHNUM_13", chars "OP_PUSHNUM_14", chars "OP_PUSHNUM_15", chars "OP_PUSHNUM_16", chars "OP_NOP",
  chars "OP_VER", chars "OP_IF", chars "OP_NOTIF", chars "OP_VERIF", chars "OP_VERNOTIF", chars "OP_ELSE",
  chars "OP_ENDIF", chars "OP_VERIFY", chars "OP_RETURN", chars "OP_TOALTSTACK", chars "OP_FROMALTSTACK",
  chars "OP_2DROP", chars "OP_2DUP", chars "OP_3DUP", chars "OP_2OVER", chars "OP_2ROT", chars "OP_2SWAP",
  chars "OP_IFDUP", chars "OP_DEPTH", chars "OP_DROP", chars "OP_DUP", chars "OP_NIP", chars "OP_OVER",
  chars "OP_PICK", chars "OP_ROLL", chars "OP_ROT", chars "OP_SWAP", chars "OP_TUCK", chars "OP_CAT",
  chars "OP_SUBSTR", chars "OP_LEFT", chars "OP_RIGHT", chars "OP_SIZE", chars "OP_INVERT", chars "OP_AND",
  chars "OP_OR", chars "OP_XOR", chars "OP_EQUAL", chars "OP_EQUALVERIFY", chars "OP_RESERVED1",
  chars "OP_RESERVED2", chars "OP_1ADD", chars "OP_1SUB", chars "OP_2MUL", chars "OP_2DIV", chars "OP_NEGATE",
  chars "OP_ABS", chars "OP_NOT", chars "OP_0NOTEQUAL", chars "OP_ADD", chars "OP_SUB", chars "OP_MUL",
  chars "OP_DIV", chars "OP_MOD", chars "OP_LSHIFT", chars "OP_RSHIFT", chars "OP_BOOLAND", chars "OP_BOOLOR",
  chars "OP_NUMEQUAL", chars "OP_NUMEQUALVERIFY", chars "OP_NUMNOTEQUAL", chars "OP_LESSTHAN",
  chars "OP_GREATERTHAN", chars "OP_LESSTHANOREQUAL", chars "OP_GREATERTHANOREQUAL", chars "OP_MIN",
  chars "OP_MAX", chars "OP_WITHIN", chars "OP_RIPEMD160", chars "OP_SHA1", chars "OP_SHA256",
  chars "OP_HASH160", chars "OP_HASH256", chars "OP_CODESEPARATOR", chars "OP_CHECKSIG",
  chars "OP_CHECKSIGVERIFY", chars "OP_CHECKMULTISIG", chars "OP_CHECKMULTISIGVERIFY", chars "OP_NOP1",
  chars "OP_CLTV", chars "OP_CSV", chars "OP_NOP4", chars "OP_NOP5", chars "OP_NOP6", chars "OP_NOP7",
  chars "OP_NOP8", chars "OP_NOP9", chars "OP_NOP10", chars "OP_CHECKSIGADD", chars "OP_RETURN_187",
  chars "OP_RETURN_188", chars "OP_RETURN_189", chars "OP_RETURN_190", chars "OP_RETURN_191",
  chars "OP_RETURN_192", chars "OP_RETURN_193", chars "OP_RETURN_194", chars "OP_RETURN_195",
  chars "OP_RETURN_196", chars "OP_RETURN_197", chars "OP_RETURN_198", chars "OP_RETURN_199",
  chars "OP_RETURN_200", chars "OP_RETURN_201", chars "OP_RETURN_202", chars "OP_RETURN_203",
  chars "OP_RETURN_204", chars "OP_RETURN_205", chars "OP_RETURN_206", chars "OP_RETURN_207",
  chars "OP_RETURN_208", chars "OP_RETURN_209", chars "OP_RETURN_210", chars "OP_RETURN_211",
  chars "OP_RETURN_212", chars "OP_RETURN_213", chars "OP_RETURN_214", chars "OP_RETURN_215",
  chars "OP_RETURN_216", chars "OP_RETURN_217", chars "OP_RETURN_218", chars "OP_RETURN_219",
  chars "OP_RETURN_220", chars "OP_RETURN_221", chars "OP_RETURN_222", chars "OP_RETURN_223",
  chars "OP_RETURN_224", chars "OP_RETURN_225", chars "OP_RETURN_226", chars "OP_RETURN_227",
  chars "OP_RETURN_228", chars "OP_RETURN_229", chars "OP_RETURN_230", chars "OP_RETURN_231",
  chars "OP_RETURN_232", chars "OP_RETURN_233", chars "OP_RETURN_234", chars "OP_RETURN_235",
  chars "OP_RETURN_236", chars "OP_RETURN_237", chars "OP_RETURN_238", chars "OP_RETURN_239",
  chars "OP_RETURN_240", chars "OP_RETURN_241", chars "OP_RETURN_242", chars "OP_RETURN_243",
  chars "OP_RETURN_244", chars "OP_RETURN_245", chars "OP_RETURN_246", chars "OP_RETURN_247",
  chars "OP_RETURN_248", chars "OP_RETURN_249", chars "OP_RETURN_250", chars "OP_RETURN_251",
  chars "OP_RETURN_252", chars "OP_RETURN_253", chars "OP_RETURN_254", chars "OP_INVALIDOPCODE"]

/-- The name with which an opcode is displayed, for `Debug` and for `Display`. -/
def opcodeName (opcode : UInt8) : Str := allOpcodes.getD opcode.toNat []

/-- The characters as the digits of a number. -/
def charsCode (s : Str) : ℕ := s.foldl (fun n c => n * 256 + c.toNat) 0

/-- No number is there twice. -/
def distinct : List ℕ → Bool
  | [] => true
  | a :: l => l.all (fun b => !Nat.beq a b) && distinct l

theorem nodup_of_distinct {l : List ℕ} (h : distinct l = true) : l.Nodup := by
  induction l with
  | nil => exact List.nodup_nil
  | cons a l ih =>
    rw [distinct, Bool.and_eq_true] at h
    refine List.nodup_cons.2 ⟨fun ha => ?_, ih h.2⟩
    have hbeq := List.all_eq_true.1 h.1 a ha
    simp at hbeq

theorem length_allOpcodes : allOpcodes.length = 256 := by decide +kernel

/-- The names, and what is written for `OP_PUSHBYTES_0` in place of its name, are all different. -/
theorem nodup_allOpcodes : (chars "OP_0" :: allOpcodes).Nodup := by
  have h : distinct ((chars "OP_0" :: allOpcodes).map charsCode) = true := by decide +kernel
  exact List.Nodup.of_map charsCode (nodup_of_distinct h)

/-- A character of a name. -/
def isNameChar (c : Char) : Bool := c.isAlphanum || c == '_'

theorem isNameChar_allOpcodes : ∀ name ∈ allOpcodes, name.all isNameChar = true :=
  List.all_eq_true.1 (by decide +kernel)

theorem head_allOpcodes : ∀ name ∈ allOpcodes, ∃ rest, name = 'O' :: rest := by
  intro name hname
  have hall : allOpcodes.all (fun name => name.head? == some 'O') = true := by decide +kernel
  have hhead := List.all_eq_true.1 hall name hname
  exact List.head?_eq_some_iff.1 (beq_iff_eq.1 hhead)

theorem opcodeName_mem (opcode : UInt8) : opcodeName opcode ∈ allOpcodes := by
  have hlt : opcode.toNat < allOpcodes.length := length_allOpcodes ▸ opcode.toNat_lt
  rw [opcodeName, List.getD_eq_getElem _ _ hlt]
  exact List.getElem_mem hlt

theorem opcodeName_injective : Function.Injective opcodeName := by
  intro a b h
  have ha : a.toNat < allOpcodes.length := length_allOpcodes ▸ a.toNat_lt
  have hb : b.toNat < allOpcodes.length := length_allOpcodes ▸ b.toNat_lt
  rw [opcodeName, opcodeName, List.getD_eq_getElem _ _ ha, List.getD_eq_getElem _ _ hb] at h
  exact UInt8.toNat_inj.1 ((List.nodup_cons.1 nodup_allOpcodes).2.getElem_inj_iff.1 h)

end RustDogecoin
