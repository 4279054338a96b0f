import RustDogecoin.Blockdata.Script

/-!
# Classes of opcodes

`Opcode::classify` of `blockdata/opcodes.rs`.  The bytes up to `OP_PUSHBYTES_75` push as many bytes as
they say, the three after them have a length behind them, and no other byte is followed by data
(`classify_pushBytes`, `pushesData_classify`).
-/

namespace RustDogecoin

def OP_PUSHBYTES_75 : UInt8 := 0x4b

def OP_PUSHNUM_NEG1 : UInt8 := 0x4f

def OP_RESERVED : UInt8 := 0x50

def OP_NOP : UInt8 := 0x61

def OP_VER : UInt8 := 0x62

def OP_VERIF : UInt8 := 0x65

def OP_VERNOTIF : UInt8 := 0x66

def OP_RETURN : UInt8 := 0x6a

def OP_CAT : UInt8 := 0x7e

def OP_SUBSTR : UInt8 := 0x7f

def OP_LEFT : UInt8 := 0x80

def OP_RIGHT : UInt8 := 0x81

def OP_INVERT : UInt8 := 0x83

def OP_AND : UInt8 := 0x84

def OP_OR : UInt8 := 0x85

def OP_XOR : UInt8 := 0x86

def OP_RESERVED1 : UInt8 := 0x89

def OP_RESERVED2 : UInt8 := 0x8a

def OP_2MUL : UInt8 := 0x8d

def OP_2DIV : UInt8 := 0x8e

def OP_MUL : UInt8 := 0x95

def OP_DIV : UInt8 := 0x96

def OP_MOD : UInt8 := 0x97

def OP_LSHIFT : UInt8 := 0x98

def OP_RSHIFT : UInt8 := 0x99

def OP_CHECKSIGVERIFY : UInt8 := 0xad

def OP_CHECKMULTISIG : UInt8 := 0xae

def OP_CHECKMULTISIGVERIFY : UInt8 := 0xaf

def OP_NOP1 : UInt8 := 0xb0

def OP_NOP10 : UInt8 := 0xb9

def OP_CHECKSIGADD : UInt8 := 0xba

def OP_INVALIDOPCODE : UInt8 := 0xff

/-- Classification context for the opcode. -/
inductive ClassifyContext where
  | tapScript
  | legacy
  deriving DecidableEq, Repr

/-- Broad categories of opcodes with similar behavior. -/
inductive Class where
  | pushNum (n : ℤ)
  | pushBytes (n : UInt32)
  | returnOp
  | successOp
  | illegalOp
  | noOp
  | ordinary (op : UInt8)
  deriving DecidableEq

/-- The variants of `Ordinary`, by their codes. -/
def ordinaryOpcodes : List UInt8 :=
  -- pushdata, and control flow
  [0x4c, 0x4d, 0x4e, 0x63, 0x64, 0x67, 0x68, 0x69,
  -- stack
  0x6b, 0x6c, 0x6d, 0x6e, 0x6f, 0x70, 0x71, 0x72, 0x75, 0x76, 0x77, 0x78, 0x79, 0x7a, 0x7b, 0x7c, 0x7d,
  0x73, 0x74, 0x82,
  -- equality
  0x87, 0x88,
  -- arithmetic
  0x8b, 0x8c, 0x8f, 0x90, 0x91, 0x92, 0x93, 0x94, 0x9a, 0x9b, 0x9c, 0x9d, 0x9e, 0x9f, 0xa0, 0xa1, 0xa2,
  0xa3, 0xa4, 0xa5,
  -- crypto
  0xa6, 0xa7, 0xa8, 0xa9, 0xaa, 0xab, 0xac, 0xad, 0xae, 0xaf, 0xba]

/-- Classifies an opcode into a broad class. -/
def classify (op : UInt8) (ctx : ClassifyContext) : Class :=
  if op = OP_VERIF ∨ op = OP_VERNOTIF ∨ op = OP_INVALIDOPCODE then .illegalOp
  else if op ∈ [OP_CAT, OP_SUBSTR, OP_LEFT, OP_RIGHT, OP_INVERT, OP_AND, OP_OR, OP_XOR, OP_2MUL, OP_2DIV,
      OP_MUL, OP_DIV, OP_MOD, OP_LSHIFT, OP_RSHIFT] ∧ ctx = .legacy then .illegalOp
  else if ctx = .tapScript ∧ (op = 80 ∨ op = 98 ∨ (126 ≤ op ∧ op ≤ 129) ∨ (131 ≤ op ∧ op ≤ 134) ∨
      (137 ≤ op ∧ op ≤ 138) ∨ (141 ≤ op ∧ op ≤ 142) ∨ (149 ≤ op ∧ op ≤ 153) ∨
      (187 ≤ op ∧ op ≤ 254)) then .successOp
  else if op = OP_NOP then .noOp
  else if OP_NOP1 ≤ op ∧ op ≤ OP_NOP10 then .noOp
  else if op = OP_RETURN then .returnOp
  else if op ∈ [OP_RESERVED, OP_RESERVED1, OP_RESERVED2, OP_VER] ∧ ctx = .legacy then .returnOp
  else if ctx = .legacy ∧ OP_CHECKSIGADD ≤ op then .returnOp
  else if op ∈ [OP_CHECKMULTISIG, OP_CHECKMULTISIGVERIFY] ∧ ctx = .tapScript then .returnOp
  else if op = OP_PUSHNUM_NEG1 then .pushNum (-1)
  else if OP_PUSHNUM_1 ≤ op ∧ op ≤ OP_PUSHNUM_16 then .pushNum (1 + op.toNat - OP_PUSHNUM_1.toNat)
  else if op ≤ OP_PUSHBYTES_75 then .pushBytes op.toUInt32
  else .ordinary op

/-- What holds of all bytes in both contexts, by going through them. -/
theorem forall_opcode {P : UInt8 → ClassifyContext → Prop}
    (h : ∀ n : Fin 256, P (UInt8.ofFin n) .tapScript ∧ P (UInt8.ofFin n) .legacy) (op : UInt8)
    (ctx : ClassifyContext) : P op ctx := by
  have hop := h op.toFin
  rw [UInt8.ofFin_toFin] at hop
  cases ctx with
  | tapScript => exact hop.1
  | legacy => exact hop.2

/-- Every opcode of the last class is a variant of `Ordinary`, so that its conversion does not reach
`unreachable!`. -/
theorem mem_ordinaryOpcodes (op : UInt8) (ctx : ClassifyContext) :
    classify op ctx = .ordinary op → op ∈ ordinaryOpcodes :=
  forall_opcode (P := fun op ctx => classify op ctx = .ordinary op → op ∈ ordinaryOpcodes)
    (by decide +kernel) op ctx

/-- The opcodes that push the bytes behind them, in every context. -/
theorem classify_pushBytes {op : UInt8} (h : op ≤ OP_PUSHBYTES_75) (ctx : ClassifyContext) :
    classify op ctx = .pushBytes op.toUInt32 :=
  forall_opcode (P := fun op ctx => op ≤ OP_PUSHBYTES_75 → classify op ctx = .pushBytes op.toUInt32)
    (by decide +kernel) op ctx h

/-- Whether an opcode is followed by data, by its class in the legacy context. -/
def Class.pushesData : Class → Bool
  | .pushBytes _ => true
  | .ordinary op => op == OP_PUSHDATA1 || op == OP_PUSHDATA2 || op == OP_PUSHDATA4
  | _ => false

/-- The opcodes that are followed by data come first. -/
theorem pushesData_classify (op : UInt8) (ctx : ClassifyContext) :
    (classify op ctx).pushesData = true ↔ op ≤ OP_PUSHDATA4 :=
  forall_opcode (P := fun op ctx => (classify op ctx).pushesData = true ↔ op ≤ OP_PUSHDATA4)
    (by decide +kernel) op ctx

/-! ## Numbers -/

/-- `Opcode::decode_pushnum`. -/
def decodePushnum (op : UInt8) : Option UInt8 :=
  if OP_PUSHNUM_1 ≤ op ∧ op ≤ OP_PUSHNUM_16 then some (op - OP_PUSHNUM_1 + 1) else none

/-- The opcode of a number from 1 to 16. -/
def numberOpcode (n : ℕ) : UInt8 := UInt8.ofNat (0x50 + n)

theorem decodePushnum_numberOpcode {n : ℕ} (hmin : 1 ≤ n) (hmax : n ≤ 16) :
    decodePushnum (numberOpcode n) = some (UInt8.ofNat n) := by
  have hall : ∀ n : Fin 17, 1 ≤ n.val → decodePushnum (numberOpcode n.val) = some (UInt8.ofNat n.val) := by
    decide +kernel
  exact hall ⟨n, by omega⟩ hmin

theorem eq_numberOpcode {op num : UInt8} (h : decodePushnum op = some num) :
    1 ≤ num.toNat ∧ num.toNat ≤ 16 ∧ op = numberOpcode num.toNat := by
  have hall : ∀ op : Fin 256, (decodePushnum (UInt8.ofFin op)).all fun num =>
      1 ≤ num.toNat ∧ num.toNat ≤ 16 ∧ UInt8.ofFin op = numberOpcode num.toNat := by decide +kernel
  exact of_decide_eq_true ((Option.all_eq_true _ _).1 (hall op.toFin) num h)

/-- The opcodes of the numbers, and what they are decoded to. -/
theorem decodePushnum_eq_some_iff {op num : UInt8} :
    decodePushnum op = some num ↔ 1 ≤ num.toNat ∧ num.toNat ≤ 16 ∧ op = numberOpcode num.toNat := by
  constructor
  · exact eq_numberOpcode
  · rintro ⟨hmin, hmax, rfl⟩
    rw [decodePushnum_numberOpcode hmin hmax, UInt8.ofNat_toNat]

end RustDogecoin
