import RustDogecoin.Blockdata.Opcode

/-!
# Pushes and their shortest encodings

A script can put the same bytes on the stack in several ways: with an opcode that is the length, with one
of three opcodes that have the length behind them, and for sixteen small numbers and `-1` with an opcode
of its own.  `Shortest` compares them, and `shortest_iff` says which of the forms with data is shortest.
-/

namespace RustDogecoin

/-- The forms of a push with data. -/
inductive PushForm where
  | direct
  | pushData1
  | pushData2
  | pushData4
  deriving DecidableEq, Repr

namespace PushForm

/-- The lengths from here on cannot be written. -/
def limit : PushForm → ℕ
  | direct => 76
  | pushData1 => 0x100
  | pushData2 => 0x10000
  | pushData4 => 0x100000000

/-- The lengths from here on cannot be written shorter. -/
def minPushLen : PushForm → ℕ
  | direct => 0
  | pushData1 => 76
  | pushData2 => 0x100
  | pushData4 => 0x10000

/-- The opcode and the length. -/
def header : PushForm → ℕ → Bytes
  | direct, n => [UInt8.ofNat n]
  | pushData1, n => OP_PUSHDATA1 :: leBytes 1 n
  | pushData2, n => OP_PUSHDATA2 :: leBytes 2 n
  | pushData4, n => OP_PUSHDATA4 :: leBytes 4 n

def headerLen : PushForm → ℕ
  | direct => 1
  | pushData1 => 2
  | pushData2 => 3
  | pushData4 => 5

@[simp] theorem length_header (form : PushForm) (n : ℕ) : (form.header n).length = form.headerLen := by
  cases form <;> simp [header, headerLen]

/-- A form whose lengths start below the limit of another is no longer than it. -/
theorem headerLen_le {form form' : PushForm} (h : form.minPushLen < form'.limit) :
    form.headerLen ≤ form'.headerLen := by
  cases form <;> cases form' <;> simp_all [minPushLen, limit, headerLen]

/-- Below its lengths there is a shorter form. -/
theorem exists_shorter {form : PushForm} {n : ℕ} (h : n < form.minPushLen) :
    ∃ form' : PushForm, n < form'.limit ∧ form'.headerLen < form.headerLen := by
  cases form with
  | direct => exact absurd h (Nat.not_lt_zero n)
  | pushData1 => exact ⟨direct, h, by decide⟩
  | pushData2 => exact ⟨pushData1, h, by decide⟩
  | pushData4 => exact ⟨pushData2, h, by decide⟩

end PushForm

/-- A byte that an opcode of its own pushes, as a number. -/
def IsNumByte (b : UInt8) : Prop := b = 0x81 ∨ 0 < b ∧ b ≤ 16

instance : DecidablePred IsNumByte := fun _ => inferInstanceAs (Decidable (_ ∨ _))

/-- `Pushes raw data`: the instruction `raw` puts `data` on the stack. -/
inductive Pushes : Bytes → Bytes → Prop
  | data (form : PushForm) {data : Bytes} (h : data.length < form.limit) :
    Pushes (form.header data.length ++ data) data
  | num {b : UInt8} (h : 0 < b ∧ b ≤ 16) : Pushes [OP_PUSHNUM_1 + (b - 1)] [b]
  | neg1 : Pushes [OP_PUSHNUM_NEG1] [0x81]

/-- `raw` is a shortest encoding of a push of `data`. -/
def Shortest (raw data : Bytes) : Prop :=
  Pushes raw data ∧ ∀ raw', Pushes raw' data → raw.length ≤ raw'.length

theorem exists_pushes_of_isNumByte {b : UInt8} (h : IsNumByte b) : ∃ op, Pushes [op] [b] := by
  rcases h with rfl | h
  · exact ⟨_, .neg1⟩
  · exact ⟨_, .num h⟩

/-- A form with data is the shortest for its own lengths, except for a byte with an own opcode. -/
theorem shortest_iff {form : PushForm} {data : Bytes} (h : data.length < form.limit) :
    Shortest (form.header data.length ++ data) data ↔
      form.minPushLen ≤ data.length ∧ ¬ ∃ b, data = [b] ∧ IsNumByte b := by
  constructor
  · rintro ⟨-, hle⟩
    constructor
    · by_contra hlt
      obtain ⟨form', hlimit, hshorter⟩ := PushForm.exists_shorter (Nat.lt_of_not_le hlt)
      have hlength := hle _ (.data form' hlimit)
      simp only [List.length_append, PushForm.length_header] at hlength
      omega
    · rintro ⟨b, rfl, hb⟩
      obtain ⟨op, hop⟩ := exists_pushes_of_isNumByte hb
      have hlength := hle _ hop
      have hpos : 0 < form.headerLen := by cases form <;> decide
      simp only [List.length_append, PushForm.length_header, List.length_singleton] at hlength
      omega
  · rintro ⟨hmin, hnum⟩
    refine ⟨.data form h, fun raw' hraw' => ?_⟩
    cases hraw' with
    | data form' hlimit =>
      have hlen := PushForm.headerLen_le (hmin.trans_lt hlimit)
      simp only [List.length_append, PushForm.length_header]
      omega
    | num hb => exact absurd ⟨_, rfl, .inr hb⟩ hnum
    | neg1 => exact absurd ⟨_, rfl, .inl rfl⟩ hnum

end RustDogecoin
