import RustDogecoin.Blockdata.Block
import RustDogecoin.Blockdata.ScriptBuilder

/-!
# The height in a coinbase

`Block::bip34_block_height` of `blockdata/block.rs`: the first instruction of the coinbase script, read in minimal
mode, has to be a push of a script number.  `Builder::push_int` writes the heights from 1 to 16 as opcodes of their
own, which are not such a push, and in minimal mode nothing else stands for them.
-/

namespace RustDogecoin

open SignMagnitude

namespace Blockdata

/-- An error when looking up a BIP34 block height. -/
inductive Bip34Error where
  | unsupported
  | notPresent
  | unexpectedPush (bytes : Bytes)
  | negativeHeight
  deriving DecidableEq, Repr

namespace Block

/-- Returns the coinbase transaction, if one is present. -/
def coinbase (block : Block) : Option Transaction := block.txdata.head?

/-- The height that the first instruction of a script stands for. -/
def pushedHeight : Option (Except ScriptError Instruction) → Outcome Bip34Error UInt64
  | none => .err .notPresent
  | some (.error _) => .err .notPresent
  | some (.ok (.pushBytes b)) =>
    match readScriptint b.bytes with
    | .error _ => .err (.unexpectedPush b.bytes)
    | .ok h => if h < 0 then .err .negativeHeight else .ok (UInt64.ofNat h.toNat)
  | some (.ok (.op _)) => .err .notPresent

/-- Returns the block height, as encoded in the coinbase transaction according to BIP34. -/
def bip34BlockHeight (block : Block) : Outcome Bip34Error UInt64 :=
  if block.header.version < 2 then .err .unsupported
  else
    match block.coinbase with
    | none => .err .notPresent
    | some cb =>
      match cb.input.head? with
      | none => .err .notPresent
      | some input => pushedHeight (ScriptBuf.instructionsMinimal input.scriptSig).next.1

/-! ## The first instruction -/

theorem next_bytes {i : Instruction} (h : i.Allowed) (rest : Bytes) :
    (ScriptBuf.instructionsMinimal (i.bytes ++ rest)).next.1 = some (.ok i) := by
  rw [ScriptBuf.instructionsMinimal, Instructions.next_reads (Instruction.reads_bytes_of_allowed h)]

theorem of_next_eq_ok {script : ScriptBuf} {i : Instruction}
    (h : (ScriptBuf.instructionsMinimal script).next.1 = some (.ok i)) :
    i.Allowed ∧ ∃ rest, script = i.bytes ++ rest := by
  have hne : script ≠ [] := by
    rintro rfl
    cases h
  obtain ⟨raw, rest, j, rfl, hnext, hj⟩ | ⟨e, hnext⟩ := Instructions.next_cases hne true
  · rw [ScriptBuf.instructionsMinimal, hnext] at h
    cases h
    obtain ⟨hallowed, rfl⟩ := Instruction.allowed_of_reads (Instructions.reads_of_next hj hnext)
    exact ⟨hallowed, rest, rfl⟩
  · rw [ScriptBuf.instructionsMinimal, hnext] at h
    cases h

/-! ## Heights that are written -/

theorem toInt_ofNat {n : ℕ} (h : n < 2 ^ 31) : (Int64.ofNat n).toInt = n :=
  Int64.toInt_ofNat_of_lt (h.trans (by decide))

/-- The data of an integer that is pushed without an opcode of its own. -/
theorem of_pushIntNonMinimal {b b' : Builder} {n : Int64} (h : b.pushIntNonMinimal n = .ok b') :
    ∃ d : PushBytes, scriptintBytes (.replicate 8 0) n = .ok d.bytes ∧ b' = b.pushSlice d := by
  obtain ⟨⟨buf, len⟩, hwrite, h⟩ := Outcome.bind_eq_ok_iff.1 h
  obtain ⟨d, hd, h⟩ := Outcome.bind_eq_ok_iff.1 h
  cases h
  rw [PushBytes.upTo, Outcome.require_bind_eq_ok_iff] at hd
  obtain ⟨-, hd⟩ := hd
  refine ⟨d, ?_, rfl⟩
  rw [scriptintBytes, hwrite]
  split_ifs at hd
  cases hd
  rfl

/-- A number byte stands for a number from -1 to 16. -/
theorem value_numByte {b : UInt8} (h : IsNumByte b) : value [b] ≤ 16 := by
  have hall : ∀ n : Fin 256, IsNumByte (UInt8.ofFin n) → value [UInt8.ofFin n] ≤ 16 := by decide +kernel
  exact hall b.toFin h

/-- A height from 17 on is pushed as data which the reader takes. -/
theorem pushedHeight_of_large {n : ℕ} (hn : n < 2 ^ 31) (hlarge : 16 < n) {d : PushBytes}
    (h : scriptintBytes (.replicate 8 0) (Int64.ofNat n) = .ok d.bytes) :
    (Instruction.pushBytes d).Allowed ∧ readScriptint d.bytes = .ok n := by
  obtain ⟨-, hshortest, hvalue⟩ := scriptintBytes_eq_ok_iff.1 h
  rw [toInt_ofNat hn] at hvalue
  refine ⟨?_, readScriptint_eq_ok_iff.2 ⟨?_, hshortest, hvalue⟩⟩
  · rintro ⟨b, hb, hnum⟩
    have hle := value_numByte hnum
    rw [← hb, hvalue] at hle
    omega
  · have hfour : bound 4 = 2 ^ 31 := by decide
    have hle := hshortest (encode 4 n) (by rw [value_encode (by omega), hvalue])
    rwa [length_encode] at hle

/-- What a script of a height and more bytes is read as. -/
theorem pushedHeight_pushInt {n : ℕ} (hn : n < 2 ^ 31) {b : Builder}
    (h : Builder.new.pushInt (Int64.ofNat n) = .ok b) (rest : Bytes) :
    pushedHeight (ScriptBuf.instructionsMinimal (b.script ++ rest)).next.1 =
      if 1 ≤ n ∧ n ≤ 16 then .err .notPresent else .ok (UInt64.ofNat n) := by
  have hone : (1 : Int64).toInt = 1 := by decide
  have hsixteen : (16 : Int64).toInt = 16 := by decide
  have hneg : (-1 : Int64).toInt = -1 := by decide
  have hzero : (0 : Int64).toInt = 0 := by decide
  have hval := toInt_ofNat hn
  have hsmall : (Int64.ofNat n = -1 ∨ 1 ≤ Int64.ofNat n ∧ Int64.ofNat n ≤ 16) ↔ 1 ≤ n ∧ n ≤ 16 := by
    rw [Int64.le_iff_toInt_le, Int64.le_iff_toInt_le, ← Int64.toInt_inj, hval, hone, hsixteen, hneg]
    omega
  have hnull : Int64.ofNat n = 0 ↔ n = 0 := by
    rw [← Int64.toInt_inj, hval, hzero]
    omega
  rw [Builder.pushInt] at h
  split_ifs at h with hdata hdata'
  · -- an opcode
    cases h
    rw [if_pos (hsmall.1 hdata)]
    exact congrArg pushedHeight (next_bytes (i := .op _) (Builder.smallInt_opcode hdata) rest)
  · -- an empty push
    cases h
    obtain rfl := hnull.1 hdata'
    exact congrArg pushedHeight (next_bytes (i := .pushBytes .empty) (by rintro ⟨_, h, -⟩; cases h) rest)
  · have hlarge : 16 < n := by
      rw [hsmall] at hdata
      rw [hnull] at hdata'
      omega
    obtain ⟨d, hbytes, rfl⟩ := of_pushIntNonMinimal h
    obtain ⟨hallowed, hread⟩ := pushedHeight_of_large hn hlarge hbytes
    rw [Builder.pushSlice, ScriptBuf.pushSlice_eq, Builder.new, List.nil_append, next_bytes hallowed,
      if_neg (by omega), pushedHeight, hread]
    rfl

/-! ## Heights that are read -/

theorem of_pushedHeight_eq_ok {item : Option (Except ScriptError Instruction)} {h : UInt64}
    (hrun : pushedHeight item = .ok h) :
    ∃ (d : PushBytes) (n : ℕ), item = some (.ok (.pushBytes d)) ∧ readScriptint d.bytes = .ok (n : ℤ) ∧
      h = UInt64.ofNat n := by
  rcases item with _ | _ | d | op
  · cases hrun
  · cases hrun
  · rw [pushedHeight] at hrun
    cases hread : readScriptint d.bytes with
    | error e =>
      rw [hread] at hrun
      cases hrun
    | ok n =>
      rw [hread] at hrun
      dsimp only at hrun
      split_ifs at hrun with hneg
      cases hrun
      exact ⟨d, n.toNat, rfl, by rw [hread, Int.toNat_of_nonneg (Int.not_lt.1 hneg)], rfl⟩
  · cases hrun

/-- A script whose height is read begins with the shortest push of what is written for it. -/
theorem written_of_pushedHeight {script : ScriptBuf} {h : UInt64}
    (hrun : pushedHeight (ScriptBuf.instructionsMinimal script).next.1 = .ok h) :
    ∃ (form : PushForm) (v rest : Bytes), script = form.header v.length ++ v ++ rest ∧
      scriptintBytes (.replicate 8 0) h.toInt64 = .ok v ∧ Shortest (form.header v.length ++ v) v := by
  obtain ⟨d, n, hnext, hread, rfl⟩ := of_pushedHeight_eq_ok hrun
  obtain ⟨hallowed, rest, rfl⟩ := of_next_eq_ok hnext
  obtain ⟨hlength, hshortest, hvalue⟩ := readScriptint_eq_ok_iff.1 hread
  have hlt := (natAbs_value_lt d.bytes).trans_le (bound_le hlength)
  have hn : n < 2 ^ 31 := by
    rw [hvalue] at hlt
    exact hlt
  refine ⟨PushForm.ofLen d.bytes.length, d.bytes, rest, rfl, ?_, ?_⟩
  · have hint : (UInt64.ofNat n).toInt64 = Int64.ofNat n := UInt64.toInt64_ofNat'
    rw [hint, scriptintBytes_eq_ok_iff, toInt_ofNat hn]
    refine ⟨?_, hshortest, hvalue⟩
    intro hmin
    have hneg := toInt_ofNat hn
    rw [hmin, Int64.toInt_minValue] at hneg
    omega
  · exact (Instruction.reads_bytes_of_allowed hallowed).2 rfl d rfl

theorem bip34BlockHeight_eq {block : Block} (hversion : 2 ≤ block.header.version) {cb : Transaction}
    (hcb : block.coinbase = some cb) {input : TxIn} (hinput : cb.input.head? = some input) :
    block.bip34BlockHeight = pushedHeight (ScriptBuf.instructionsMinimal input.scriptSig).next.1 := by
  rw [bip34BlockHeight, if_neg (Int32.not_lt.2 hversion)]
  simp only [hcb, hinput]

/-- A height below `2 ^ 31` that is written in front of the coinbase script is read exactly if it is not one of
those from 1 to 16; and whatever is read stands in front of the script as its shortest push. -/
theorem bip34BlockHeight_iff (block : Block) :
    (∀ (cb : Transaction) (input : TxIn) (n : ℕ) (b : Builder) (rest : Bytes), 2 ≤ block.header.version →
      block.coinbase = some cb → cb.input.head? = some input → n < 2 ^ 31 →
      Builder.new.pushInt (Int64.ofNat n) = .ok b → input.scriptSig = b.script ++ rest →
        (block.bip34BlockHeight = .ok (UInt64.ofNat n) ↔ ¬(1 ≤ n ∧ n ≤ 16))) ∧
    ∀ h, block.bip34BlockHeight = .ok h → ∃ cb input, 2 ≤ block.header.version ∧ block.coinbase = some cb ∧
      cb.input.head? = some input ∧ ∃ (form : PushForm) (v rest : Bytes),
        input.scriptSig = form.header v.length ++ v ++ rest ∧
        scriptintBytes (.replicate 8 0) h.toInt64 = .ok v ∧ Shortest (form.header v.length ++ v) v := by
  constructor
  · intro cb input n b rest hversion hcb hinput hn hpush hscript
    rw [bip34BlockHeight_eq hversion hcb hinput, hscript, pushedHeight_pushInt hn hpush]
    split_ifs with hsmall <;> simp [hsmall]
  · intro h hrun
    rw [bip34BlockHeight] at hrun
    split_ifs at hrun with hversion
    cases hcb : block.coinbase with
    | none =>
      rw [hcb] at hrun
      cases hrun
    | some cb =>
      rw [hcb] at hrun
      dsimp only at hrun
      cases hinput : cb.input.head? with
      | none =>
        rw [hinput] at hrun
        cases hrun
      | some input =>
        rw [hinput] at hrun
        exact ⟨cb, input, Int32.not_lt.1 hversion, rfl, hinput, written_of_pushedHeight hrun⟩

/-- A block whose coinbase has this script. -/
def withCoinbaseScript (script : ScriptBuf) : Block where
  header :=
    { version := 2, prevBlockhash := U8Array.replicate 32 0, merkleRoot := U8Array.replicate 32 0, time := 0,
      bits := 0x207fffff, nonce := 0 }
  txdata := [⟨1, LockTime.fromConsensus 0,
    [⟨⟨U8Array.replicate 32 0, 0xffffffff⟩, script, 0xffffffff, Witness.new⟩], []⟩]

theorem bip34BlockHeight_iff_sample :
    (withCoinbaseScript [0x01, 0x11, 0x00]).bip34BlockHeight = .ok 17 ↔ ¬(1 ≤ 17 ∧ 17 ≤ 16) :=
  (bip34BlockHeight_iff (withCoinbaseScript [0x01, 0x11, 0x00])).1 _ _ 17 ⟨[0x01, 0x11], none⟩ [0x00] (by decide)
    rfl rfl (by decide) (by decide +kernel) rfl

/-- `push_int(1)` is `OP_1`. -/
theorem bip34BlockHeight_one :
    Builder.new.pushInt 1 = .ok ⟨[0x51], some 0x51⟩ ∧
      (withCoinbaseScript [0x51]).bip34BlockHeight = .err .notPresent ∧
      (withCoinbaseScript [0x51]).bip34BlockHeight ≠ .ok 1 := by
  decide +kernel

end Block

end Blockdata

end RustDogecoin
