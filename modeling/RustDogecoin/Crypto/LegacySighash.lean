import RustDogecoin.Crypto.Sighash

/-!
# Legacy signature hashes

Bitcoin Core writes the data of a legacy signature field by field, looking at the bits of the hash type where
they matter (`Core.serialize`).  The code turns the hash type into one of six flags, rebuilds a transaction and
encodes it.  Both write the same bytes for every hash type (`legacySignatureHash_eq`).
-/

namespace RustDogecoin

open Sighash SighashCache

/-! ## The reference -/

namespace Core

def anyoneCanPay (n : UInt32) : Bool := n &&& 0x80 != 0

def hashNone (n : UInt32) : Bool := n &&& 0x1f == 0x02

def hashSingle (n : UInt32) : Bool := n &&& 0x1f == 0x03

section

variable (tx : Transaction) (nIn : ℕ) (scriptCode : ScriptBuf) (n : UInt32)

/-- The input at a position; with ANYONECANPAY it is always the one that is signed. -/
def serializeInput : Encoder ℕ := fun pos => do
  let pos := if anyoneCanPay n then nIn else pos
  match tx.input[pos]? with
  | none => .panic .outOfBounds
  | some input =>
    let prevout ← OutPoint.codec.consensusEncode input.previousOutput
    let script ← vecU8.consensusEncode (if pos = nIn then scriptCode else [])
    let sequence ← u32.consensusEncode
      (if pos ≠ nIn ∧ (hashSingle n ∨ hashNone n) then 0 else input.sequence)
    return prevout ++ (script ++ sequence)

/-- The output at a position; with SINGLE those before the signed one have value -1 and no script. -/
def serializeOutput : Encoder ℕ := fun pos =>
  if hashSingle n ∧ pos ≠ nIn then .ok ⟨List.replicate 8 0xff ++ [0], 9⟩
  else
    match tx.output[pos]? with
    | none => .panic .outOfBounds
    | some output => TxOut.codec.consensusEncode output

def nInputs : ℕ := if anyoneCanPay n then 1 else tx.input.length

def nOutputs : ℕ := if hashNone n then 0 else if hashSingle n then nIn + 1 else tx.output.length

/-- The data that is hashed: version, inputs, outputs, lock time and hash type. -/
def serialize : Outcome Empty Written := do
  let version ← i32.consensusEncode tx.version
  let inputs ← Encoder.counted encodeLen (serializeInput tx nIn scriptCode n) (List.range (nInputs tx n))
  let outputs ← Encoder.counted encodeLen (serializeOutput tx nIn n) (List.range (nOutputs tx nIn n))
  let lockTime ← LockTime.codec.consensusEncode tx.lockTime
  return version ++ inputs ++ outputs ++ lockTime ++ ⟨leBytes 4 n.toNat, 4⟩

/-- SINGLE without an output at the index of the input. -/
def SingleBug : Prop := hashSingle n = true ∧ tx.output.length ≤ nIn

instance : Decidable (SingleBug tx nIn n) := inferInstanceAs (Decidable (_ ∧ _))

/-- The hash that is signed. -/
def signatureHash : Outcome Empty Hash :=
  if SingleBug tx nIn n then .ok ⟨1 :: List.replicate 31 0, SighashCache.length_uint256One⟩
  else (fun w => Sha256d.hash w.bytes) <$> serialize tx nIn scriptCode n

end

end Core

/-! ## Hash types -/

section Bits

variable (n : UInt32)

/-- Only the lowest byte of a hash type matters. -/
theorem and_lowByte (mask : UInt32) (h : 0xff &&& mask = mask) : (n &&& 0xff) &&& mask = n &&& mask := by
  rw [UInt32.and_assoc, h]

theorem hashNone_lowByte : Core.hashNone (n &&& 0xff) = Core.hashNone n := by
  rw [Core.hashNone, and_lowByte n 0x1f rfl, Core.hashNone]

theorem hashSingle_lowByte : Core.hashSingle (n &&& 0xff) = Core.hashSingle n := by
  rw [Core.hashSingle, and_lowByte n 0x1f rfl, Core.hashSingle]

theorem anyoneCanPay_lowByte : Core.anyoneCanPay (n &&& 0xff) = Core.anyoneCanPay n := by
  rw [Core.anyoneCanPay, and_lowByte n 0x80 rfl, Core.anyoneCanPay]

theorem fromConsensus_lowByte :
    EcdsaSighashType.fromConsensus (n &&& 0xff) = EcdsaSighashType.fromConsensus n := by
  unfold EcdsaSighashType.fromConsensus
  rw [and_lowByte n _ rfl]

theorem exists_lowByte : ∃ k : Fin 256, n &&& 0xff = UInt32.ofNat k := by
  have hlt : (n &&& 0xff).toNat < 256 := by
    rw [UInt32.toNat_and]
    exact lt_of_le_of_lt Nat.and_le_right (by decide)
  refine ⟨⟨(n &&& 0xff).toNat, hlt⟩, ?_⟩
  rw [UInt32.ofNat_toNat]

/-- The flags by the bits that the reference looks at. -/
theorem split_fromConsensus :
    (EcdsaSighashType.fromConsensus n).splitAnyonecanpayFlag =
      (if Core.hashNone n then .none else if Core.hashSingle n then .single else .all,
        Core.anyoneCanPay n) := by
  have hbyte : ∀ k : Fin 256, (EcdsaSighashType.fromConsensus (UInt32.ofNat k)).splitAnyonecanpayFlag =
      (if Core.hashNone (UInt32.ofNat k) then .none
        else if Core.hashSingle (UInt32.ofNat k) then .single else .all,
        Core.anyoneCanPay (UInt32.ofNat k)) := by
    decide +kernel
  obtain ⟨k, hk⟩ := exists_lowByte n
  have h := hbyte k
  rwa [← hk, fromConsensus_lowByte, hashNone_lowByte, hashSingle_lowByte, anyoneCanPay_lowByte] at h

theorem isSingle_fromConsensus : (EcdsaSighashType.fromConsensus n).isSingle = Core.hashSingle n := by
  have hbyte : ∀ k : Fin 256, (EcdsaSighashType.fromConsensus (UInt32.ofNat k)).isSingle =
      Core.hashSingle (UInt32.ofNat k) := by
    decide +kernel
  obtain ⟨k, hk⟩ := exists_lowByte n
  have h := hbyte k
  rwa [← hk, fromConsensus_lowByte, hashSingle_lowByte] at h

end Bits

/-! ## Inputs and outputs -/

section Lists

variable {α β : Type}

/-- Two lists whose entries are written alike. -/
theorem list_congr {enc : Encoder α} {enc' : Encoder β} {as : List α} {bs : List β}
    (h : List.Forall₂ (fun a b => enc a = enc' b) as bs) : enc.list as = enc'.list bs := by
  induction h with
  | nil => rfl
  | cons hab _ ih => rw [Encoder.list, Encoder.list, hab, ih]

/-- A list that is written by positions. -/
theorem list_eq_list_range {enc : Encoder α} {enc' : Encoder ℕ} {as : List α}
    (h : ∀ (pos : ℕ) (hpos : pos < as.length), enc' pos = enc as[pos]) :
    enc.list as = enc'.list (List.range as.length) := by
  refine list_congr (List.forall₂_iff_get.2 ⟨by simp, fun pos hpos _ => ?_⟩)
  rw [List.get_eq_getElem, List.get_eq_getElem, List.getElem_range, h pos hpos]

theorem counted_eq_counted_range {enc : Encoder α} {enc' : Encoder ℕ} {as : List α} {len : ℕ}
    (hlen : as.length = len) (h : ∀ (pos : ℕ) (hpos : pos < as.length), enc' pos = enc as[pos]) :
    Encoder.counted encodeLen enc as = Encoder.counted encodeLen enc' (List.range len) := by
  subst hlen
  rw [Encoder.counted, Encoder.counted, List.length_range, list_eq_list_range h]

end Lists

section

variable {tx : Transaction} {nIn : ℕ} {scriptCode : ScriptBuf} {n : UInt32}

/-- The flag of a hash type without ANYONECANPAY. -/
def baseType (n : UInt32) : EcdsaSighashType :=
  if Core.hashNone n then .none else if Core.hashSingle n then .single else .all

theorem baseType_eq_iff : (baseType n = .single ∨ baseType n = .none) ↔ Core.hashSingle n ∨ Core.hashNone n := by
  unfold baseType
  split_ifs with hnone hsingle <;> simp_all

theorem encode_txIn (prevout : OutPoint) (script : ScriptBuf) (sequence : UInt32) (w : Witness) :
    TxIn.codec.consensusEncode ⟨prevout, script, sequence, w⟩ = (do
      let prevout ← OutPoint.codec.consensusEncode prevout
      let script ← vecU8.consensusEncode script
      let sequence ← u32.consensusEncode sequence
      return prevout ++ (script ++ sequence)) := by
  show TxIn.fieldsCodec.consensusEncode (prevout, script, sequence) = _
  simp only [TxIn.fieldsCodec, Codec.seq, Encoder.seq]
  cases vecU8.consensusEncode script <;> rfl

variable (scriptCode n) in
/-- The inputs of the rebuilt transaction are written as the reference writes them. -/
theorem legacyInputs_eq (h : nIn < tx.input.length) :
    ∃ inputs, legacyInputs tx nIn scriptCode (baseType n) (Core.anyoneCanPay n) = .ok inputs ∧
      inputs ≠ [] ∧ (∀ t ∈ inputs, t.witness = Witness.new) ∧
      (vec TxIn.codec).consensusEncode inputs =
        Encoder.counted encodeLen (Core.serializeInput tx nIn scriptCode n) (List.range (Core.nInputs tx n)) := by
  unfold legacyInputs
  cases hacp : Core.anyoneCanPay n with
  | true =>
    rw [if_pos rfl, List.getElem?_eq_getElem h]
    refine ⟨_, rfl, by simp, by simp, ?_⟩
    apply counted_eq_counted_range (by simp [Core.nInputs, hacp])
    intro pos hpos
    have hpos : pos = 0 := by simpa using hpos
    subst hpos
    simp only [Core.serializeInput, hacp, if_true, List.getElem?_eq_getElem h, ne_eq, not_true_eq_false,
      false_and, if_false, List.getElem_cons_zero, encode_txIn]
  | false =>
    rw [if_neg Bool.false_ne_true]
    refine ⟨_, rfl, ?_, ?_, ?_⟩
    · intro hnil
      have hlen := congrArg List.length hnil
      simp only [List.length_mapIdx, List.length_nil] at hlen
      omega
    · intro t ht
      obtain ⟨k, hk, rfl⟩ := List.mem_mapIdx.1 ht
      rfl
    · apply counted_eq_counted_range (by simp [Core.nInputs, hacp])
      intro pos hpos
      have hpos' : pos < tx.input.length := by simpa using hpos
      simp only [Core.serializeInput, hacp, Bool.false_eq_true, if_false, List.getElem?_eq_getElem hpos',
        List.getElem_mapIdx, baseType_eq_iff, encode_txIn]

/-- The outputs of the rebuilt transaction are written as the reference writes them. -/
theorem legacyOutputs_eq (h : ¬Core.SingleBug tx nIn n) :
    ∃ outputs, legacyOutputs tx nIn (baseType n) = .ok outputs ∧
      (vec TxOut.codec).consensusEncode outputs =
        Encoder.counted encodeLen (Core.serializeOutput tx nIn n) (List.range (Core.nOutputs tx nIn n)) := by
  unfold baseType
  cases hnone : Core.hashNone n with
  | true =>
    rw [if_pos rfl]
    exact ⟨[], rfl, counted_eq_counted_range (by simp [Core.nOutputs, hnone]) fun pos hpos => by cases hpos⟩
  | false =>
    rw [if_neg Bool.false_ne_true]
    cases hsingle : Core.hashSingle n with
    | true =>
      rw [if_pos rfl]
      have hlt : nIn < tx.output.length := not_le.1 fun hle => h ⟨hsingle, hle⟩
      have hlen : (tx.output.take (nIn + 1)).length = nIn + 1 := by
        rw [List.length_take]
        omega
      refine ⟨_, rfl, counted_eq_counted_range ?_ fun pos hpos => ?_⟩
      · rw [List.length_mapIdx, hlen, Core.nOutputs, hnone, if_neg Bool.false_ne_true, hsingle, if_pos rfl]
      · have hpos' : pos < tx.output.length := by
          rw [List.length_mapIdx, hlen] at hpos
          omega
        rw [List.getElem_mapIdx, List.getElem_take]
        by_cases hown : pos = nIn
        · simp only [Core.serializeOutput, hsingle, hown, ne_eq, not_true_eq_false, and_false, if_false,
            if_true, List.getElem?_eq_getElem hlt]
        · simp only [Core.serializeOutput, hsingle, hown, ne_eq, not_false_eq_true, and_self, if_true, if_false]
          rfl
    | false =>
      rw [if_neg Bool.false_ne_true]
      refine ⟨tx.output, rfl, counted_eq_counted_range (by simp [Core.nOutputs, hnone, hsingle]) fun pos hpos => ?_⟩
      simp only [Core.serializeOutput, hsingle, Bool.false_eq_true, false_and, if_false,
        List.getElem?_eq_getElem hpos]

variable (scriptCode) in
/-- What is written is what the reference writes. -/
theorem collect_encodeSigningDataToInner (h : nIn < tx.input.length) (hbug : ¬Core.SingleBug tx nIn n) :
    (encodeSigningDataToInner tx nIn scriptCode n).collect =
      (Written.bytes <$> Core.serialize tx nIn scriptCode n).lift := by
  obtain ⟨inputs, hinputs, hne, hwitness, hin⟩ := legacyInputs_eq scriptCode n h
  obtain ⟨outputs, houtputs, hout⟩ := legacyOutputs_eq hbug
  have hlegacy : Transaction.usesSegwitSerialization ⟨tx.version, tx.lockTime, inputs, outputs⟩ = false :=
    Transaction.usesSegwitSerialization_eq_false_iff.2 ⟨hwitness, hne⟩
  have hencode : Transaction.consensusEncode ⟨tx.version, tx.lockTime, inputs, outputs⟩ = (do
      let version ← i32.consensusEncode tx.version
      let input ← (vec TxIn.codec).consensusEncode inputs
      let output ← (vec TxOut.codec).consensusEncode outputs
      let lockTime ← LockTime.codec.consensusEncode tx.lockTime
      return version ++ input ++ output ++ lockTime) := by
    simp only [Transaction.consensusEncode, hlegacy, Bool.not_false, if_true]
  unfold encodeSigningDataToInner
  simp only [split_fromConsensus]
  change (Emit.ofOutcome (legacyInputs tx nIn scriptCode (baseType n) (Core.anyoneCanPay n)) >>= fun input =>
    Emit.ofOutcome (legacyOutputs tx nIn (baseType n)) >>= fun output =>
      Emit.encode (Transaction.consensusEncode ⟨tx.version, tx.lockTime, input, output⟩) >>= fun _ =>
        Emit.encode (u32.consensusEncode n)).collect = _
  rw [hinputs, houtputs]
  change (Emit.encode (Transaction.consensusEncode ⟨tx.version, tx.lockTime, inputs, outputs⟩) >>= fun _ =>
    Emit.encode (u32.consensusEncode n)).collect = _
  rw [hencode, hin, hout, Core.serialize]
  cases Encoder.counted encodeLen (Core.serializeInput tx nIn scriptCode n)
      (List.range (Core.nInputs tx n)) with
  | err e => exact e.elim
  | panic p => rfl
  | ok i =>
    cases Encoder.counted encodeLen (Core.serializeOutput tx nIn n)
        (List.range (Core.nOutputs tx nIn n)) with
    | err e => exact e.elim
    | panic p => rfl
    | ok o => rfl

/-- For every hash type, the code hashes what the reference hashes, and takes the same way out of SINGLE
without an output. -/
theorem legacySignatureHash_eq (s : SighashCache) (nIn : ℕ) (scriptCode : ScriptBuf) (n : UInt32)
    (h : nIn < s.tx.input.length) :
    (if Core.SingleBug s.tx nIn n then s.legacyEncodeSigningDataTo nIn scriptCode n = .sighashSingleBug
      else ∃ m, s.legacyEncodeSigningDataTo nIn scriptCode n = .writeResult m ∧
        m.collect = (Written.bytes <$> Core.serialize s.tx nIn scriptCode n).lift) ∧
      s.legacySignatureHash nIn scriptCode n = (Core.signatureHash s.tx nIn scriptCode n).lift := by
  have htx : txIn s.tx nIn = .ok s.tx.input[nIn] := by rw [txIn, List.getElem?_eq_getElem h]
  have huse : isInvalidUseOfSighashSingle n nIn s.tx.output.length = true ↔ Core.SingleBug s.tx nIn n := by
    rw [isInvalidUseOfSighashSingle, isSingle_fromConsensus, Bool.and_eq_true, decide_eq_true_iff]
    rfl
  unfold legacySignatureHash legacyEncodeSigningDataTo Core.signatureHash
  rw [htx]
  by_cases hbug : Core.SingleBug s.tx nIn n
  · simp only [huse, hbug, if_true]
    exact ⟨trivial, rfl⟩
  · have hwritten := collect_encodeSigningDataToInner scriptCode h hbug
    simp only [huse, hbug, if_false]
    refine ⟨⟨_, rfl, hwritten⟩, ?_⟩
    rw [hwritten]
    cases Core.serialize s.tx nIn scriptCode n with
    | err e => exact e.elim
    | ok w => rfl
    | panic p => rfl

/-- A transaction with two inputs and one output. -/
def sampleLegacyTx : Transaction :=
  ⟨1, .blocks 0 zero_lt_threshold, [⟨⟨U8Array.replicate 32 1, 0⟩, [], 0, Witness.new⟩,
    ⟨⟨U8Array.replicate 32 2, 1⟩, [], 7, Witness.new⟩], [⟨1000, [OP_CHECKSIG]⟩]⟩

/-- SINGLE with another bit set, for the input without an output. -/
theorem legacySignatureHash_eq_sample :
    1 < (new sampleLegacyTx).tx.input.length ∧ Core.SingleBug sampleLegacyTx 1 0x43 ∧
      (new sampleLegacyTx).legacySignatureHash 1 [OP_CHECKSIG] 0x43 = .ok UINT256_ONE := by
  have hlt : 1 < (new sampleLegacyTx).tx.input.length := by decide
  have hbug : Core.SingleBug sampleLegacyTx 1 0x43 := by decide
  refine ⟨hlt, hbug, (legacySignatureHash_eq (new sampleLegacyTx) 1 [OP_CHECKSIG] 0x43 hlt).2.trans ?_⟩
  rfl

end

end RustDogecoin
