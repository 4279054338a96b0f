import RustDogecoin.Blockdata.Witness
import RustDogecoin.Hashes.Sha256

/-!
# Transactions

The transaction codec of `blockdata/transaction.rs`.  A transaction is written in the legacy layout
unless it has a witness or no input; then it is written with a zero byte where the number of inputs
would be, a flag and the witnesses after the outputs.  `Transaction.lawful` is the law of the
finite-reader decoder: the two layouts do not meet, and the segwit layout is accepted only where the
encoder would use it.
-/

namespace RustDogecoin

abbrev Txid := U8Array 32

abbrev Wtxid := U8Array 32

abbrev ScriptBuf := Bytes

structure OutPoint where
  txid : Txid
  vout : UInt32
  deriving DecidableEq, Repr

structure TxIn where
  previousOutput : OutPoint
  scriptSig : ScriptBuf
  sequence : UInt32
  witness : Witness
  deriving DecidableEq

structure TxOut where
  value : UInt64
  scriptPubkey : ScriptBuf
  deriving DecidableEq, Repr

def LOCK_TIME_THRESHOLD : UInt32 := 500000000

/-- `absolute::LockTime`, with the bounds of `Height` and `Time`. -/
inductive LockTime where
  | blocks (height : UInt32) (h : height < LOCK_TIME_THRESHOLD)
  | seconds (time : UInt32) (h : ¬ time < LOCK_TIME_THRESHOLD)
  deriving DecidableEq

theorem zero_lt_threshold : 0 < LOCK_TIME_THRESHOLD := by decide

def LockTime.fromConsensus (n : UInt32) : LockTime :=
  if h : n < LOCK_TIME_THRESHOLD then .blocks n h else .seconds n h

def LockTime.toConsensusU32 : LockTime → UInt32
  | .blocks height _ => height
  | .seconds time _ => time

structure Transaction where
  version : Int32
  lockTime : LockTime
  input : List TxIn
  output : List TxOut
  deriving DecidableEq

/-! ## Codecs of the parts -/

def OutPoint.equiv : OutPoint ≃ Txid × UInt32 where
  toFun o := (o.txid, o.vout)
  invFun p := ⟨p.1, p.2⟩
  left_inv _ := rfl
  right_inv _ := rfl

def OutPoint.codec : Codec OutPoint := ((u8Array 32).tuple u32).wrap OutPoint.equiv

def LockTime.equiv : LockTime ≃ UInt32 where
  toFun := LockTime.toConsensusU32
  invFun := LockTime.fromConsensus
  left_inv t := by
    cases t with
    | blocks n h => exact dif_pos h
    | seconds n h => exact dif_neg h
  right_inv n := by
    unfold LockTime.fromConsensus
    split_ifs <;> rfl

def LockTime.codec : Codec LockTime := u32.wrap LockTime.equiv

def TxOut.equiv : TxOut ≃ UInt64 × ScriptBuf where
  toFun o := (o.value, o.scriptPubkey)
  invFun p := ⟨p.1, p.2⟩
  left_inv _ := rfl
  right_inv _ := rfl

def TxOut.codec : Codec TxOut := implConsensusEncoding TxOut.equiv (u64.seq vecU8)

/-- The fields of an input that stand with it. -/
def TxIn.fields (t : TxIn) : OutPoint × ScriptBuf × UInt32 := (t.previousOutput, t.scriptSig, t.sequence)

/-- An input whose witness has not been read yet. -/
def TxIn.ofFields (p : OutPoint × ScriptBuf × UInt32) : TxIn := ⟨p.1, p.2.1, p.2.2, Witness.new⟩

def TxIn.fieldsCodec : Codec (OutPoint × ScriptBuf × UInt32) := OutPoint.codec.seq (vecU8.seq u32)

def TxIn.codec : Codec TxIn :=
  .ofFinite (fun t => TxIn.fieldsCodec.consensusEncode t.fields)
    (TxIn.ofFields <$> TxIn.fieldsCodec.consensusDecodeFromFiniteReader)

theorem OutPoint.lawful : OutPoint.codec.IsLawful fun _ => True :=
  ((Codec.IsLawful.tuple (lawful_u8Array 32).finite lawful_u32.finite).wrap OutPoint.equiv).congr
    fun _ => by simp

theorem LockTime.lawful : LockTime.codec.IsLawful fun _ => True := lawful_u32.wrap LockTime.equiv

theorem TxOut.lawful : TxOut.codec.IsLawful fun _ => True :=
  ((lawful_u64.seq lawful_vecU8).implConsensusEncoding TxOut.equiv).congr fun _ => by simp

/-- Only inputs without a witness come out of the input codec. -/
theorem TxIn.lawful : TxIn.codec.IsLawful fun t => t.witness = Witness.new := by
  have hf : TxIn.fieldsCodec.IsLawful fun _ => True :=
    (OutPoint.lawful.seq (lawful_vecU8.seq lawful_u32)).congr fun _ => by simp
  refine (Codec.IsLawful.ofFinite
    (hf.finite.retract TxIn.fields TxIn.ofFields fun _ _ => rfl)).congr fun t => ?_
  obtain ⟨o, s, n, w⟩ := t
  simp [TxIn.fields, TxIn.ofFields, eq_comm]

/-! ## Transactions -/

namespace Transaction

def SEGWIT_MARKER : UInt8 := 0x00

def SEGWIT_FLAG : UInt8 := 0x01

def usesSegwitSerialization (tx : Transaction) : Bool :=
  if tx.input.any fun input => !input.witness.isEmpty then true else tx.input.isEmpty

def consensusEncode : Encoder Transaction := fun tx => do
  let version ← i32.consensusEncode tx.version
  if !tx.usesSegwitSerialization then
    let input ← (vec TxIn.codec).consensusEncode tx.input
    let output ← (vec TxOut.codec).consensusEncode tx.output
    let lockTime ← LockTime.codec.consensusEncode tx.lockTime
    return version ++ input ++ output ++ lockTime
  else
    let marker ← u8.consensusEncode SEGWIT_MARKER
    let flag ← u8.consensusEncode SEGWIT_FLAG
    let input ← (vec TxIn.codec).consensusEncode tx.input
    let output ← (vec TxOut.codec).consensusEncode tx.output
    let witnesses ← Encoder.list Witness.codec.consensusEncode (tx.input.map TxIn.witness)
    let lockTime ← LockTime.codec.consensusEncode tx.lockTime
    return version ++ marker ++ flag ++ input ++ output ++ witnesses ++ lockTime

/-- `txin.witness = Decodable::consensus_decode_from_finite_reader(r)?` for every input. -/
def readWitnesses : List TxIn → Read (List TxIn)
  | [] => return []
  | txin :: input => do
    let witness ← Witness.codec.consensusDecodeFromFiniteReader
    let input ← readWitnesses input
    return { txin with witness } :: input

def consensusDecodeFromFiniteReader : Read Transaction := do
  let version ← i32.consensusDecodeFromFiniteReader
  let input ← (vec TxIn.codec).consensusDecodeFromFiniteReader
  if input.isEmpty then
    let segwitFlag ← u8.consensusDecodeFromFiniteReader
    if segwitFlag = 1 then
      let input ← (vec TxIn.codec).consensusDecodeFromFiniteReader
      let output ← (vec TxOut.codec).consensusDecodeFromFiniteReader
      let input ← readWitnesses input
      if !input.isEmpty && input.all fun input => input.witness.isEmpty then
        Decoder.fail (.parseFailed "witness flag set but no witnesses present")
      else
        let lockTime ← LockTime.codec.consensusDecodeFromFiniteReader
        return ⟨version, lockTime, input, output⟩
    else Decoder.fail (.unsupportedSegwitFlag segwitFlag)
  else
    let output ← (vec TxOut.codec).consensusDecodeFromFiniteReader
    let lockTime ← LockTime.codec.consensusDecodeFromFiniteReader
    return ⟨version, lockTime, input, output⟩

def codec : Codec Transaction := .ofFinite consensusEncode consensusDecodeFromFiniteReader

/-- `Transaction::compute_txid`. -/
def computeTxid (tx : Transaction) : Outcome Empty Txid := do
  let version ← i32.consensusEncode tx.version
  let input ← (vec TxIn.codec).consensusEncode tx.input
  let output ← (vec TxOut.codec).consensusEncode tx.output
  let lockTime ← LockTime.codec.consensusEncode tx.lockTime
  return Sha256d.hash (version ++ input ++ output ++ lockTime).bytes

/-- `Transaction::compute_wtxid`. -/
def computeWtxid (tx : Transaction) : Outcome Empty Wtxid := do
  let tx ← codec.consensusEncode tx
  return Sha256d.hash tx.bytes

/-! ### Laws -/

variable {tx : Transaction} {w : Written}

theorem consensusEncode_legacy (h : tx.usesSegwitSerialization = false) :
    consensusEncode tx = .ok w ↔ ∃ v i o l, i32.consensusEncode tx.version = .ok v ∧
      (vec TxIn.codec).consensusEncode tx.input = .ok i ∧
      (vec TxOut.codec).consensusEncode tx.output = .ok o ∧
      LockTime.codec.consensusEncode tx.lockTime = .ok l ∧ w = v ++ i ++ o ++ l := by
  simp only [consensusEncode, h, Bool.not_false, if_true]
  exact Written.bind_append_four_eq_ok_iff

theorem consensusEncode_segwit (h : tx.usesSegwitSerialization = true) :
    consensusEncode tx = .ok w ↔ ∃ v i o ws l, i32.consensusEncode tx.version = .ok v ∧
      (vec TxIn.codec).consensusEncode tx.input = .ok i ∧
      (vec TxOut.codec).consensusEncode tx.output = .ok o ∧
      Encoder.list Witness.codec.consensusEncode (tx.input.map TxIn.witness) = .ok ws ∧
      LockTime.codec.consensusEncode tx.lockTime = .ok l ∧
      w = v ++ ⟨leBytes 1 SEGWIT_MARKER.toNat, 1⟩ ++ ⟨leBytes 1 SEGWIT_FLAG.toNat, 1⟩ ++ i ++ o ++
        ws ++ l := by
  have hu8 : ∀ b : UInt8, u8.consensusEncode b = .ok ⟨leBytes 1 b.toNat, 1⟩ := fun _ => rfl
  simp only [consensusEncode, h, Bool.not_true, Bool.false_eq_true, if_false, hu8, Outcome.ok_bind,
    Outcome.bind_eq_ok_iff, Outcome.pure_eq_ok, Outcome.ok.injEq]
  constructor
  · rintro ⟨v, hv, i, hi, o, ho, ws, hws, l, hl, rfl⟩
    exact ⟨v, i, o, ws, l, hv, hi, ho, hws, hl, rfl⟩
  · rintro ⟨v, i, o, ws, l, hv, hi, ho, hws, hl, rfl⟩
    exact ⟨v, hv, i, hi, o, ho, ws, hws, l, hl, rfl⟩

/-- The input without its witness. -/
def strip (t : TxIn) : TxIn := TxIn.ofFields t.fields

theorem strip_eq_self_iff {t : TxIn} : strip t = t ↔ t.witness = Witness.new := by
  obtain ⟨o, s, n, w⟩ := t
  simp [strip, TxIn.ofFields, TxIn.fields, eq_comm]

theorem map_strip_eq_self {input : List TxIn} (h : ∀ t ∈ input, t.witness = Witness.new) :
    input.map strip = input := by
  conv_rhs => rw [← List.map_id input]
  exact List.map_congr_left fun t ht => strip_eq_self_iff.2 (h t ht)

/-- The input codec does not see witnesses. -/
theorem encode_map_strip (input : List TxIn) :
    (vec TxIn.codec).consensusEncode (input.map strip) = (vec TxIn.codec).consensusEncode input := by
  show Encoder.counted _ _ (input.map strip) = Encoder.counted _ _ input
  rw [Encoder.counted, Encoder.counted, List.length_map, Encoder.list_map]
  rfl

theorem usesSegwitSerialization_eq_false_iff :
    tx.usesSegwitSerialization = false ↔
      (∀ t ∈ tx.input, t.witness = Witness.new) ∧ tx.input ≠ [] := by
  have hany : (tx.input.any fun input => !input.witness.isEmpty) = false ↔
      ∀ t ∈ tx.input, t.witness = Witness.new := by
    simp only [List.any_eq_false, Bool.not_eq_true', Bool.not_eq_false, Witness.isEmpty_iff]
  unfold usesSegwitSerialization
  split_ifs with h
  · apply iff_of_false (by simp)
    intro hall
    rw [hany.2 hall.1] at h
    cases h
  · rw [Bool.not_eq_true] at h
    rw [List.isEmpty_eq_false_iff]
    exact ⟨fun hne => ⟨hany.1 h, hne⟩, fun hall => hall.2⟩

theorem readWitnesses_map_strip {input : List TxIn} {ws : Written}
    (hP : ∀ t ∈ input, t.witness.repr.indicesStart ≤ MAX_VEC_SIZE)
    (h : Encoder.list Witness.codec.consensusEncode (input.map TxIn.witness) = .ok ws)
    (rest : Bytes) :
    (readWitnesses (input.map strip)).run (ws.bytes ++ rest) = .ok (input, rest) := by
  induction input generalizing ws with
  | nil =>
    obtain rfl := Outcome.ok.inj h
    rfl
  | cons t input ih =>
    obtain ⟨u, v, hu, hv, rfl⟩ := Encoder.list_cons_eq_ok_iff.1 h
    have htail := ih (fun t ht => hP t (List.mem_cons_of_mem _ ht)) hv
    rw [List.map_cons, readWitnesses, Written.bytes_append, List.append_assoc,
      Decoder.run_bind_of_ok
        (Witness.lawful.finite.roundTrips _ u (hP t List.mem_cons_self) hu _),
      Decoder.run_bind_of_ok htail, Decoder.run_pure_eq]
    rfl

theorem of_readWitnesses_eq_ok {stripped input : List TxIn} {bs rest : Bytes}
    (h : (readWitnesses stripped).run bs = .ok (input, rest)) :
    input.map strip = stripped.map strip ∧
      (∀ t ∈ input, t.witness.repr.indicesStart ≤ MAX_VEC_SIZE) ∧
      ∃ ws, Encoder.list Witness.codec.consensusEncode (input.map TxIn.witness) = .ok ws ∧
        bs = ws.bytes ++ rest := by
  induction stripped generalizing input bs with
  | nil =>
    cases h
    exact ⟨rfl, by simp, .empty, rfl, rfl⟩
  | cons t stripped ih =>
    rw [readWitnesses] at h
    obtain ⟨wit, r₁, hw, h₁⟩ := Decoder.run_bind_eq_ok_iff.1 h
    obtain ⟨tail, r₂, ht, h₂⟩ := Decoder.run_bind_eq_ok_iff.1 h₁
    cases h₂
    obtain ⟨hP, u, hu, rfl⟩ := Witness.lawful.finite.canonical _ _ _ hw
    obtain ⟨hmap, hall, v, hv, rfl⟩ := ih ht
    refine ⟨?_, ?_, u ++ v, Encoder.list_cons_eq_ok_iff.2 ⟨u, v, hu, hv, rfl⟩, by simp⟩
    · rw [List.map_cons, List.map_cons, hmap]
      rfl
    · intro t' ht'
      rcases List.mem_cons.1 ht' with rfl | ht'
      · exact hP
      · exact hall t' ht'

theorem counts : Counts consensusEncode := by
  intro tx w e
  cases h : tx.usesSegwitSerialization with
  | false =>
    obtain ⟨v, i, o, l, hv, hi, ho, hl, rfl⟩ := (consensusEncode_legacy h).1 e
    simp [lawful_i32.finite.counts _ _ hv, (lawful_vec TxIn.lawful).finite.counts _ _ hi,
      (lawful_vec TxOut.lawful).finite.counts _ _ ho, LockTime.lawful.finite.counts _ _ hl]
    omega
  | true =>
    obtain ⟨v, i, o, ws, l, hv, hi, ho, hws, hl, rfl⟩ := (consensusEncode_segwit h).1 e
    simp [lawful_i32.finite.counts _ _ hv, (lawful_vec TxIn.lawful).finite.counts _ _ hi,
      (lawful_vec TxOut.lawful).finite.counts _ _ ho, LockTime.lawful.finite.counts _ _ hl,
      Witness.lawful.finite.counts.list _ _ hws]
    omega

/-- The marker reads as an empty list of inputs. -/
theorem run_marker (rest : Bytes) :
    (vec TxIn.codec).consensusDecodeFromFiniteReader.run (leBytes 1 SEGWIT_MARKER.toNat ++ rest) =
      .ok ([], rest) :=
  (lawful_vec TxIn.lawful).finite.roundTrips [] _ (by simp) rfl rest

theorem run_outputs {output : List TxOut} {o : Written}
    (h : (vec TxOut.codec).consensusEncode output = .ok o) (rest : Bytes) :
    (vec TxOut.codec).consensusDecodeFromFiniteReader.run (o.bytes ++ rest) = .ok (output, rest) :=
  (lawful_vec TxOut.lawful).finite.roundTrips _ _ (fun _ _ => trivial) h rest

theorem run_inputs {input : List TxIn} {i : Written}
    (h : (vec TxIn.codec).consensusEncode input = .ok i) (rest : Bytes) :
    (vec TxIn.codec).consensusDecodeFromFiniteReader.run (i.bytes ++ rest) =
      .ok (input.map strip, rest) := by
  rw [← encode_map_strip] at h
  refine (lawful_vec TxIn.lawful).finite.roundTrips _ _ ?_ h rest
  intro t ht
  obtain ⟨t', -, rfl⟩ := List.mem_map.1 ht
  rfl

theorem roundTrips : RoundTrips consensusEncode consensusDecodeFromFiniteReader fun tx =>
    ∀ t ∈ tx.input, t.witness.repr.indicesStart ≤ MAX_VEC_SIZE := by
  intro tx w hP e rest
  unfold consensusDecodeFromFiniteReader
  cases h : tx.usesSegwitSerialization with
  | false =>
    obtain ⟨hnew, hne⟩ := usesSegwitSerialization_eq_false_iff.1 h
    obtain ⟨v, i, o, l, hv, hi, ho, hl, rfl⟩ := (consensusEncode_legacy h).1 e
    simp only [Written.bytes_append, List.append_assoc]
    rw [Decoder.run_bind_of_ok (lawful_i32.finite.roundTrips _ v trivial hv _),
      Decoder.run_bind_of_ok (run_inputs hi _), map_strip_eq_self hnew,
      if_neg (by simpa using hne), Decoder.run_bind_of_ok (run_outputs ho _),
      Decoder.run_bind_of_ok (LockTime.lawful.finite.roundTrips _ l trivial hl _),
      Decoder.run_pure_eq]
  | true =>
    obtain ⟨v, i, o, ws, l, hv, hi, ho, hws, hl, rfl⟩ := (consensusEncode_segwit h).1 e
    have hsome : ¬ (!tx.input.isEmpty && tx.input.all fun input => input.witness.isEmpty) = true := by
      intro hall
      simp only [Bool.and_eq_true, Bool.not_eq_true', List.isEmpty_eq_false_iff, List.all_eq_true,
        Witness.isEmpty_iff] at hall
      rw [usesSegwitSerialization_eq_false_iff.2 ⟨hall.2, hall.1⟩] at h
      cases h
    simp only [Written.bytes_append, List.append_assoc]
    rw [Decoder.run_bind_of_ok (lawful_i32.finite.roundTrips _ v trivial hv _),
      Decoder.run_bind_of_ok (run_marker _), if_pos (by rfl),
      Decoder.run_bind_of_ok (lawful_u8.finite.roundTrips SEGWIT_FLAG _ trivial rfl _), if_pos (by rfl),
      Decoder.run_bind_of_ok (run_inputs hi _), Decoder.run_bind_of_ok (run_outputs ho _),
      Decoder.run_bind_of_ok (readWitnesses_map_strip hP hws _), if_neg hsome,
      Decoder.run_bind_of_ok (LockTime.lawful.finite.roundTrips _ l trivial hl _),
      Decoder.run_pure_eq]

theorem canonical : Canonical consensusEncode consensusDecodeFromFiniteReader fun tx =>
    ∀ t ∈ tx.input, t.witness.repr.indicesStart ≤ MAX_VEC_SIZE := by
  intro bs tx rest hr
  unfold consensusDecodeFromFiniteReader at hr
  obtain ⟨version, r₁, hver, h₁⟩ := Decoder.run_bind_eq_ok_iff.1 hr
  obtain ⟨input, r₂, hin, h₂⟩ := Decoder.run_bind_eq_ok_iff.1 h₁
  obtain ⟨-, v, hv, rfl⟩ := lawful_i32.finite.canonical _ _ _ hver
  obtain ⟨hnew, i, hi, rfl⟩ := (lawful_vec TxIn.lawful).finite.canonical _ _ _ hin
  split_ifs at h₂ with hemp
  · -- the segwit layout
    obtain ⟨flag, r₃, hflag, h₃⟩ := Decoder.run_bind_eq_ok_iff.1 h₂
    obtain ⟨-, f, hf, rfl⟩ := lawful_u8.finite.canonical _ _ _ hflag
    split_ifs at h₃ with hone
    · obtain ⟨input', r₄, hin', h₄⟩ := Decoder.run_bind_eq_ok_iff.1 h₃
      obtain ⟨output, r₅, hout, h₅⟩ := Decoder.run_bind_eq_ok_iff.1 h₄
      obtain ⟨input'', r₆, hwit, h₆⟩ := Decoder.run_bind_eq_ok_iff.1 h₅
      obtain ⟨hnew', i', hi', rfl⟩ := (lawful_vec TxIn.lawful).finite.canonical _ _ _ hin'
      obtain ⟨-, o, ho, rfl⟩ := (lawful_vec TxOut.lawful).finite.canonical _ _ _ hout
      obtain ⟨hmap, hP, ws, hws, rfl⟩ := of_readWitnesses_eq_ok hwit
      split_ifs at h₆ with hall
      · cases h₆
      · obtain ⟨lockTime, r₇, hlock, h₇⟩ := Decoder.run_bind_eq_ok_iff.1 h₆
        obtain ⟨-, l, hl, rfl⟩ := LockTime.lawful.finite.canonical _ _ _ hlock
        cases h₇
        have hseg : usesSegwitSerialization ⟨version, lockTime, input'', output⟩ = true := by
          rw [← Bool.not_eq_false, usesSegwitSerialization_eq_false_iff]
          rintro ⟨hempty, hne⟩
          apply hall
          simp only [Bool.and_eq_true, Bool.not_eq_true', List.isEmpty_eq_false_iff,
            List.all_eq_true, Witness.isEmpty_iff]
          exact ⟨hne, hempty⟩
        have hi'' : (vec TxIn.codec).consensusEncode input'' = .ok i' := by
          rw [← encode_map_strip, hmap, encode_map_strip, hi']
        refine ⟨hP, _, (consensusEncode_segwit hseg).2 ⟨v, i', o, ws, l, hv, hi'', ho, hws, hl, rfl⟩, ?_⟩
        obtain rfl : input = [] := by simpa using hemp
        obtain rfl := Outcome.ok.inj hf
        obtain rfl := Outcome.ok.inj hi
        subst hone
        simp only [Written.bytes_append, List.append_assoc]
        rfl
    · cases h₃
  · -- the legacy layout
    obtain ⟨output, r₃, hout, h₃⟩ := Decoder.run_bind_eq_ok_iff.1 h₂
    obtain ⟨lockTime, r₄, hlock, h₄⟩ := Decoder.run_bind_eq_ok_iff.1 h₃
    obtain ⟨-, o, ho, rfl⟩ := (lawful_vec TxOut.lawful).finite.canonical _ _ _ hout
    obtain ⟨-, l, hl, rfl⟩ := LockTime.lawful.finite.canonical _ _ _ hlock
    cases h₄
    have hleg : usesSegwitSerialization ⟨version, lockTime, input, output⟩ = false :=
      usesSegwitSerialization_eq_false_iff.2 ⟨hnew, by simpa using hemp⟩
    refine ⟨?_, _, (consensusEncode_legacy hleg).2 ⟨v, i, o, l, hv, hi, ho, hl, rfl⟩, ?_⟩
    · intro t ht
      rw [hnew t ht]
      exact Nat.zero_le _
    · simp only [Written.bytes_append, List.append_assoc]

/-- The decoder returns the transactions whose witnesses are each within the size limit. -/
theorem lawful : codec.IsLawful fun tx =>
    ∀ t ∈ tx.input, t.witness.repr.indicesStart ≤ MAX_VEC_SIZE :=
  .ofFinite ⟨counts, roundTrips, canonical⟩

theorem bounded : codec.Bounded := Codec.bounded_ofFinite _ _

/-! ### The codec as a whole -/

/-- No vector of the transaction is longer than `usize` can say. -/
structure Sized (tx : Transaction) : Prop where
  input_lt : tx.input.length < 2 ^ 64
  output_lt : tx.output.length < 2 ^ 64
  scriptSig_lt : ∀ t ∈ tx.input, t.scriptSig.length < 2 ^ 64
  scriptPubkey_lt : ∀ o ∈ tx.output, o.scriptPubkey.length < 2 ^ 64

theorem exists_inputs (h : tx.Sized) : ∃ w, (vec TxIn.codec).consensusEncode tx.input = .ok w := by
  apply Encoder.exists_counted (exists_encodeLen h.input_lt)
  intro t ht
  exact Encoder.exists_seq ⟨_, rfl⟩ (Encoder.exists_seq (exists_vecU8 (h.scriptSig_lt t ht)) ⟨_, rfl⟩)

theorem exists_outputs (h : tx.Sized) : ∃ w, (vec TxOut.codec).consensusEncode tx.output = .ok w := by
  apply Encoder.exists_counted (exists_encodeLen h.output_lt)
  intro o ho
  exact Encoder.exists_seq ⟨_, rfl⟩ (exists_vecU8 (h.scriptPubkey_lt o ho))

theorem exists_encode (h : tx.Sized) : ∃ w, codec.consensusEncode tx = .ok w := by
  obtain ⟨i, hi⟩ := exists_inputs h
  obtain ⟨o, ho⟩ := exists_outputs h
  cases hseg : tx.usesSegwitSerialization with
  | false => exact ⟨_, (consensusEncode_legacy hseg).2 ⟨_, i, o, _, rfl, hi, ho, rfl, rfl⟩⟩
  | true =>
    have hw : ∀ w ∈ tx.input.map TxIn.witness, ∃ v, Witness.codec.consensusEncode w = .ok v :=
      fun w _ => w.exists_encode
    obtain ⟨ws, hws⟩ := Encoder.exists_list hw
    exact ⟨_, (consensusEncode_segwit hseg).2 ⟨_, i, o, ws, _, rfl, hi, ho, hws, rfl, rfl⟩⟩

theorem exists_computeTxid (h : tx.Sized) : ∃ txid, tx.computeTxid = .ok txid := by
  obtain ⟨i, hi⟩ := exists_inputs h
  obtain ⟨o, ho⟩ := exists_outputs h
  exact ⟨_, Outcome.bind_eq_ok_iff.2 ⟨_, rfl, Outcome.bind_eq_ok_iff.2 ⟨i, hi,
    Outcome.bind_eq_ok_iff.2 ⟨o, ho, rfl⟩⟩⟩⟩

theorem exists_computeWtxid (h : tx.Sized) : ∃ wtxid, tx.computeWtxid = .ok wtxid := by
  obtain ⟨w, hw⟩ := exists_encode h
  exact ⟨_, Outcome.bind_eq_ok_iff.2 ⟨w, hw, rfl⟩⟩

/-- Each witness of the transaction serializes to at most `MAX_VEC_SIZE` bytes. -/
def WitnessesFit (tx : Transaction) : Prop :=
  ∀ t ∈ tx.input, Fits Witness.codec.consensusEncode MAX_VEC_SIZE t.witness

theorem decodable_of_witnessesFit (h : tx.WitnessesFit) :
    ∀ t ∈ tx.input, t.witness.repr.indicesStart ≤ MAX_VEC_SIZE :=
  fun t ht => Witness.indicesStart_le_of_fits (h t ht)

/-- `consensus_decode` inverts `consensus_encode` on the transactions whose encoding has at most
`MAX_VEC_SIZE` bytes, and on no others; what it accepts is canonical; and the encoding determines
the transaction, whatever its size. -/
theorem consensus_decode_inverts_encode :
    (∀ tx : Transaction, tx.Sized → tx.WitnessesFit →
      ∃ w, codec.consensusEncode tx = .ok w ∧ codec.DecodesBack tx w) ∧
    (∀ bs tx rest, codec.consensusDecode.run bs = .ok (tx, rest) →
      ∃ w, codec.consensusEncode tx = .ok w ∧ bs = w.bytes ++ rest) ∧
    ∀ (tx tx' : Transaction) (w w' : Written), tx.WitnessesFit → tx'.WitnessesFit →
      codec.consensusEncode tx = .ok w → codec.consensusEncode tx' = .ok w' →
      w.bytes = w'.bytes → tx = tx' := by
  refine ⟨?_, ?_, ?_⟩
  · intro tx hs hw
    obtain ⟨w, e⟩ := exists_encode hs
    exact ⟨w, e, lawful.decodesBack bounded (decodable_of_witnessesFit hw) e⟩
  · intro bs tx rest h
    exact ((lawful.decode bounded).canonical bs tx rest h).2
  · intro tx tx' w w' hw hw' e e' hb
    exact roundTrips.encode_injective (decodable_of_witnessesFit hw) (decodable_of_witnessesFit hw')
      e e' hb

/-- A transaction with one input, whose witness has one element. -/
def oneWitness : Transaction where
  version := 2
  lockTime := .blocks 0 zero_lt_threshold
  input := [⟨⟨U8Array.replicate 32 0, 0⟩, [], 0, ⟨pack [[0xab]], [[0xab]], ⟨by decide, by decide⟩, rfl⟩⟩]
  output := []

theorem consensus_decode_inverts_encode_oneWitness :
    oneWitness.Sized ∧ oneWitness.WitnessesFit ∧ ∃ w, codec.consensusEncode oneWitness = .ok w ∧
      w.len = w.bytes.length ∧ codec.consensusDecode.run w.bytes = .ok (oneWitness, []) := by
  have hs : oneWitness.Sized := ⟨by decide, by decide, by decide, by decide⟩
  have hw : oneWitness.WitnessesFit := by
    intro t ht v e
    obtain rfl := List.mem_singleton.1 ht
    obtain rfl := Outcome.ok.inj e
    decide
  obtain ⟨w, e, hback⟩ := consensus_decode_inverts_encode.1 oneWitness hs hw
  refine ⟨hs, hw, w, e, hback.len_eq, ?_⟩
  have hfit : w.bytes.length ≤ MAX_VEC_SIZE := by
    obtain rfl := Outcome.ok.inj e
    decide
  simpa using (hback.decode_iff []).2 hfit

/-- A transaction whose only script takes all the bytes `consensus_decode` will look at. -/
def oversized : Transaction where
  version := 2
  lockTime := .blocks 0 zero_lt_threshold
  input := [⟨⟨U8Array.replicate 32 0, 0⟩, List.replicate MAX_VEC_SIZE 0, 0, Witness.new⟩]
  output := []

theorem lt_length_oversized {w : Written} (e : codec.consensusEncode oversized = .ok w) :
    MAX_VEC_SIZE < w.bytes.length := by
  obtain ⟨v, i, o, l, hv, hi, ho, hl, rfl⟩ := (consensusEncode_legacy (by decide)).1 e
  obtain ⟨n, is, hn, his, rfl⟩ := Encoder.counted_eq_ok_iff.1 hi
  obtain ⟨t, ts, ht, -, rfl⟩ := Encoder.list_cons_eq_ok_iff.1 his
  obtain ⟨a, b, ha, hb, rfl⟩ := Encoder.seq_eq_ok_iff.1 ht
  obtain ⟨c, d, hc, hd, rfl⟩ := Encoder.seq_eq_ok_iff.1 hb
  obtain ⟨u, hu, rfl⟩ := consensusEncodeWithSize_eq_ok_iff.1 hc
  obtain rfl := Outcome.ok.inj hv
  simp only [Written.bytes_append, Written.bytes_ofBytes, List.length_append, TxIn.fields,
    List.length_replicate, length_leBytes]
  omega

/-- A transaction with more bytes than that does not decode from its own encoding. -/
theorem consensus_decode_oversized :
    oversized.Sized ∧ oversized.WitnessesFit ∧ ∃ w, codec.consensusEncode oversized = .ok w ∧
      codec.consensusDecode.run w.bytes ≠ .ok (oversized, []) := by
  have hs : oversized.Sized := by
    refine ⟨by decide, by decide, ?_, by simp [oversized]⟩
    intro t ht
    obtain rfl := List.mem_singleton.1 ht
    rw [List.length_replicate]
    decide
  obtain ⟨w, e⟩ := exists_encode hs
  refine ⟨hs, ?_, w, e, ?_⟩
  · intro t ht v ev
    obtain rfl := List.mem_singleton.1 ht
    obtain rfl := Outcome.ok.inj ev
    decide
  · intro h
    have hfit := ((lawful.decode bounded).canonical _ _ _ h).1.2 w e
    have := lt_length_oversized e
    omega

end Transaction

end RustDogecoin
