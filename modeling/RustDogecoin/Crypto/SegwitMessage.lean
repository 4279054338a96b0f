import RustDogecoin.Crypto.SigningMessage

/-!
# What a segwit signature commits to

A segwit message has a field for every part of the transaction, which is a hash, a value or zeros, and ends with
the sighash type.  So the fields of two messages are compared one by one, before it is known that the types
agree (`commits_message`).  Two calls on caches with any history return the same hash exactly when they agree on
what BIP143 lists for the sighash type (`signatureHash_eq_iff`).  The index of the input is no field.
-/

namespace RustDogecoin

open Sighash SighashCache Emit

/-- The arguments of `segwit_v0_encode_signing_data_to`. -/
structure SegwitArgs where
  tx : Transaction
  inputIndex : ℕ
  scriptCode : ScriptBuf
  value : UInt64
  sighashType : EcdsaSighashType

/-- The strings of a segwit message that are hashed. -/
inductive SegwitPreimage where
  | outpoints
  | sequences
  | outputs
  | output

namespace SegwitArgs

/-- The message, with every hash computed anew. -/
def message (a : SegwitArgs) : Emit InputsIndexError Unit :=
  SigningData.segwitV0 a.tx a.inputIndex a.scriptCode a.value a.sighashType

/-- The calls that hash the message. -/
inductive IsCall (a : SegwitArgs) : Call → Prop
  | p2wsh : IsCall a (.p2wsh a.inputIndex a.scriptCode a.value a.sighashType)
  | p2wpkh {scriptPubkey : ScriptBuf} (h : Script.p2wpkhScriptCode scriptPubkey = .ok (some a.scriptCode)) :
    IsCall a (.p2wpkh a.inputIndex scriptPubkey a.value a.sighashType)

/-- The kind of outputs that are signed. -/
def sighash (a : SegwitArgs) : EcdsaSighashType := a.sighashType.splitAnyonecanpayFlag.1

def anyoneCanPay (a : SegwitArgs) : Bool := a.sighashType.splitAnyonecanpayFlag.2

/-- What is hashed.  Where there is no output at the index, nothing is. -/
def preimage (a : SegwitArgs) : SegwitPreimage → Outcome Empty Written
  | .outpoints => Encoder.list OutPoint.codec.consensusEncode (a.tx.input.map TxIn.previousOutput)
  | .sequences => Encoder.list u32.consensusEncode (a.tx.input.map TxIn.sequence)
  | .outputs => Encoder.list TxOut.codec.consensusEncode a.tx.output
  | .output => (a.tx.output[a.inputIndex]?.map TxOut.codec.consensusEncode).getD (.ok .empty)

/-- Two strings, if they are written, with the same double hash are equal. -/
def Separates (x y : Outcome Empty Written) : Prop :=
  ∀ w v, x = .ok w → y = .ok v → Sha256d.hash w.bytes = Sha256d.hash v.bytes → w.bytes = v.bytes

theorem Separates.refl (x : Outcome Empty Written) : Separates x x := by
  intro w v hw hv _
  rw [Outcome.ok.inj (hw.symm.trans hv)]

/-- The hash has no collision among the strings that are hashed at the same place, no output is hashed to zeros,
and the messages do not collide. -/
structure NoCollision (a b : SegwitArgs) : Prop where
  preimage : ∀ p, Separates (a.preimage p) (b.preimage p)
  output_ne : ∀ w, a.preimage .output = .ok w → Sha256d.hash w.bytes ≠ zeroHash
  output_ne' : ∀ w, b.preimage .output = .ok w → Sha256d.hash w.bytes ≠ zeroHash
  message : ∀ u v, a.message = ⟨u, .ok ()⟩ → b.message = ⟨v, .ok ()⟩ → Sha256d.hash u = Sha256d.hash v → u = v

/-- What is signed of the outputs. -/
def AgreesOnOutputs (a b : SegwitArgs) : Prop :=
  match a.sighash with
  | .single => a.tx.output[a.inputIndex]? = b.tx.output[b.inputIndex]?
  | .none => True
  | _ => a.tx.output = b.tx.output

/-- The calls agree on what is signed. -/
structure Agrees (a b : SegwitArgs) : Prop where
  sighashType : a.sighashType = b.sighashType
  version : a.tx.version = b.tx.version
  lockTime : a.tx.lockTime = b.tx.lockTime
  scriptCode : a.scriptCode = b.scriptCode
  value : a.value = b.value
  previousOutput : a.tx.input[a.inputIndex]?.map TxIn.previousOutput =
    b.tx.input[b.inputIndex]?.map TxIn.previousOutput
  sequence : a.tx.input[a.inputIndex]?.map TxIn.sequence = b.tx.input[b.inputIndex]?.map TxIn.sequence
  previousOutputs : a.anyoneCanPay = false →
    a.tx.input.map TxIn.previousOutput = b.tx.input.map TxIn.previousOutput
  sequences : a.anyoneCanPay = false → a.sighash ≠ .single → a.sighash ≠ .none →
    a.tx.input.map TxIn.sequence = b.tx.input.map TxIn.sequence
  outputs : AgreesOnOutputs a b

variable {a b : SegwitArgs}

/-! ## Fields that are hashes -/

/-- The double hash of a string. -/
def doubleHash (x : Outcome Empty Written) : Outcome Empty Hash := (fun w => Sha256d.hash w.bytes) <$> x

/-- The fields that are hashes. -/
def outpointsField (a : SegwitArgs) : Outcome Empty Hash :=
  if a.anyoneCanPay then .ok zeroHash else doubleHash (a.preimage .outpoints)

def sequencesField (a : SegwitArgs) : Outcome Empty Hash :=
  if a.anyoneCanPay = false ∧ a.sighash ≠ .single ∧ a.sighash ≠ .none then doubleHash (a.preimage .sequences)
  else .ok zeroHash

def outputsField (a : SegwitArgs) : Outcome Empty Hash :=
  if a.sighash ≠ .single ∧ a.sighash ≠ .none then doubleHash (a.preimage .outputs)
  else if a.sighash = .single ∧ a.tx.output[a.inputIndex]?.isSome then doubleHash (a.preimage .output)
  else .ok zeroHash

theorem doubleHash_ok (w : Written) : doubleHash (.ok w) = .ok (Sha256d.hash w.bytes) := rfl

theorem Separates.of_doubleHash_ne {x y : Outcome Empty Written} (h : doubleHash x ≠ doubleHash y) :
    Separates x y := by
  rintro w v rfl rfl heq
  exact absurd (congrArg Outcome.ok heq) h

theorem doubleHash_eq_iff {x y : Outcome Empty Written} (hsep : Separates x y) {w v : Written} (hx : x = .ok w)
    (hy : y = .ok v) : doubleHash x = doubleHash y ↔ w.bytes = v.bytes := by
  subst hx hy
  constructor
  · exact fun h => hsep w v rfl rfl (Outcome.ok.inj h)
  · intro h
    exact congrArg Outcome.ok (congrArg Sha256d.hash h)

/-- Where the run returns, it has written the hash. -/
def Writes (m : Emit InputsIndexError Unit) (x : Outcome Empty Hash) : Prop :=
  ∀ u, m = ⟨u, .ok ()⟩ → ∃ h, x = .ok h ∧ (Emit.encode ((u8Array 32).consensusEncode h) : Emit InputsIndexError Unit) =
    ⟨u, .ok ()⟩

/-- A field that is a hash commits to it. -/
theorem Writes.commits {m m' : Emit InputsIndexError Unit} {x y : Outcome Empty Hash} (h : Writes m x)
    (h' : Writes m' y) : Commits m m' (x = y) := by
  intro u v hu hv r s
  obtain ⟨hash, rfl, hencode⟩ := h u hu
  obtain ⟨hash', rfl, hencode'⟩ := h' v hv
  rw [Outcome.ok.injEq]
  exact Commits.encode (lawful_u8Array 32).finite.roundTrips trivial trivial u v hencode hencode' r s

theorem writes_zeroHash : Writes (.encode ((u8Array 32).consensusEncode zeroHash)) (.ok zeroHash) :=
  fun _ hu => ⟨_, rfl, hu⟩

theorem doubleHash_of_hashOf {x : Outcome Empty Written} {h : Hash} (hx : hashOf x = .ok h) :
    doubleHash x = .ok (Sha256.hash h.toList) := by
  obtain ⟨w, rfl, rfl⟩ := Outcome.map_eq_ok_iff.1 hx
  rfl

theorem writes_segwit (tx : Transaction) {field : SegwitCache → Hash} {x : Outcome Empty Hash}
    (h : ∀ c, CommonCache.of tx = .ok c → x = .ok (field (.ofCommon c))) :
    Writes (do .encode ((u8Array 32).consensusEncode (field (← SigningData.segwit tx)))) x := by
  intro u hu
  obtain ⟨u₁, c, u₂, hsegwit, hencode, rfl⟩ := bind_eq_ok_iff.1 hu
  obtain ⟨rfl, hc⟩ := ofOutcome_eq_ok_iff.1 hsegwit
  obtain ⟨common, hcommon, rfl⟩ := Outcome.map_eq_ok_iff.1 hc
  exact ⟨_, h common (Outcome.lift_eq_ok_iff.1 hcommon), hencode⟩

theorem writes_outpoints (a : SegwitArgs) :
    Writes (SigningData.segwitField a.tx (!a.anyoneCanPay) SegwitCache.prevouts) a.outpointsField := by
  unfold SigningData.segwitField outpointsField
  cases a.anyoneCanPay with
  | true => exact writes_zeroHash
  | false => exact writes_segwit a.tx fun c hc => doubleHash_of_hashOf (TaprootArgs.hashOf_of_common hc).1

theorem writes_sequences (a : SegwitArgs) :
    Writes (SigningData.segwitField a.tx (!a.anyoneCanPay ∧ a.sighash ≠ .single ∧ a.sighash ≠ .none)
      SegwitCache.sequences) a.sequencesField := by
  unfold SigningData.segwitField sequencesField
  simp only [Bool.not_eq_true']
  split_ifs
  · exact writes_segwit a.tx fun c hc => doubleHash_of_hashOf (TaprootArgs.hashOf_of_common hc).2.1
  · exact writes_zeroHash

theorem writes_singleOutput (a : SegwitArgs) :
    Writes (segwitSingleOutput a.tx a.inputIndex .single)
      (if a.tx.output[a.inputIndex]?.isSome then doubleHash (a.preimage .output) else .ok zeroHash) := by
  rw [segwitSingleOutput, if_pos rfl]
  cases houtput : a.tx.output[a.inputIndex]? with
  | none => exact writes_zeroHash
  | some output =>
    intro u hu
    obtain ⟨u₁, h, u₂, hhash, hencode, rfl⟩ := bind_eq_ok_iff.1 hu
    obtain ⟨rfl, hh⟩ := ofOutcome_eq_ok_iff.1 hhash
    refine ⟨h, ?_, hencode⟩
    rw [if_pos Option.isSome_some, preimage, houtput]
    exact Outcome.lift_eq_ok_iff.1 hh

theorem writes_outputs (a : SegwitArgs) :
    Writes (SigningData.segwitOutputs a.tx a.inputIndex a.sighash) a.outputsField := by
  unfold SigningData.segwitOutputs outputsField
  split_ifs with _ hsingle
  · exact writes_segwit a.tx fun c hc => doubleHash_of_hashOf (TaprootArgs.hashOf_of_common hc).2.2
  · have h := writes_singleOutput a
    rw [if_pos hsingle.2] at h
    rw [hsingle.1]
    exact h
  · rcases Decidable.em (a.sighash = .single) with heq | hne
    · have h := writes_singleOutput a
      rw [if_neg fun hsome => hsingle ⟨heq, hsome⟩] at h
      rw [heq]
      exact h
    · rw [segwitSingleOutput, if_neg hne]
      exact writes_zeroHash

theorem of_txIn {tx : Transaction} {i : ℕ} {txin : TxIn} (h : txIn tx i = .ok txin) : tx.input[i]? = some txin := by
  unfold txIn at h
  split at h
  · cases h
    assumption
  · cases h

theorem commits_ownInput (a b : SegwitArgs) :
    Commits (segwitOwnInput a.tx a.inputIndex a.scriptCode a.value)
      (segwitOwnInput b.tx b.inputIndex b.scriptCode b.value)
      (a.tx.input[a.inputIndex]?.map TxIn.previousOutput = b.tx.input[b.inputIndex]?.map TxIn.previousOutput ∧
        a.scriptCode = b.scriptCode ∧ a.value = b.value ∧
        a.tx.input[a.inputIndex]?.map TxIn.sequence = b.tx.input[b.inputIndex]?.map TxIn.sequence) := by
  refine .value fun txin txin' hin hin' => ?_
  rw [of_txIn hin, of_txIn hin']
  simp only [Option.map_some, Option.some.injEq]
  refine (Commits.encode OutPoint.lawful.finite.roundTrips trivial trivial).bind fun _ => ?_
  refine (Commits.encode lawful_vecU8.finite.roundTrips trivial trivial).bind fun _ => ?_
  refine (Commits.encode lawful_u64.finite.roundTrips trivial trivial).bind fun _ => ?_
  exact Commits.encode lawful_u32.finite.roundTrips trivial trivial

theorem toU32_injective {t t' : EcdsaSighashType} (h : t.toU32 = t'.toU32) : t = t' := by
  revert h
  cases t <;> cases t' <;> decide

/-! ## The message -/

/-- The fields of two messages, one by one. -/
theorem commits_message (a b : SegwitArgs) : Commits a.message b.message
    (a.tx.version = b.tx.version ∧ a.outpointsField = b.outpointsField ∧ a.sequencesField = b.sequencesField ∧
      (a.tx.input[a.inputIndex]?.map TxIn.previousOutput = b.tx.input[b.inputIndex]?.map TxIn.previousOutput ∧
        a.scriptCode = b.scriptCode ∧ a.value = b.value ∧
        a.tx.input[a.inputIndex]?.map TxIn.sequence = b.tx.input[b.inputIndex]?.map TxIn.sequence) ∧
      a.outputsField = b.outputsField ∧ a.tx.lockTime = b.tx.lockTime ∧ a.sighashType = b.sighashType) := by
  have htype : Commits (Emit.encode (u32.consensusEncode a.sighashType.toU32) : Emit InputsIndexError Unit)
      (.encode (u32.consensusEncode b.sighashType.toU32)) (a.sighashType = b.sighashType) :=
    (Commits.encode lawful_u32.finite.roundTrips trivial trivial).congr
      ⟨toU32_injective, congrArg EcdsaSighashType.toU32⟩
  refine (Commits.encode lawful_i32.finite.roundTrips trivial trivial).bind fun _ => ?_
  refine ((writes_outpoints a).commits (writes_outpoints b)).bind fun _ => ?_
  refine ((writes_sequences a).commits (writes_sequences b)).bind fun _ => ?_
  refine (commits_ownInput a b).bind fun _ => ?_
  refine ((writes_outputs a).commits (writes_outputs b)).bind fun _ => ?_
  exact (Commits.encode LockTime.lawful.finite.roundTrips trivial trivial).bind fun _ => htype

/-- The fields of a message that is written. -/
theorem exists_fields {u : Bytes} (h : a.message = ⟨u, .ok ()⟩) :
    (∃ p, a.outpointsField = .ok p) ∧ (∃ s, a.sequencesField = .ok s) ∧ ∃ o, a.outputsField = .ok o := by
  obtain ⟨_, _, _, -, h, -⟩ := bind_eq_ok_iff.1 h
  obtain ⟨_, ⟨⟩, _, hp, h, -⟩ := bind_eq_ok_iff.1 h
  obtain ⟨_, ⟨⟩, _, hs, h, -⟩ := bind_eq_ok_iff.1 h
  obtain ⟨_, _, _, -, h, -⟩ := bind_eq_ok_iff.1 h
  obtain ⟨_, ⟨⟩, _, ho, -, -⟩ := bind_eq_ok_iff.1 h
  obtain ⟨p, hp, -⟩ := writes_outpoints a _ hp
  obtain ⟨s, hs, -⟩ := writes_sequences a _ hs
  obtain ⟨o, ho, -⟩ := writes_outputs a _ ho
  exact ⟨⟨p, hp⟩, ⟨s, hs⟩, o, ho⟩

/-- Hashed strings are equal where what they stand for is. -/
theorem doubleHash_iff {x y : Outcome Empty Written} {P : Prop} (hsep : Separates x y)
    (hP : ∀ w v, x = .ok w → y = .ok v → (w.bytes = v.bytes ↔ P)) (hx : ∃ h, doubleHash x = .ok h)
    (hy : ∃ h, doubleHash y = .ok h) : doubleHash x = doubleHash y ↔ P := by
  obtain ⟨h, hx⟩ := hx
  obtain ⟨h', hy⟩ := hy
  obtain ⟨w, hw, -⟩ := Outcome.map_eq_ok_iff.1 hx
  obtain ⟨v, hv, -⟩ := Outcome.map_eq_ok_iff.1 hy
  rw [doubleHash_eq_iff hsep hw hv, hP w v hw hv]

theorem outpointsField_iff (h : NoCollision a b) (hflag : b.anyoneCanPay = a.anyoneCanPay)
    (ha : ∃ p, a.outpointsField = .ok p) (hb : ∃ p, b.outpointsField = .ok p) :
    a.outpointsField = b.outpointsField ↔
      (a.anyoneCanPay = false → a.tx.input.map TxIn.previousOutput = b.tx.input.map TxIn.previousOutput) := by
  unfold outpointsField at ha hb ⊢
  rw [hflag] at hb ⊢
  cases hcase : a.anyoneCanPay with
  | true => simp
  | false =>
    rw [hcase] at ha hb
    rw [forall_prop_of_true rfl]
    exact doubleHash_iff (h.preimage .outpoints)
      (TaprootArgs.list_bytes_iff OutPoint.lawful.finite.roundTrips TaprootArgs.outPoint_ne_nil) ha hb

theorem sequencesField_iff (h : NoCollision a b) (hflag : b.anyoneCanPay = a.anyoneCanPay)
    (hsighash : b.sighash = a.sighash) (ha : ∃ p, a.sequencesField = .ok p) (hb : ∃ p, b.sequencesField = .ok p) :
    a.sequencesField = b.sequencesField ↔ (a.anyoneCanPay = false → a.sighash ≠ .single → a.sighash ≠ .none →
      a.tx.input.map TxIn.sequence = b.tx.input.map TxIn.sequence) := by
  unfold sequencesField at ha hb ⊢
  rw [hflag, hsighash] at hb ⊢
  split_ifs at ha hb ⊢ with hall
  · rw [doubleHash_iff (h.preimage .sequences)
      (TaprootArgs.list_bytes_iff lawful_u32.finite.roundTrips TaprootArgs.u32_ne_nil) ha hb]
    exact ⟨fun heq _ _ _ => heq, fun heq => heq hall.1 hall.2.1 hall.2.2⟩
  · exact iff_of_true rfl fun hno hsingle hnone => absurd ⟨hno, hsingle, hnone⟩ hall

theorem outputsField_iff (h : NoCollision a b) (hsighash : b.sighash = a.sighash)
    (ha : ∃ p, a.outputsField = .ok p) (hb : ∃ p, b.outputsField = .ok p) :
    a.outputsField = b.outputsField ↔ AgreesOnOutputs a b := by
  have hzero : ∀ {c : SegwitArgs}, (∀ w, c.preimage .output = .ok w → Sha256d.hash w.bytes ≠ zeroHash) →
      doubleHash (c.preimage .output) ≠ .ok zeroHash := by
    intro c hne heq
    obtain ⟨w, hw, hhash⟩ := Outcome.map_eq_ok_iff.1 heq
    exact hne w hw hhash
  have hlists : ∀ w v, TxOut.codec.consensusEncode.list a.tx.output = .ok w →
      TxOut.codec.consensusEncode.list b.tx.output = .ok v → (w.bytes = v.bytes ↔ a.tx.output = b.tx.output) :=
    TaprootArgs.list_bytes_iff TxOut.lawful.finite.roundTrips TaprootArgs.txOut_ne_nil
  unfold outputsField at ha hb ⊢
  unfold AgreesOnOutputs
  rw [hsighash] at hb ⊢
  cases hcase : a.sighash with
  | none => simp
  | single =>
    simp only [hcase, ne_eq, not_true_eq_false, false_and, if_false, true_and] at ha hb ⊢
    cases hout : a.tx.output[a.inputIndex]? with
    | none =>
      cases hout' : b.tx.output[b.inputIndex]? with
      | none => simp
      | some output => simpa using (hzero h.output_ne').symm
    | some output =>
      cases hout' : b.tx.output[b.inputIndex]? with
      | none => simpa using hzero h.output_ne
      | some output' =>
        simp only [hout, hout', Option.isSome_some, if_true] at ha hb ⊢
        refine doubleHash_iff (h.preimage .output) (fun w v hw hv => ?_) ha hb
        rw [preimage, hout] at hw
        rw [preimage, hout'] at hv
        rw [TaprootArgs.bytes_iff TxOut.lawful.finite.roundTrips w v hw hv, Option.some.injEq]
  | _ =>
    simp only [hcase, ne_eq, reduceCtorEq, not_false_eq_true, and_self, if_true] at ha hb ⊢
    exact doubleHash_iff (h.preimage .outputs) hlists ha hb

/-- Two messages are equal exactly when the calls agree on what is signed. -/
theorem message_eq_iff (h : NoCollision a b) {u v : Bytes} (hu : a.message = ⟨u, .ok ()⟩)
    (hv : b.message = ⟨v, .ok ()⟩) : u = v ↔ Agrees a b := by
  obtain ⟨hp, hs, ho⟩ := exists_fields hu
  obtain ⟨hp', hs', ho'⟩ := exists_fields hv
  have hflag : a.sighashType = b.sighashType → b.anyoneCanPay = a.anyoneCanPay := fun htype => by
    rw [anyoneCanPay, anyoneCanPay, htype]
  have hsighash : a.sighashType = b.sighashType → b.sighash = a.sighash := fun htype => by
    rw [sighash, sighash, htype]
  rw [(commits_message a b).eq_iff hu hv]
  constructor
  · rintro ⟨hversion, hoTps, hseqs, ⟨hprev, hcode, hvalue, hseq⟩, houts, hlock, htype⟩
    exact ⟨htype, hversion, hlock, hcode, hvalue, hprev, hseq, (outpointsField_iff h (hflag htype) hp hp').1 hoTps,
      (sequencesField_iff h (hflag htype) (hsighash htype) hs hs').1 hseqs,
      (outputsField_iff h (hsighash htype) ho ho').1 houts⟩
  · rintro ⟨htype, hversion, hlock, hcode, hvalue, hprev, hseq, hprevs, hseqs, houts⟩
    exact ⟨hversion, (outpointsField_iff h (hflag htype) hp hp').2 hprevs,
      (sequencesField_iff h (hflag htype) (hsighash htype) hs hs').2 hseqs, ⟨hprev, hcode, hvalue, hseq⟩,
      (outputsField_iff h (hsighash htype) ho ho').2 houts, hlock, htype⟩

theorem hashed_eq_ok {ε : Type} {hash : Bytes → Hash} {m : Emit ε Unit} {h : Hash}
    (hm : (Call.hashed hash m).outcome = .ok h) : ∃ u, m = ⟨u, .ok ()⟩ ∧ h = hash u := by
  obtain ⟨u, x⟩ := m
  cases x with
  | ok v =>
    cases hm
    exact ⟨u, rfl, rfl⟩
  | err e => cases hm
  | panic p => cases hm

theorem hashed_of_returns {ε : Type} (hash : Bytes → Hash) {m : Emit ε Unit} (h : m.outcome = .ok ()) :
    (Call.hashed hash m).outcome = .ok (hash m.written) := by
  obtain ⟨u, x⟩ := m
  cases h
  rfl

/-- What a call returns does not depend on what the cache has seen. -/
theorem outcome_run {c : Call} (hc : a.IsCall c) {list : List TxOut} {steps : List Step}
    (hsteps : ∀ c, Step.call c ∈ steps → c.Uses list) :
    (c.run (after steps (new a.tx))).1.outcome = (c.expected a.tx).outcome := by
  have huses : c.Uses list := by cases hc <;> trivial
  have hsound : Sound a.tx list (after steps (new a.tx)) := sound_after hsteps ⟨faithful_new a.tx list, rfl⟩
  obtain ⟨hfaithful, hsame⟩ := hsound
  rw [(c.realizes_run huses _ hfaithful).1, ← c.expected_stripped, hsame, c.expected_stripped]

/-- It is the hash of the message. -/
theorem exists_message {c : Call} (hc : a.IsCall c) {list : List TxOut} {steps : List Step}
    (hsteps : ∀ c, Step.call c ∈ steps → c.Uses list) {hash : Hash}
    (h : (c.run (after steps (new a.tx))).1.outcome = .ok hash) :
    ∃ u, a.message = ⟨u, .ok ()⟩ ∧ hash = Sha256d.hash u := by
  rw [outcome_run hc hsteps] at h
  cases hc with
  | p2wsh => exact hashed_eq_ok (Outcome.mapErr_eq_ok_iff.1 h)
  | p2wpkh hcode =>
    have h' := Outcome.mapErr_eq_ok_iff.1 h
    rw [hcode] at h'
    obtain ⟨u, hu, hhash⟩ := hashed_eq_ok h'
    obtain ⟨hwritten, houtcome⟩ := Emit.mk.inj hu
    refine ⟨u, ?_, hhash⟩
    rw [message, ← hwritten, ← Outcome.mapErr_eq_ok_iff.1 houtcome]

/-- Two calls, each on a cache with any history, return the same hash exactly when they agree on what is signed. -/
theorem signatureHash_eq_iff {c c' : Call} (hc : a.IsCall c) (hc' : b.IsCall c') (h : NoCollision a b)
    {list list' : List TxOut} {steps steps' : List Step} (hsteps : ∀ c, Step.call c ∈ steps → c.Uses list)
    (hsteps' : ∀ c, Step.call c ∈ steps' → c.Uses list') {hash hash' : Hash}
    (ha : (c.run (after steps (new a.tx))).1.outcome = .ok hash)
    (hb : (c'.run (after steps' (new b.tx))).1.outcome = .ok hash') : hash = hash' ↔ Agrees a b := by
  obtain ⟨u, hu, rfl⟩ := exists_message hc hsteps ha
  obtain ⟨v, hv, rfl⟩ := exists_message hc' hsteps' hb
  rw [← message_eq_iff h hu hv]
  exact ⟨h.message u v hu hv, congrArg Sha256d.hash⟩

/-! ### Two values of an output -/

def sample (value : UInt64) : SegwitArgs :=
  ⟨{ sampleTx with output := [⟨value, [OP_PUSHNUM_1]⟩] }, 0, [OP_CHECKSIG], 2000, .all⟩

/-- What is hashed for the two calls: the outputs, as a list and the one at the index, and the messages. -/
theorem hash_ne_sample :
    doubleHash ((sample 1000).preimage .outputs) ≠ doubleHash ((sample 999).preimage .outputs) ∧
      doubleHash ((sample 1000).preimage .output) ≠ doubleHash ((sample 999).preimage .output) ∧
      doubleHash ((sample 1000).preimage .output) ≠ .ok zeroHash ∧
      doubleHash ((sample 999).preimage .output) ≠ .ok zeroHash ∧
      Sha256d.hash (sample 1000).message.written ≠ Sha256d.hash (sample 999).message.written := by
  decide +kernel

theorem noCollision_sample : NoCollision (sample 1000) (sample 999) where
  preimage p := by
    cases p with
    | outputs => exact .of_doubleHash_ne hash_ne_sample.1
    | output => exact .of_doubleHash_ne hash_ne_sample.2.1
    | outpoints => exact .refl _
    | sequences => exact .refl _
  output_ne w hw hzero := hash_ne_sample.2.2.1 (by rw [hw, doubleHash_ok, hzero])
  output_ne' w hw hzero := hash_ne_sample.2.2.2.1 (by rw [hw, doubleHash_ok, hzero])
  message u v hu hv heq := by
    have hne := hash_ne_sample.2.2.2.2
    rw [hu, hv] at hne
    exact absurd heq hne

/-- The call for the input of `sampleTx`. -/
def sampleCall : Call := .p2wsh 0 [OP_CHECKSIG] 2000 .all

theorem expected_sampleCall {value : UInt64} (h : (sample value).message.outcome = .ok ()) :
    (sampleCall.expected (sample value).tx).outcome = .ok (Sha256d.hash (sample value).message.written) := by
  show ((Call.hashed Sha256d.hash (sample value).message).outcome.mapErr .inputsIndex) = _
  exact Outcome.mapErr_eq_ok_iff.2 (hashed_of_returns _ h)

/-- The hashes differ, as the outputs do, whatever the first cache has seen. -/
theorem signatureHash_eq_iff_sample : ∃ hash hash',
    (sampleCall.run (after sampleSteps (new (sample 1000).tx))).1.outcome = .ok hash ∧
    (sampleCall.run (new (sample 999).tx)).1.outcome = .ok hash' ∧
    (hash = hash' ↔ Agrees (sample 1000) (sample 999)) ∧ hash ≠ hash' := by
  have hsteps : ∀ c, Step.call c ∈ sampleSteps → c.Uses [samplePrevout] := by
    intro c hc
    simp only [sampleSteps, List.mem_cons, List.not_mem_nil, or_false, Step.call.injEq, reduceCtorEq] at hc
    rcases hc with rfl | rfl
    · intro l hl
      cases hl
    · trivial
  have hnone : ∀ c, Step.call c ∈ [] → c.Uses [] := fun c hc => absurd hc List.not_mem_nil
  have ha := (outcome_run (a := sample 1000) .p2wsh hsteps).trans (expected_sampleCall rfl)
  have hb := (outcome_run (a := sample 999) .p2wsh hnone).trans (expected_sampleCall rfl)
  have hiff := signatureHash_eq_iff .p2wsh .p2wsh noCollision_sample hsteps hnone ha hb
  refine ⟨_, _, ha, hb, hiff, fun heq => ?_⟩
  have houtput : (sample 1000).tx.output = (sample 999).tx.output := (hiff.1 heq).outputs
  exact absurd houtput (by decide)

end SegwitArgs

end RustDogecoin
