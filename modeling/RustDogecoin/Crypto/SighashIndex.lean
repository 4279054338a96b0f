import RustDogecoin.Crypto.SighashCache

/-!
# Signature hashes of inputs that are not there

A legacy or segwit call reads the input at its index and fails when there is none.  A taproot call reads it
only with ANYONECANPAY; otherwise it writes the index and the hashes over all inputs, and the only other
place where an index is looked up is the output of SIGHASH_SINGLE.  `refusesIndex_iff` says for every call
whether it fails when there is no input at its index.
-/

namespace RustDogecoin

open Sighash SighashCache Emit

namespace SighashCache

variable {tx : Transaction}

/-- The number of bytes is within `usize`. -/
def Addressable (bytes : Bytes) : Prop := bytes.length < 2 ^ 64

theorem exists_hashOf {x : Outcome Empty Written} (h : ∃ w, x = .ok w) : ∃ hash, hashOf x = .ok hash := by
  obtain ⟨w, rfl⟩ := h
  exact ⟨_, rfl⟩

theorem exists_txOut {out : TxOut} (h : Addressable out.scriptPubkey) :
    ∃ w, TxOut.codec.consensusEncode out = .ok w :=
  Encoder.exists_seq ⟨_, rfl⟩ (exists_vecU8 h)

theorem exists_common (h : ∀ out ∈ tx.output, Addressable out.scriptPubkey) :
    ∃ c, CommonCache.of tx = .ok c := by
  obtain ⟨p, hp⟩ : ∃ p, hashOf (Encoder.list OutPoint.codec.consensusEncode
      (tx.input.map TxIn.previousOutput)) = .ok p :=
    exists_hashOf (Encoder.exists_list fun _ _ => ⟨_, rfl⟩)
  obtain ⟨q, hq⟩ : ∃ q, hashOf (Encoder.list u32.consensusEncode (tx.input.map TxIn.sequence)) = .ok q :=
    exists_hashOf (Encoder.exists_list fun _ _ => ⟨_, rfl⟩)
  obtain ⟨o, ho⟩ : ∃ o, hashOf (Encoder.list TxOut.codec.consensusEncode tx.output) = .ok o :=
    exists_hashOf (Encoder.exists_list fun out hout => exists_txOut (h out hout))
  refine ⟨⟨p, q, o⟩, ?_⟩
  rw [CommonCache.of, hp, Outcome.ok_bind, hq, Outcome.ok_bind, ho]
  rfl

theorem exists_spent {list : List TxOut} (h : ∀ out ∈ list, Addressable out.scriptPubkey) :
    ∃ c, TaprootCache.of list = .ok c := by
  obtain ⟨p, hp⟩ : ∃ p, hashOf (Encoder.list u64.consensusEncode (list.map TxOut.value)) = .ok p :=
    exists_hashOf (Encoder.exists_list fun _ _ => ⟨_, rfl⟩)
  obtain ⟨q, hq⟩ : ∃ q, hashOf (Encoder.list vecU8.consensusEncode (list.map TxOut.scriptPubkey)) = .ok q := by
    refine exists_hashOf (Encoder.exists_list fun script hscript => ?_)
    obtain ⟨out, hout, rfl⟩ := List.mem_map.1 hscript
    exact exists_vecU8 (h out hout)
  refine ⟨⟨p, q⟩, ?_⟩
  rw [TaprootCache.of, hp, Outcome.ok_bind, hq]
  rfl

theorem returns_hash {ε : Type} (hash : Hash) :
    (Emit.encode ((u8Array 32).consensusEncode hash) : Emit ε Unit).Returns := returns_encode ⟨_, rfl⟩

theorem returns_lift {ε α : Type} {x : Outcome Empty α} (h : ∃ a, x = .ok a) :
    (Emit.ofOutcome x.lift : Emit ε α).Returns := by
  obtain ⟨a, rfl⟩ := h
  exact ⟨a, rfl⟩

/-! ## Segwit calls -/

theorem txIn_of_le {inputIndex : ℕ} (h : tx.input.length ≤ inputIndex) :
    txIn tx inputIndex = .err ⟨inputIndex, tx.input.length⟩ := by
  rw [txIn, List.getElem?_eq_none h]

theorem returns_segwitField (h : ∀ out ∈ tx.output, Addressable out.scriptPubkey) (c : Prop) [Decidable c]
    (field : SegwitCache → Hash) : (SigningData.segwitField tx c field).Returns := by
  obtain ⟨common, hcommon⟩ := exists_common h
  unfold SigningData.segwitField
  split_ifs
  · refine Returns.bind ⟨.ofCommon common, ?_⟩ fun _ => returns_hash _
    rw [SigningData.segwit, hcommon]
    rfl
  · exact returns_hash _

theorem fails_segwitV0 (h : ∀ out ∈ tx.output, Addressable out.scriptPubkey) {inputIndex : ℕ}
    (hindex : tx.input.length ≤ inputIndex) (scriptCode : ScriptBuf) (value : UInt64)
    (sighashType : EcdsaSighashType) :
    (SigningData.segwitV0 tx inputIndex scriptCode value sighashType).Fails := by
  refine (returns_encode ⟨_, rfl⟩).fails_bind fun _ => ?_
  refine (returns_segwitField h _ _).fails_bind fun _ => ?_
  refine (returns_segwitField h _ _).fails_bind fun _ => ?_
  refine Fails.bind (Fails.bind (fails_ofOutcome ?_) _) _
  exact ⟨_, txIn_of_le hindex⟩

/-! ## Taproot calls -/

/-- All spent outputs are given, one for each input. -/
def GivesAll (tx : Transaction) (prevouts : Prevouts) : Prop :=
  ∃ list, prevouts = .all list ∧ list.length = tx.input.length

theorem returns_taprootControl (tx : Transaction) (sighashType : TapSighashType) :
    (taprootControl tx sighashType).Returns :=
  (returns_encode ⟨_, rfl⟩).bind fun _ => (returns_encode ⟨_, rfl⟩).bind fun _ =>
    (returns_encode ⟨_, rfl⟩).bind fun _ => returns_encode ⟨_, rfl⟩

theorem returns_taprootAllInputs (h : ∀ out ∈ tx.output, Addressable out.scriptPubkey) {list : List TxOut}
    (hlist : ∀ out ∈ list, Addressable out.scriptPubkey) (anyoneCanPay : Bool) :
    (SigningData.taprootAllInputs tx (.all list) anyoneCanPay).Returns := by
  have hcommon : (SigningData.common tx : Emit TaprootError _).Returns := returns_lift (exists_common h)
  have hspent : (SigningData.spent list : Emit TaprootError _).Returns := returns_lift (exists_spent hlist)
  unfold SigningData.taprootAllInputs
  split_ifs
  · refine hcommon.bind fun _ => (returns_hash _).bind fun _ => ?_
    refine hspent.bind fun _ => (returns_hash _).bind fun _ => ?_
    refine hspent.bind fun _ => (returns_hash _).bind fun _ => ?_
    exact hcommon.bind fun _ => returns_hash _
  · exact returns_pure ()

theorem returns_taprootAllOutputs (h : ∀ out ∈ tx.output, Addressable out.scriptPubkey)
    (sighash : TapSighashType) : (SigningData.taprootAllOutputs tx sighash).Returns := by
  unfold SigningData.taprootAllOutputs
  split_ifs
  · exact (returns_lift (exists_common h)).bind fun _ => returns_hash _
  · exact returns_pure ()

theorem returns_taprootAnnex {annex : Option Annex} (h : ∀ a, annex = some a → Addressable a.bytes) :
    (taprootAnnex annex).Returns := by
  cases annex with
  | none => exact returns_pure ()
  | some annex =>
    exact (returns_lift (exists_hashOf (exists_vecU8 (h annex rfl)))).bind fun _ => returns_hash _

theorem returns_taprootLeaf (leaf : Option (TapLeafHash × UInt32)) : (taprootLeaf leaf).Returns := by
  cases leaf with
  | none => exact returns_pure ()
  | some leaf =>
    exact (returns_hash _).bind fun _ => (returns_encode ⟨_, rfl⟩).bind fun _ => returns_encode ⟨_, rfl⟩

theorem returns_checkAll {prevouts : Prevouts} (h : GivesAll tx prevouts) :
    (Emit.ofOutcome (prevouts.checkAll tx)).Returns := by
  obtain ⟨list, rfl, hlen⟩ := h
  exact ⟨(), Outcome.ensure_of hlen _⟩

theorem checkAll_cases (tx : Transaction) (prevouts : Prevouts) :
    (Emit.ofOutcome (prevouts.checkAll tx)).Returns ∨ (Emit.ofOutcome (prevouts.checkAll tx)).Fails := by
  cases prevouts with
  | one index prevout => exact Or.inl ⟨(), rfl⟩
  | all list =>
    by_cases h : list.length = tx.input.length
    · exact Or.inl ⟨(), Outcome.ensure_of h _⟩
    · exact Or.inr ⟨_, if_neg h⟩

/-- With ANYONECANPAY, the input is read. -/
theorem fails_of_anyoneCanPay (h : ∀ out ∈ tx.output, Addressable out.scriptPubkey) {inputIndex : ℕ}
    (hindex : tx.input.length ≤ inputIndex) {sighashType : TapSighashType}
    (hflag : sighashType.splitAnyonecanpayFlag.2 = true) (prevouts : Prevouts) (annex : Option Annex)
    (leaf : Option (TapLeafHash × UInt32)) :
    (SigningData.taproot tx inputIndex prevouts annex leaf sighashType).Fails := by
  rcases checkAll_cases tx prevouts with hcheck | hcheck
  · refine hcheck.fails_bind fun _ => (returns_taprootControl tx _).fails_bind fun _ => ?_
    have hinputs : (SigningData.taprootAllInputs tx prevouts sighashType.splitAnyonecanpayFlag.2).Returns := by
      rw [hflag]
      exact returns_pure ()
    have hown : (taprootOwnInput tx inputIndex prevouts sighashType.splitAnyonecanpayFlag.2).Fails := by
      rw [hflag, taprootOwnInput, if_pos rfl, txIn_of_le hindex]
      exact Fails.bind ⟨_, rfl⟩ _
    refine hinputs.fails_bind fun _ => (returns_taprootAllOutputs h _).fails_bind fun _ => ?_
    exact (returns_encode ⟨_, rfl⟩).fails_bind fun _ => hown.bind _
  · exact hcheck.bind _

/-- Without ANYONECANPAY, all spent outputs are needed. -/
theorem fails_of_not_givesAll (h : ∀ out ∈ tx.output, Addressable out.scriptPubkey)
    {sighashType : TapSighashType} (hflag : sighashType.splitAnyonecanpayFlag.2 = false) {prevouts : Prevouts}
    (hprevouts : ¬GivesAll tx prevouts) (inputIndex : ℕ) (annex : Option Annex)
    (leaf : Option (TapLeafHash × UInt32)) :
    (SigningData.taproot tx inputIndex prevouts annex leaf sighashType).Fails := by
  cases prevouts with
  | all list =>
    refine Fails.bind (fails_ofOutcome ⟨.prevoutsSize, ?_⟩) _
    exact if_neg fun hlen => hprevouts ⟨list, rfl, hlen⟩
  | one index prevout =>
    have hinputs : (SigningData.taprootAllInputs tx (.one index prevout)
        sighashType.splitAnyonecanpayFlag.2).Fails := by
      rw [hflag, SigningData.taprootAllInputs, Bool.not_false, if_pos rfl]
      refine (returns_lift (exists_common h)).fails_bind fun _ => (returns_hash _).fails_bind fun _ => ?_
      exact Fails.bind ⟨_, rfl⟩ _
    refine Returns.fails_bind ⟨(), rfl⟩ fun _ => (returns_taprootControl tx _).fails_bind fun _ => ?_
    exact hinputs.bind _

/-- SIGHASH_SINGLE, and no output at the index. -/
def SingleMissing (tx : Transaction) (inputIndex : ℕ) (sighashType : TapSighashType) : Prop :=
  sighashType.splitAnyonecanpayFlag.1 = .single ∧ tx.output.length ≤ inputIndex

/-- When the inputs can be written, the only failure left is that of SIGHASH_SINGLE. -/
theorem taproot_of_inputs (h : ∀ out ∈ tx.output, Addressable out.scriptPubkey) {inputIndex : ℕ}
    {prevouts : Prevouts} {sighashType : TapSighashType}
    (hcheck : (Emit.ofOutcome (prevouts.checkAll tx)).Returns)
    (hinputs : (SigningData.taprootAllInputs tx prevouts sighashType.splitAnyonecanpayFlag.2).Returns)
    (hown : (taprootOwnInput tx inputIndex prevouts sighashType.splitAnyonecanpayFlag.2).Returns)
    {annex : Option Annex} (hannex : ∀ a, annex = some a → Addressable a.bytes)
    (leaf : Option (TapLeafHash × UInt32)) :
    (SingleMissing tx inputIndex sighashType →
        (SigningData.taproot tx inputIndex prevouts annex leaf sighashType).Fails) ∧
      (¬SingleMissing tx inputIndex sighashType →
        (SigningData.taproot tx inputIndex prevouts annex leaf sighashType).Returns) := by
  have hcontrol := returns_taprootControl tx sighashType
  have houtputs := returns_taprootAllOutputs h sighashType.splitAnyonecanpayFlag.1
  constructor
  · rintro ⟨hsingle, hmissing⟩
    have houtput : (taprootSingleOutput tx inputIndex sighashType.splitAnyonecanpayFlag.1).Fails := by
      rw [hsingle, taprootSingleOutput, if_pos rfl, List.getElem?_eq_none hmissing]
      exact ⟨_, rfl⟩
    refine hcheck.fails_bind fun _ => hcontrol.fails_bind fun _ => hinputs.fails_bind fun _ => ?_
    refine houtputs.fails_bind fun _ => (returns_encode ⟨_, rfl⟩).fails_bind fun _ => ?_
    exact hown.fails_bind fun _ => (returns_taprootAnnex hannex).fails_bind fun _ => houtput.bind _
  · intro hok
    refine hcheck.bind fun _ => hcontrol.bind fun _ => hinputs.bind fun _ => houtputs.bind fun _ => ?_
    refine (returns_encode ⟨_, rfl⟩).bind fun _ => hown.bind fun _ => ?_
    refine (returns_taprootAnnex hannex).bind fun _ => Returns.bind ?_ fun _ => returns_taprootLeaf leaf
    unfold taprootSingleOutput
    split_ifs with hsingle
    · have hlt : inputIndex < tx.output.length := not_le.1 fun hle => hok ⟨hsingle, hle⟩
      rw [List.getElem?_eq_getElem hlt]
      refine (returns_lift (exists_hashOf (exists_txOut (h _ (List.getElem_mem hlt))))).bind fun _ => ?_
      exact returns_hash _
    · exact returns_pure ()

/-- Up to the output of SIGHASH_SINGLE, nothing fails without ANYONECANPAY. -/
theorem taproot_of_givesAll (h : ∀ out ∈ tx.output, Addressable out.scriptPubkey)
    {sighashType : TapSighashType} (hflag : sighashType.splitAnyonecanpayFlag.2 = false) {list : List TxOut}
    (hlen : list.length = tx.input.length) (hlist : ∀ out ∈ list, Addressable out.scriptPubkey)
    (inputIndex : ℕ) {annex : Option Annex} (hannex : ∀ a, annex = some a → Addressable a.bytes)
    (leaf : Option (TapLeafHash × UInt32)) :
    (SingleMissing tx inputIndex sighashType →
        (SigningData.taproot tx inputIndex (.all list) annex leaf sighashType).Fails) ∧
      (¬SingleMissing tx inputIndex sighashType →
        (SigningData.taproot tx inputIndex (.all list) annex leaf sighashType).Returns) := by
  refine taproot_of_inputs h (returns_checkAll ⟨list, rfl, hlen⟩) (returns_taprootAllInputs h hlist _) ?_
    hannex leaf
  rw [hflag]
  exact returns_encode ⟨_, rfl⟩

/-- The taproot messages in which an index is looked up that is not there. -/
def TaprootChecks (tx : Transaction) (inputIndex : ℕ) (prevouts : Prevouts) (sighashType : TapSighashType) :
    Prop :=
  sighashType.splitAnyonecanpayFlag.2 = true ∨ ¬GivesAll tx prevouts ∨
    (sighashType.splitAnyonecanpayFlag.1 = .single ∧ tx.output.length ≤ inputIndex)

theorem taproot_fails_iff (h : ∀ out ∈ tx.output, Addressable out.scriptPubkey) {inputIndex : ℕ}
    (hindex : tx.input.length ≤ inputIndex) {prevouts : Prevouts}
    (hprevouts : ∀ list, prevouts = .all list → ∀ out ∈ list, Addressable out.scriptPubkey)
    {annex : Option Annex} (hannex : ∀ a, annex = some a → Addressable a.bytes)
    (leaf : Option (TapLeafHash × UInt32)) (sighashType : TapSighashType) :
    ((SigningData.taproot tx inputIndex prevouts annex leaf sighashType).Fails ↔
        TaprootChecks tx inputIndex prevouts sighashType) ∧
      (¬TaprootChecks tx inputIndex prevouts sighashType →
        (SigningData.taproot tx inputIndex prevouts annex leaf sighashType).Returns) := by
  by_cases hflag : sighashType.splitAnyonecanpayFlag.2 = true
  · exact ⟨iff_of_true (fails_of_anyoneCanPay h hindex hflag prevouts annex leaf) (Or.inl hflag),
      fun hnot => absurd (Or.inl hflag) hnot⟩
  rw [Bool.not_eq_true] at hflag
  by_cases hall : GivesAll tx prevouts
  · obtain ⟨list, rfl, hlen⟩ := hall
    obtain ⟨hfails, hreturns⟩ :=
      taproot_of_givesAll h hflag hlen (hprevouts list rfl) inputIndex hannex leaf
    have hiff : TaprootChecks tx inputIndex (.all list) sighashType ↔
        SingleMissing tx inputIndex sighashType := by
      simp only [TaprootChecks, hflag, Bool.false_eq_true, false_or]
      exact or_iff_right fun hno => hno ⟨list, rfl, hlen⟩
    rw [hiff]
    refine ⟨⟨fun hf => ?_, hfails⟩, hreturns⟩
    by_contra hno
    exact (hreturns hno).not_fails hf
  · exact ⟨iff_of_true (fails_of_not_givesAll h hflag hall inputIndex annex leaf) (Or.inr (Or.inl hall)),
      fun hnot => absurd (Or.inr (Or.inl hall)) hnot⟩

/-! ## All calls -/

namespace Call

def inputIndex : Call → ℕ
  | legacy index _ _ | p2wpkh index _ _ _ | p2wsh index _ _ _ | taproot index _ _ _ _ |
    taprootKeySpend index _ _ | taprootScriptSpend index _ _ _ => index

/-- All spent outputs, where the call is given them. -/
def prevouts : Call → List TxOut
  | legacy _ _ _ | p2wpkh _ _ _ _ | p2wsh _ _ _ _ => []
  | taproot _ prevouts _ _ _ | taprootKeySpend _ prevouts _ | taprootScriptSpend _ prevouts _ _ =>
    match prevouts with
    | .all list => list
    | .one _ _ => []

/-- No byte string that the call hashes is longer than `usize` allows. -/
structure Addressable (tx : Transaction) (c : Call) : Prop where
  outputs : ∀ out ∈ tx.output, SighashCache.Addressable out.scriptPubkey
  prevouts : ∀ out ∈ c.prevouts, SighashCache.Addressable out.scriptPubkey
  annex : ∀ i p a l t, c = taproot i p (some a) l t → SighashCache.Addressable a.bytes

/-- The call returns an error when there is no input at its index. -/
def RefusesIndex (tx : Transaction) (c : Call) : Prop :=
  tx.input.length ≤ c.inputIndex → (c.run (new tx)).1.Fails

/-- The call looks an index up that is not there, unless there is an input at its index. -/
def ChecksIndex (tx : Transaction) (c : Call) : Prop :=
  c.inputIndex < tx.input.length ∨ match c with
    | legacy _ _ _ | p2wpkh _ _ _ _ | p2wsh _ _ _ _ => True
    | taproot index prevouts _ _ sighashType | taprootKeySpend index prevouts sighashType |
      taprootScriptSpend index prevouts _ sighashType => TaprootChecks tx index prevouts sighashType

theorem uses_prevouts (c : Call) : c.Uses c.prevouts := by
  cases c with
  | legacy | p2wpkh | p2wsh => trivial
  | taproot | taprootKeySpend | taprootScriptSpend =>
    intro l hl
    subst hl
    rfl

theorem run_new (tx : Transaction) (c : Call) : (c.run (new tx)).1 = c.expected tx :=
  (realizes_run (uses_prevouts c) _ (faithful_new tx c.prevouts)).1

theorem fails_hashed {ε : Type} {m : Emit ε Unit} (h : m.Fails) (hash : Bytes → Hash) : (hashed hash m).Fails :=
  h.collect.bind _

theorem returns_hashed {ε : Type} {m : Emit ε Unit} (h : m.Returns) (hash : Bytes → Hash) :
    (hashed hash m).Returns := h.collect.bind fun _ => returns_pure _

/-- Legacy and segwit calls refuse every index without an input. -/
theorem fails_legacy (h : tx.input.length ≤ i) (scriptPubkey : ScriptBuf) (sighashType : UInt32) :
    ((legacy i scriptPubkey sighashType).expected tx).Fails := by
  refine ⟨.inputsIndex ⟨i, tx.input.length⟩, ?_⟩
  simp only [expected, legacySignatureHash, legacyEncodeSigningDataTo, new, txIn_of_le h]
  rfl

theorem fails_p2wpkh (hout : ∀ out ∈ tx.output, SighashCache.Addressable out.scriptPubkey)
    (h : tx.input.length ≤ i) (scriptPubkey : ScriptBuf) (value : UInt64) (sighashType : EcdsaSighashType) :
    ((p2wpkh i scriptPubkey value sighashType).expected tx).Fails := by
  obtain ⟨code, hcode, -⟩ := Script.p2wpkhScriptCode_eq (s := scriptPubkey)
  apply Fails.mapErr
  rw [hcode]
  refine Returns.fails_bind ⟨code, rfl⟩ fun code => ?_
  cases code with
  | none => exact ⟨_, rfl⟩
  | some scriptCode => exact fails_hashed ((fails_segwitV0 hout h _ _ _).mapErr _) _

/-- A taproot call refuses an index exactly if it looks one up. -/
theorem hashed_taproot_fails_iff (hout : ∀ out ∈ tx.output, SighashCache.Addressable out.scriptPubkey)
    (h : tx.input.length ≤ i) {prevouts : Prevouts}
    (hprevouts : ∀ list, prevouts = .all list → ∀ out ∈ list, SighashCache.Addressable out.scriptPubkey)
    {annex : Option Annex} (hannex : ∀ a, annex = some a → SighashCache.Addressable a.bytes)
    (leaf : Option (TapLeafHash × UInt32)) (sighashType : TapSighashType) :
    ((hashed tapSighash (SigningData.taproot tx i prevouts annex leaf sighashType)).mapErr
        CallError.taproot).Fails ↔ TaprootChecks tx i prevouts sighashType := by
  obtain ⟨hfails, hreturns⟩ := taproot_fails_iff hout h hprevouts hannex leaf sighashType
  constructor
  · intro hf
    by_contra hno
    exact ((returns_hashed (hreturns hno) _).mapErr _).not_fails hf
  · intro hchecks
    exact (fails_hashed (hfails.2 hchecks) _).mapErr _

/-- Which calls return an error when there is no input at their index. -/
theorem refusesIndex_iff (tx : Transaction) (c : Call) (h : c.Addressable tx) :
    c.RefusesIndex tx ↔ c.ChecksIndex tx := by
  unfold RefusesIndex
  rw [run_new]
  by_cases hindex : tx.input.length ≤ c.inputIndex
  swap
  · exact iff_of_true (fun hle => absurd hle hindex) (Or.inl (not_le.1 hindex))
  rw [imp_iff_right hindex]
  unfold ChecksIndex
  rw [or_iff_right (not_lt.2 hindex)]
  cases c with
  | legacy index scriptPubkey sighashType =>
    exact iff_of_true (fails_legacy hindex _ _) trivial
  | p2wpkh index scriptPubkey value sighashType =>
    exact iff_of_true (fails_p2wpkh h.outputs hindex _ _ _) trivial
  | p2wsh index witnessScript value sighashType =>
    exact iff_of_true ((fails_hashed (fails_segwitV0 h.outputs hindex _ _ _) _).mapErr _) trivial
  | taproot index prevouts annex leaf sighashType =>
    refine hashed_taproot_fails_iff h.outputs hindex ?_ ?_ _ _
    · rintro list rfl
      exact h.prevouts
    · rintro a rfl
      exact h.annex _ _ _ _ _ rfl
  | taprootKeySpend index prevouts sighashType =>
    refine hashed_taproot_fails_iff h.outputs hindex ?_ (by simp) _ _
    rintro list rfl
    exact h.prevouts
  | taprootScriptSpend index prevouts leafHash sighashType =>
    refine hashed_taproot_fails_iff h.outputs hindex ?_ (by simp) _ _
    rintro list rfl
    exact h.prevouts

/-- A taproot call for the second input of a transaction that has one input. -/
def sampleCall : Call := .taprootKeySpend 1 (.all [samplePrevout]) .default

theorem addressable_samplePrevout (sighashType : TapSighashType) (index : ℕ) :
    (Call.taprootKeySpend index (.all [samplePrevout]) sighashType).Addressable sampleTx where
  outputs := by
    intro out hout
    obtain rfl := List.mem_singleton.1 hout
    exact (by decide : [OP_PUSHNUM_1].length < 2 ^ 64)
  prevouts := by
    intro out hout
    obtain rfl := List.mem_singleton.1 hout
    exact (by decide : [OP_PUSHNUM_1].length < 2 ^ 64)
  annex := by
    rintro _ _ _ _ _ ⟨⟩

/-- With ANYONECANPAY, the same call is refused. -/
theorem refusesIndex_sample :
    (Call.taprootKeySpend 1 (.all [samplePrevout]) .allPlusAnyoneCanPay).RefusesIndex sampleTx :=
  (refusesIndex_iff _ _ (addressable_samplePrevout _ _)).2 (Or.inr (Or.inl rfl))

/-- Without, it returns a hash. -/
theorem not_refusesIndex_sampleCall :
    sampleTx.input.length ≤ sampleCall.inputIndex ∧ (sampleCall.run (new sampleTx)).1.Returns ∧
      ¬sampleCall.RefusesIndex sampleTx := by
  have haddressable := addressable_samplePrevout .default 1
  have hreturns : (sampleCall.run (new sampleTx)).1.Returns := by
    rw [run_new]
    refine (returns_hashed ?_ _).mapErr _
    apply (taproot_of_givesAll haddressable.outputs rfl rfl haddressable.prevouts 1 (by simp) none).2
    rintro ⟨h, -⟩
    cases h
  refine ⟨by decide, hreturns, fun h => ?_⟩
  exact hreturns.not_fails (h (by decide))

end Call

end SighashCache

end RustDogecoin
