import RustDogecoin.Crypto.SighashIndex

/-!
# Signature hashes that are returned

The calls of a sighash cache do not panic, whatever its cells hold, when no vector of the transaction and no
script is longer than `usize` allows.  A legacy call returns a hash exactly if there is an input at its index;
a taproot call with the spent outputs of all inputs, or with the own one and ANYONECANPAY, fails only for
SIGHASH_SINGLE without an output at the index.
-/

namespace RustDogecoin

open Sighash Effect

namespace SighashCache

variable {tx : Transaction}

/-! ## Legacy calls -/

theorem legacySignatureHash_of_le {s : SighashCache} {inputIndex : ℕ} (h : s.tx.input.length ≤ inputIndex)
    (scriptPubkey : ScriptBuf) (sighashType : UInt32) :
    s.legacySignatureHash inputIndex scriptPubkey sighashType = .err ⟨inputIndex, s.tx.input.length⟩ := by
  rw [legacySignatureHash, legacyEncodeSigningDataTo, txIn_of_le h]
  rfl

theorem exists_legacyInputs (hsized : tx.Sized) {inputIndex : ℕ} (h : inputIndex < tx.input.length)
    {scriptPubkey : ScriptBuf} (hscript : scriptPubkey.length < 2 ^ 64) (sighash : EcdsaSighashType)
    (anyoneCanPay : Bool) :
    ∃ input, legacyInputs tx inputIndex scriptPubkey sighash anyoneCanPay = .ok input ∧
      input.length < 2 ^ 64 ∧ ∀ t ∈ input, t.scriptSig.length < 2 ^ 64 := by
  unfold legacyInputs
  cases anyoneCanPay with
  | true =>
    rw [if_pos rfl, List.getElem?_eq_getElem h]
    refine ⟨_, rfl, by simp, ?_⟩
    intro t ht
    obtain rfl := List.mem_singleton.1 ht
    exact hscript
  | false =>
    rw [if_neg Bool.false_ne_true]
    refine ⟨_, rfl, by simpa using hsized.input_lt, ?_⟩
    intro t ht
    obtain ⟨n, hn, rfl⟩ := List.mem_mapIdx.1 ht
    dsimp only
    split_ifs
    · exact hscript
    · exact Nat.two_pow_pos 64

theorem exists_legacyOutputs (hsized : tx.Sized) (inputIndex : ℕ) (ty : EcdsaSighashType) :
    ∃ output, legacyOutputs tx inputIndex ty.splitAnyonecanpayFlag.1 = .ok output ∧
      output.length < 2 ^ 64 ∧ ∀ o ∈ output, o.scriptPubkey.length < 2 ^ 64 := by
  have hsingle : ∃ output, legacyOutputs tx inputIndex .single = .ok output ∧
      output.length < 2 ^ 64 ∧ ∀ o ∈ output, o.scriptPubkey.length < 2 ^ 64 := by
    refine ⟨_, rfl, ?_, ?_⟩
    · rw [List.length_mapIdx, List.length_take]
      exact (min_le_right _ _).trans_lt hsized.output_lt
    · intro o ho
      obtain ⟨n, hn, rfl⟩ := List.mem_mapIdx.1 ho
      split_ifs
      · exact hsized.scriptPubkey_lt _ (List.mem_of_mem_take (List.getElem_mem hn))
      · exact Nat.two_pow_pos 64
  have hnone : ∃ output, legacyOutputs tx inputIndex .none = .ok output ∧
      output.length < 2 ^ 64 ∧ ∀ o ∈ output, o.scriptPubkey.length < 2 ^ 64 :=
    ⟨[], rfl, by simp, by simp⟩
  have hall : ∃ output, legacyOutputs tx inputIndex .all = .ok output ∧
      output.length < 2 ^ 64 ∧ ∀ o ∈ output, o.scriptPubkey.length < 2 ^ 64 :=
    ⟨_, rfl, hsized.output_lt, hsized.scriptPubkey_lt⟩
  cases ty with
  | all | allPlusAnyoneCanPay => exact hall
  | none | nonePlusAnyoneCanPay => exact hnone
  | single | singlePlusAnyoneCanPay => exact hsingle

theorem returns_encodeSigningDataToInner (hsized : tx.Sized) {inputIndex : ℕ} (h : inputIndex < tx.input.length)
    {scriptPubkey : ScriptBuf} (hscript : scriptPubkey.length < 2 ^ 64) (sighashType : UInt32) :
    (encodeSigningDataToInner tx inputIndex scriptPubkey sighashType).Returns := by
  obtain ⟨input, hinput, hilen, hiscript⟩ := exists_legacyInputs hsized h hscript
    (EcdsaSighashType.fromConsensus sighashType).splitAnyonecanpayFlag.1
    (EcdsaSighashType.fromConsensus sighashType).splitAnyonecanpayFlag.2
  obtain ⟨output, houtput, holen, hoscript⟩ :=
    exists_legacyOutputs hsized inputIndex (EcdsaSighashType.fromConsensus sighashType)
  have hencode : ∃ w, Transaction.consensusEncode ⟨tx.version, tx.lockTime, input, output⟩ = .ok w :=
    Transaction.exists_encode ⟨hilen, holen, hiscript, hoscript⟩
  have hbody : (Emit.encode (Transaction.consensusEncode ⟨tx.version, tx.lockTime, input, output⟩) >>= fun _ =>
      Emit.encode (u32.consensusEncode sighashType) : Emit InputsIndexError Unit).Returns :=
    (Emit.returns_encode hencode).bind fun _ => Emit.returns_encode ⟨_, rfl⟩
  unfold encodeSigningDataToInner
  simp only [hinput, houtput]
  exact hbody

/-- With an input at the index, a legacy call returns a hash. -/
theorem exists_legacySignatureHash {s : SighashCache} (hsized : s.tx.Sized) {inputIndex : ℕ}
    (h : inputIndex < s.tx.input.length) {scriptPubkey : ScriptBuf} (hscript : scriptPubkey.length < 2 ^ 64)
    (sighashType : UInt32) :
    ∃ hash, s.legacySignatureHash inputIndex scriptPubkey sighashType = .ok hash := by
  have htxIn : txIn s.tx inputIndex = .ok s.tx.input[inputIndex] := by
    rw [txIn, List.getElem?_eq_getElem h]
  rw [legacySignatureHash, legacyEncodeSigningDataTo, htxIn]
  dsimp only
  split_ifs
  · exact ⟨_, rfl⟩
  · obtain ⟨message, hmessage⟩ :=
      (returns_encodeSigningDataToInner hsized h hscript sighashType).collect
    exact ⟨_, Outcome.map_eq_ok_iff.2 ⟨message, hmessage, rfl⟩⟩

/-! ## Segwit calls -/

variable {ε : Type}

/-- The cache is one of the transaction. -/
def CacheOf (tx : Transaction) (s : SighashCache) : Prop := s.tx = tx

theorem safe_segwitCache (hsized : tx.Sized) : Safe (CacheOf tx) (segwitCache : Effect _ ε _) := by
  have hcommon : Safe (CacheOf tx) (commonCache : Effect _ ε _) := by
    refine .memo (.read_bind fun s hs => ?_) fun _ _ hs => hs
    obtain ⟨c, hc⟩ := exists_common hsized.scriptPubkey_lt
    rw [hs, hc]
    exact .emit_of_returns ⟨c, rfl⟩
  exact .memo (hcommon.bind fun _ => .pure _) fun _ _ hs => hs

theorem safe_hash (hash : Hash) :
    Safe (CacheOf tx) (Effect.encode ((u8Array 32).consensusEncode hash) : Effect _ ε Unit) :=
  .emit_of_returns (returns_hash hash)

theorem safe_segwitField (hsized : tx.Sized) (c : Prop) [Decidable c] (field : SegwitCache → Hash) :
    Safe (CacheOf tx) (segwitField c field) :=
  .ite ((safe_segwitCache hsized).bind fun _ => safe_hash _) (safe_hash _)

theorem noPanic_segwitOwnInput (inputIndex : ℕ) {scriptCode : ScriptBuf} (hscript : scriptCode.length < 2 ^ 64)
    (value : UInt64) : (segwitOwnInput tx inputIndex scriptCode value).outcome.NoPanic := by
  by_cases h : inputIndex < tx.input.length
  · have hreturns : (segwitOwnInput tx inputIndex scriptCode value).Returns := by
      refine Emit.Returns.bind ⟨tx.input[inputIndex], ?_⟩ fun _ => ?_
      · rw [txIn, List.getElem?_eq_getElem h]
        rfl
      · refine (Emit.returns_encode ⟨_, rfl⟩).bind fun _ => ?_
        refine (Emit.returns_encode (exists_vecU8 hscript)).bind fun _ => ?_
        exact (Emit.returns_encode ⟨_, rfl⟩).bind fun _ => Emit.returns_encode ⟨_, rfl⟩
    obtain ⟨a, ha⟩ := hreturns
    exact ha ▸ Outcome.noPanic_ok a
  · have hfails : (segwitOwnInput tx inputIndex scriptCode value).Fails :=
      Emit.Fails.bind (Emit.fails_ofOutcome ⟨_, txIn_of_le (not_lt.1 h)⟩) _
    obtain ⟨e, he⟩ := hfails
    exact he ▸ Outcome.noPanic_err e

theorem returns_segwitSingleOutput (hsized : tx.Sized) (inputIndex : ℕ) (sighash : EcdsaSighashType) :
    (segwitSingleOutput tx inputIndex sighash).Returns := by
  unfold segwitSingleOutput
  split_ifs
  · cases hout : tx.output[inputIndex]? with
    | none => exact returns_hash _
    | some out =>
      obtain ⟨w, hw⟩ := exists_txOut (hsized.scriptPubkey_lt out (List.mem_of_getElem? hout))
      refine Emit.Returns.bind ⟨Sha256d.hash w.bytes, ?_⟩ fun _ => returns_hash _
      rw [hw]
      rfl
  · exact returns_hash _

theorem safe_segwitV0EncodeSigningDataTo (hsized : tx.Sized) (inputIndex : ℕ) {scriptCode : ScriptBuf}
    (hscript : scriptCode.length < 2 ^ 64) (value : UInt64) (sighashType : EcdsaSighashType) :
    Safe (CacheOf tx) (segwitV0EncodeSigningDataTo inputIndex scriptCode value sighashType) := by
  refine .read_bind fun s hs => ?_
  obtain rfl : s.tx = tx := hs
  refine Safe.bind (.emit_of_returns (Emit.returns_encode ⟨_, rfl⟩)) fun _ => ?_
  refine (safe_segwitField hsized _ _).bind fun _ => (safe_segwitField hsized _ _).bind fun _ => ?_
  refine Safe.bind (.emit (noPanic_segwitOwnInput inputIndex hscript value)) fun _ => ?_
  have houtputs : Safe (CacheOf s.tx)
      (segwitOutputs s.tx inputIndex sighashType.splitAnyonecanpayFlag.1) :=
    .ite ((safe_segwitCache hsized).bind fun _ => safe_hash _)
      (.emit_of_returns (returns_segwitSingleOutput hsized _ _))
  refine houtputs.bind fun _ => Safe.bind (.emit_of_returns (Emit.returns_encode ⟨_, rfl⟩)) fun _ => ?_
  exact .emit_of_returns (Emit.returns_encode ⟨_, rfl⟩)

theorem safe_p2wsh (hsized : tx.Sized) (inputIndex : ℕ) {witnessScript : ScriptBuf}
    (hscript : witnessScript.length < 2 ^ 64) (value : UInt64) (sighashType : EcdsaSighashType) :
    Safe (CacheOf tx) (p2wshSignatureHash inputIndex witnessScript value sighashType) :=
  (safe_segwitV0EncodeSigningDataTo hsized inputIndex hscript value sighashType).collect.bind fun _ => .pure _

theorem length_of_p2wpkhScriptCode {s code : ScriptBuf} (h : Script.p2wpkhScriptCode s = .ok (some code)) :
    code.length = 25 := by
  unfold Script.p2wpkhScriptCode at h
  split_ifs at h with hscript hlen
  · obtain rfl := Option.some.inj (Outcome.ok.inj h)
    show (ScriptBuf.newP2pkh _).length = 25
    simpa [ScriptBuf.newP2pkh_eq] using hlen
  · cases Outcome.ok.inj h

theorem safe_p2wpkh (hsized : tx.Sized) (inputIndex : ℕ) (scriptPubkey : ScriptBuf) (value : UInt64)
    (sighashType : EcdsaSighashType) :
    Safe (CacheOf tx) (p2wpkhSignatureHash inputIndex scriptPubkey value sighashType) := by
  obtain ⟨code, hcode, -⟩ := Script.p2wpkhScriptCode_eq (s := scriptPubkey)
  unfold p2wpkhSignatureHash
  rw [hcode]
  refine .ofOutcome_bind (Outcome.noPanic_ok code) fun a ha => ?_
  obtain rfl := Outcome.ok.inj ha
  cases code with
  | none => exact .emit (Outcome.noPanic_err _)
  | some scriptCode =>
    have hscript : scriptCode.length < 2 ^ 64 := by
      rw [length_of_p2wpkhScriptCode hcode]
      decide
    have hmessage := safe_segwitV0EncodeSigningDataTo hsized inputIndex hscript value sighashType
    exact (hmessage.mapErr _).collect.bind fun _ => .pure _

/-- An invariant of the caches of a transaction under which the segwit calls do not panic. -/
structure SafeInvariant (tx : Transaction) (I : SighashCache → Prop) : Prop where
  tx_eq : ∀ s, I s → s.tx = tx
  p2wsh : ∀ (inputIndex : ℕ) {witnessScript : ScriptBuf}, witnessScript.length < 2 ^ 64 →
    ∀ (value : UInt64) (sighashType : EcdsaSighashType),
      Safe I (p2wshSignatureHash inputIndex witnessScript value sighashType)
  p2wpkh : ∀ (inputIndex : ℕ) (scriptPubkey : ScriptBuf) (value : UInt64) (sighashType : EcdsaSighashType),
    Safe I (p2wpkhSignatureHash inputIndex scriptPubkey value sighashType)

theorem safeInvariant_cacheOf (hsized : tx.Sized) : SafeInvariant tx (CacheOf tx) where
  tx_eq _ hs := hs
  p2wsh inputIndex _ hscript value sighashType := safe_p2wsh hsized inputIndex hscript value sighashType
  p2wpkh := safe_p2wpkh hsized

theorem safeInvariant_faithful (hsized : tx.Sized) (list : List TxOut) :
    SafeInvariant tx (Faithful tx list) where
  tx_eq _ hs := hs.tx_eq
  p2wsh inputIndex script hscript value sighashType := by
    have hkeeps : Ensures (Faithful tx list) (p2wshSignatureHash inputIndex script value sighashType)
        fun _ => True := .of_realizes (Call.realizes_hashed _ (realizes_segwitV0 _ _ _ _)) trivial
    refine (hkeeps.and fun s hs => ?_).mono fun _ h => h.2
    exact (safe_p2wsh hsized inputIndex hscript value sighashType s hs.tx_eq).1
  p2wpkh inputIndex scriptPubkey value sighashType := by
    have hkeeps : Ensures (Faithful tx list) (p2wpkhSignatureHash inputIndex scriptPubkey value sighashType)
        fun _ => True := by
      refine Ensures.bind (P := fun _ => True) (.ofOutcome trivial) (fun code _ => ?_) (fun _ _ => trivial)
        fun _ _ => trivial
      cases code with
      | none => exact .ofOutcome trivial
      | some scriptCode =>
        exact .of_realizes (Call.realizes_hashed _ ((realizes_segwitV0 _ _ _ _).mapErr _)) trivial
    refine (hkeeps.and fun s hs => ?_).mono fun _ h => h.2
    exact (safe_p2wpkh hsized inputIndex scriptPubkey value sighashType s hs.tx_eq).1

/-! ## Taproot calls -/

/-- With ANYONECANPAY, the spent output of the input is enough. -/
theorem taproot_of_one (h : ∀ out ∈ tx.output, Addressable out.scriptPubkey) {sighashType : TapSighashType}
    (hflag : sighashType.splitAnyonecanpayFlag.2 = true) {inputIndex : ℕ} (hindex : inputIndex < tx.input.length)
    {prevout : TxOut} (hprevout : Addressable prevout.scriptPubkey) {annex : Option Annex}
    (hannex : ∀ a, annex = some a → Addressable a.bytes) (leaf : Option (TapLeafHash × UInt32)) :
    (SingleMissing tx inputIndex sighashType →
        (SigningData.taproot tx inputIndex (.one inputIndex prevout) annex leaf sighashType).Fails) ∧
      (¬SingleMissing tx inputIndex sighashType →
        (SigningData.taproot tx inputIndex (.one inputIndex prevout) annex leaf sighashType).Returns) := by
  have htxIn : txIn tx inputIndex = .ok tx.input[inputIndex] := by
    rw [txIn, List.getElem?_eq_getElem hindex]
  have hget : (Prevouts.one inputIndex prevout).get inputIndex = .ok prevout := if_pos rfl
  have hinputs : (SigningData.taprootAllInputs tx (.one inputIndex prevout)
      sighashType.splitAnyonecanpayFlag.2).Returns := by
    rw [hflag]
    exact Emit.returns_pure ()
  refine taproot_of_inputs h ⟨(), rfl⟩ hinputs ?_ hannex leaf
  rw [hflag, taprootOwnInput, if_pos rfl, htxIn, hget]
  refine Emit.Returns.bind ⟨tx.input[inputIndex], rfl⟩ fun txin => ?_
  have hbody : (Emit.encode (OutPoint.codec.consensusEncode txin.previousOutput) >>= fun _ =>
      Emit.encode (u64.consensusEncode prevout.value) >>= fun _ =>
      Emit.encode (vecU8.consensusEncode prevout.scriptPubkey) >>= fun _ =>
      Emit.encode (u32.consensusEncode txin.sequence) : Emit TaprootError Unit).Returns := by
    refine (Emit.returns_encode ⟨_, rfl⟩).bind fun _ => (Emit.returns_encode ⟨_, rfl⟩).bind fun _ => ?_
    exact (Emit.returns_encode (exists_vecU8 hprevout)).bind fun _ => Emit.returns_encode ⟨_, rfl⟩
  exact hbody

end SighashCache

end RustDogecoin
