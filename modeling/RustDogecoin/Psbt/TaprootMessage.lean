import RustDogecoin.Psbt.SpendUtxo

/-!
# Messages for Schnorr signatures

Where all outputs that are spent can be looked up, `sighash_taproot` does not panic, and `Signable` says
exactly for which inputs it returns a message.  The cache may be used for several messages: with
`spentOutputs` as the outputs it was filled with, it stays faithful.
-/

namespace RustDogecoin

open Sighash SighashCache Effect

namespace Psbt

variable {S : KeyFormats} {p : Psbt S} {i : ℕ}

/-- The outputs that are spent, as far as the maps give them. -/
def spentOutputs (p : Psbt S) : List TxOut := p.spends.filterMap spentOutput

/-- The sighash type of a map for a taproot input. -/
def Input.taprootHashTy (m : Input S) : Outcome UInt32 TapSighashType :=
  (m.sighashType.getD (.ofTaproot .default)).taprootHashTy

/-- There is a message for a taproot signature: the output is a taproot output, the sighash type is one for
taproot, all outputs that it covers are known, and it is not SIGHASH_SINGLE without an output. -/
def Signable (p : Psbt S) (i : ℕ) : Prop :=
  ∃ q out hashTy, p.spends[i]? = some q ∧ spentOutput q = some out ∧ Script.isP2tr out.scriptPubkey = true ∧
    q.2.taprootHashTy = .ok hashTy ∧ (isAnyoneCanPay hashTy = true ∨ AllSpent p.spends) ∧
    ¬SingleMissing p.unsignedTx i hashTy

/-! ## The outputs that are covered -/

theorem spendUtxoOk_eq (hlen : p.inputs.length = p.unsignedTx.input.length) (h : ∀ j, ¬p.OutOfBoundsAt j) (i : ℕ) :
    p.spendUtxoOk i = .ok (p.spends[i]?.bind spentOutput) := by
  unfold spendUtxoOk
  cases hq : p.spends[i]? with
  | none => rw [spendUtxo_of_none hlen hq, Option.bind_none]
  | some q =>
    rw [Option.bind_some]
    cases hout : spentOutput q with
    | none => rw [spendUtxo_of_spentOutput_none (h i) hq hout]
    | some out => rw [spendUtxo_of_spentOutput hq hout]

theorem mapM_spendUtxoOk (hlen : p.inputs.length = p.unsignedTx.input.length) (h : ∀ j, ¬p.OutOfBoundsAt j) :
    (List.range p.inputs.length).mapM p.spendUtxoOk = .ok (p.spends.map spentOutput) := by
  have hpure : p.spendUtxoOk = fun i => pure (p.spends[i]?.bind spentOutput) :=
    funext (spendUtxoOk_eq hlen h)
  rw [hpure, List.mapM_pure, Outcome.pure_eq_ok]
  congr 1
  rw [← length_spends hlen]
  apply List.ext_getElem?
  intro n
  rw [List.getElem?_map, List.getElem?_map]
  by_cases hn : n < p.spends.length
  · rw [List.getElem?_range hn, List.getElem?_eq_getElem hn, Option.map_some, Option.map_some,
      List.getElem?_eq_getElem hn, Option.bind_some]
  · rw [List.getElem?_eq_none (by simpa using hn), List.getElem?_eq_none (by simpa using hn)]
    rfl

theorem isAnyoneCanPay_eq (hashTy : TapSighashType) : isAnyoneCanPay hashTy = hashTy.splitAnyonecanpayFlag.2 := by
  cases hashTy <;> rfl

theorem prevOuts_of_anyoneCanPay {q : TxIn × Input S} (hq : p.spends[i]? = some q) {out : TxOut}
    (hout : spentOutput q = some out) {hashTy : TapSighashType} (hflag : isAnyoneCanPay hashTy = true) :
    prevOuts i hashTy (p.spends.map spentOutput) = .ok (.one i out) := by
  rw [prevOuts, if_pos hflag, index, List.getElem?_map, hq, Option.map_some, hout]
  rfl

theorem prevOuts_of_allSpent {hashTy : TapSighashType} (hflag : isAnyoneCanPay hashTy = false)
    (h : AllSpent p.spends) (i : ℕ) :
    prevOuts i hashTy (p.spends.map spentOutput) = .ok (.all p.spentOutputs) := by
  have hall : (p.spends.map spentOutput).all Option.isSome = true := by
    simpa [AllSpent] using h
  rw [prevOuts, hflag, if_neg Bool.false_ne_true, if_pos hall, List.filterMap_map]
  rfl

theorem prevOuts_of_not_allSpent {hashTy : TapSighashType} (hflag : isAnyoneCanPay hashTy = false)
    (h : ¬AllSpent p.spends) (i : ℕ) :
    prevOuts i hashTy (p.spends.map spentOutput) = .err .missingSpendUtxo := by
  have hall : ¬(p.spends.map spentOutput).all Option.isSome = true := by
    simpa [AllSpent] using h
  rw [prevOuts, hflag, if_neg Bool.false_ne_true, if_neg hall]

theorem length_filterMap_spentOutput {qs : List (TxIn × Input S)} (h : AllSpent qs) :
    (qs.filterMap spentOutput).length = qs.length := by
  induction qs with
  | nil => rfl
  | cons q qs ih =>
    obtain ⟨hq, hqs⟩ := List.forall_mem_cons.1 h
    obtain ⟨out, hout⟩ := Option.isSome_iff_exists.1 hq
    rw [List.filterMap_cons_some hout, List.length_cons, ih hqs, List.length_cons]

theorem Limited.spentOutputs (hp : p.Limited) : ∀ out ∈ p.spentOutputs, Addressable out.scriptPubkey := by
  intro out hmem
  obtain ⟨q, hq, hout⟩ := List.mem_filterMap.1 hmem
  obtain ⟨n, hn⟩ := List.mem_iff_getElem?.1 hq
  exact hp.spentOutput hn hout

/-! ## Messages -/

/-- The message that is hashed, if the cache is faithful. -/
theorem realizes_taprootMessage {tx : Transaction} {list : List TxOut} {prevouts : Prevouts}
    (h : SighashCache.Uses list prevouts) (i : ℕ) (hashTy : TapSighashType) (leafHash : Option TapLeafHash) :
    Realizes (Faithful tx list) (taprootMessage i prevouts hashTy leafHash)
      ((Call.hashed tapSighash (SigningData.taproot tx i prevouts none (leafHash.map (·, 0xFFFFFFFF))
        hashTy)).mapErr .taprootError) := by
  cases leafHash with
  | none => exact (Call.realizes_hashed _ (realizes_taproot h _ _ _ _)).mapErr _
  | some leafHash => exact (Call.realizes_hashed _ (realizes_taproot h _ _ _ _)).mapErr _

theorem endsBy_taprootMessage {tx : Transaction} {list : List TxOut} {prevouts : Prevouts}
    (huses : SighashCache.Uses list prevouts) {hashTy : TapSighashType} {leafHash : Option TapLeafHash}
    (h : (SingleMissing tx i hashTy →
        (SigningData.taproot tx i prevouts none (leafHash.map (·, 0xFFFFFFFF)) hashTy).Fails) ∧
      (¬SingleMissing tx i hashTy →
        (SigningData.taproot tx i prevouts none (leafHash.map (·, 0xFFFFFFFF)) hashTy).Returns)) :
    Ensures (Faithful tx list) (taprootMessage i prevouts hashTy leafHash)
      (Outcome.EndsBy ¬SingleMissing tx i hashTy) := by
  refine .of_realizes (realizes_taprootMessage huses i hashTy leafHash) ⟨fun hno => ?_, fun hyes => ?_⟩
  · exact ((h.2 hno).collect.bind fun _ => Emit.returns_pure _).mapErr _
  · exact ((h.1 (not_not.1 hyes)).collect.bind _).mapErr _

theorem outputType_of_isP2tr {q : TxIn × Input S} (hq : p.spends[i]? = some q) {out : TxOut}
    (hout : spentOutput q = some out) (htr : Script.isP2tr out.scriptPubkey = true) : p.outputType i = .ok .tr := by
  obtain ⟨hwpkh, hwsh, hsh⟩ := Script.isP2tr_excludes htr
  obtain ⟨hprogram, -⟩ := Script.isWitnessProgram_of_isVersionedPush htr
  rw [outputType_of_spentOutput hq hout, typeOf, hprogram, hwpkh, hwsh, hsh, htr]
  rfl

theorem Signable.signingAlgorithm (h : p.Signable i) : p.signingAlgorithm i = .ok .schnorr := by
  obtain ⟨q, out, -, hq, hout, htr, -⟩ := h
  rw [Psbt.signingAlgorithm, outputType_of_isP2tr hq hout htr]
  rfl

/-- For a taproot output, a message is made from the outputs that it covers. -/
theorem sighashTaproot_eq (hlen : p.inputs.length = p.unsignedTx.input.length) (h : ∀ j, ¬p.OutOfBoundsAt j)
    {q : TxIn × Input S} (hq : p.spends[i]? = some q) {out : TxOut} (hout : spentOutput q = some out)
    (htr : Script.isP2tr out.scriptPubkey = true) (leafHash : Option TapLeafHash) :
    p.sighashTaproot i leafHash = (do
      let hashTy ← .ofOutcome (q.2.taprootHashTy.mapErr fun _ => .invalidSighashType)
      let prevOuts ← .ofOutcome (prevOuts i hashTy (p.spends.map spentOutput))
      let sighash ← taprootMessage i prevOuts hashTy leafHash
      return (sighash, hashTy)) := by
  have htype := outputType_of_isP2tr hq hout htr
  rw [sighashTaproot, signingAlgorithm, htype, Outcome.map_ok, ofOutcome_ok_bind, OutputType.signingAlgorithm,
    Outcome.ensure_of rfl, ofOutcome_ok_bind, checkedInput_of_some hq, ofOutcome_ok_bind, ofOutcome_ok_bind,
    Outcome.ensure_of rfl, ofOutcome_ok_bind, mapM_spendUtxoOk hlen h]
  rfl

theorem isP2tr_of_typeOf {redeemScript : Option ScriptBuf} {spk : ScriptBuf}
    (h : typeOf redeemScript spk = .ok .tr) : Script.isP2tr spk = true := by
  unfold typeOf at h
  split_ifs at h with hkind hwpkh hwsh hsh hredeem hredeem' htr
  all_goals first
    | assumption
    | cases Outcome.ok.inj h

theorem of_signingAlgorithm_schnorr (hlen : p.inputs.length = p.unsignedTx.input.length) (h : ¬p.OutOfBoundsAt i)
    (halgorithm : p.signingAlgorithm i = .ok .schnorr) :
    ∃ q out, p.spends[i]? = some q ∧ spentOutput q = some out ∧ Script.isP2tr out.scriptPubkey = true := by
  obtain ⟨ty, hty, hschnorr⟩ := Outcome.map_eq_ok_iff.1 halgorithm
  obtain ⟨q, out, hq, hout, htype⟩ := of_outputType_eq_ok hlen h hty
  cases ty with
  | tr => exact ⟨q, out, hq, hout, isP2tr_of_typeOf htype⟩
  | bare | wpkh | wsh | shWpkh | shWsh | sh => cases hschnorr

/-- Without a taproot output, there is no message. -/
theorem sighashTaproot_of_not_schnorr (hlen : p.inputs.length = p.unsignedTx.input.length)
    (h : ¬p.OutOfBoundsAt i) (hno : p.signingAlgorithm i ≠ .ok .schnorr) (leafHash : Option TapLeafHash) :
    ∃ e, p.sighashTaproot i leafHash = ofOutcome (.err e) := by
  unfold sighashTaproot
  cases halgorithm : p.signingAlgorithm i with
  | ok algorithm =>
    cases algorithm with
    | ecdsa => exact ⟨.wrongSigningAlgorithm, rfl⟩
    | schnorr => exact absurd halgorithm hno
  | err e => exact ⟨e, rfl⟩
  | panic e => exact absurd halgorithm (noPanic_signingAlgorithm hlen h e)

theorem noPanic_taprootHashTy (m : Input S) : m.taprootHashTy.NoPanic := by
  unfold Input.taprootHashTy PsbtSighashType.taprootHashTy TapSighashType.fromConsensusU8
  split_ifs
  all_goals first
    | exact Outcome.noPanic_ok _
    | exact Outcome.noPanic_err _

theorem signable_iff {q : TxIn × Input S} (hq : p.spends[i]? = some q) {out : TxOut}
    (hout : spentOutput q = some out) (htr : Script.isP2tr out.scriptPubkey = true) {hashTy : TapSighashType}
    (hty : q.2.taprootHashTy = .ok hashTy) : p.Signable i ↔
      (isAnyoneCanPay hashTy = true ∨ AllSpent p.spends) ∧ ¬SingleMissing p.unsignedTx i hashTy := by
  constructor
  · rintro ⟨q', out', hashTy', hq', -, -, hty', hcovered, hsingle⟩
    obtain rfl := Option.some.inj (hq.symm.trans hq')
    obtain rfl := Outcome.ok.inj (hty.symm.trans hty')
    exact ⟨hcovered, hsingle⟩
  · rintro ⟨hcovered, hsingle⟩
    exact ⟨q, out, hashTy, hq, hout, htr, hty, hcovered, hsingle⟩

/-- A message, from the outputs that it covers. -/
theorem endsBy_message (hp : p.Limited) {q : TxIn × Input S} (hq : p.spends[i]? = some q) {out : TxOut}
    (hout : spentOutput q = some out) {hashTy : TapSighashType}
    (hcovered : isAnyoneCanPay hashTy = true ∨ AllSpent p.spends) (leafHash : Option TapLeafHash) :
    ∃ prevouts, prevOuts i hashTy (p.spends.map spentOutput) = .ok prevouts ∧
      Ensures (Faithful p.unsignedTx p.spentOutputs) (taprootMessage i prevouts hashTy leafHash)
        (Outcome.EndsBy ¬SingleMissing p.unsignedTx i hashTy) := by
  have houtputs : ∀ o ∈ p.unsignedTx.output, Addressable o.scriptPubkey := hp.unsignedTx.sized.scriptPubkey_lt
  have hannex : ∀ a : Annex, none = some a → Addressable a.bytes := fun a ha => by cases ha
  by_cases hflag : isAnyoneCanPay hashTy = true
  · refine ⟨_, prevOuts_of_anyoneCanPay hq hout hflag, endsBy_taprootMessage (fun l hl => by cases hl) ?_⟩
    rw [isAnyoneCanPay_eq] at hflag
    have hi : i < p.unsignedTx.input.length := (List.getElem?_eq_some_iff.1 (spends_eq_some_iff.1 hq).1).1
    exact taproot_of_one houtputs hflag hi (hp.spentOutput hq hout) hannex _
  · have hall : AllSpent p.spends := hcovered.resolve_left hflag
    rw [Bool.not_eq_true] at hflag
    refine ⟨_, prevOuts_of_allSpent hflag hall i, endsBy_taprootMessage (fun l hl => ?_) ?_⟩
    · cases hl
      rfl
    · rw [isAnyoneCanPay_eq] at hflag
      have hlen : p.spentOutputs.length = p.unsignedTx.input.length := by
        rw [spentOutputs, length_filterMap_spentOutput hall, length_spends hp.length_inputs, hp.length_inputs]
      exact taproot_of_givesAll houtputs hflag hlen hp.spentOutputs i hannex _

/-- Where no index is out of bounds, there is a message exactly for the inputs that are `Signable`, and an
error for the others. -/
theorem endsBy_sighashTaproot (hp : p.Limited) (h : ∀ j, ¬p.OutOfBoundsAt j) (i : ℕ)
    (leafHash : Option TapLeafHash) :
    Ensures (Faithful p.unsignedTx p.spentOutputs) (p.sighashTaproot i leafHash) (Outcome.EndsBy (p.Signable i)) := by
  have hlen := hp.length_inputs
  by_cases halgorithm : p.signingAlgorithm i = .ok .schnorr
  swap
  · obtain ⟨e, he⟩ := sighashTaproot_of_not_schnorr hlen (h i) halgorithm leafHash
    rw [he]
    exact .ofOutcome (Outcome.endsBy_err (fun hsign => halgorithm hsign.signingAlgorithm) e)
  obtain ⟨q, out, hq, hout, htr⟩ := of_signingAlgorithm_schnorr hlen (h i) halgorithm
  rw [sighashTaproot_eq hlen h hq hout htr]
  cases hty : q.2.taprootHashTy with
  | panic e => exact absurd hty (noPanic_taprootHashTy q.2 e)
  | err e =>
    have hno : ¬p.Signable i := by
      rintro ⟨q', -, hashTy, hq', -, -, hty', -⟩
      obtain rfl := Option.some.inj (hq.symm.trans hq')
      rw [hty] at hty'
      cases hty'
    exact .ofOutcome (Outcome.endsBy_err hno _)
  | ok hashTy =>
    rw [Outcome.mapErr_ok, ofOutcome_ok_bind, signable_iff hq hout htr hty]
    by_cases hcovered : isAnyoneCanPay hashTy = true ∨ AllSpent p.spends
    · obtain ⟨prevouts, hprevouts, hmessage⟩ := endsBy_message hp hq hout hcovered leafHash
      rw [hprevouts, ofOutcome_ok_bind, and_iff_right hcovered]
      exact hmessage.endsBy_map _
    · have hmissing := not_or.1 hcovered
      rw [Bool.not_eq_true] at hmissing
      rw [prevOuts_of_not_allSpent hmissing.1 hmissing.2]
      exact .ofOutcome (Outcome.endsBy_err (fun hsign => hcovered hsign.1) _)

end Psbt

end RustDogecoin
