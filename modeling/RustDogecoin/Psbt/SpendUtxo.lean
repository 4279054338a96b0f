import RustDogecoin.Crypto.SighashReturns
import RustDogecoin.Psbt.Extract
import RustDogecoin.Psbt.Sign

/-!
# When the outputs that are spent can be looked up

`spend_utxo` looks an output up in the previous transaction without a check that it is there, where
`iter_funding_utxos` makes the check: `spendUtxo_eq` compares the two.  So `spend_utxo` panics exactly for the
indexes that are out of bounds there, and all that is built on it does: `noPanic_sighashEcdsa_iff` adds the
only other panic of `sighash_ecdsa`, a legacy input that the transaction of the cache does not have.
-/

namespace RustDogecoin

open Sighash SighashCache Effect

/-! ## Kinds of scripts -/

namespace Script

theorem isWitnessProgram_of_isVersionedPush {len : ℕ} {version : WitnessVersion} {push : UInt8} {s : ScriptBuf}
    (h : isVersionedPush len version push s = true) :
    isWitnessProgram s = true ∧ witnessVersion s = some version ∧ s.length = len := by
  simp only [isVersionedPush, Bool.and_eq_true, beq_iff_eq] at h
  obtain ⟨⟨hlen, hversion⟩, -⟩ := h
  exact ⟨by rw [isWitnessProgram, hversion]; rfl, hversion, hlen⟩

theorem isWitnessProgram_of_isP2sh {s : ScriptBuf} (h : isP2sh s = true) : isWitnessProgram s = false := by
  simp only [isP2sh, Bool.and_eq_true, beq_iff_eq] at h
  obtain ⟨⟨⟨hlen, -⟩, hpush⟩, -⟩ := h
  unfold isWitnessProgram witnessVersion
  rw [hlen, hpush]
  rfl

theorem isP2tr_excludes {s : ScriptBuf} (h : isP2tr s = true) :
    isP2wpkh s = false ∧ isP2wsh s = false ∧ isP2sh s = false := by
  obtain ⟨hprogram, hversion, hlen⟩ := isWitnessProgram_of_isVersionedPush h
  refine ⟨?_, ?_, ?_⟩
  · simp [isP2wpkh, isVersionedPush, hlen]
  · simp [isP2wsh, isVersionedPush, hversion]
  · simp [isP2sh, hlen]

end Script

namespace Psbt

variable {S : KeyFormats} {p : Psbt S} {i : ℕ}

/-! ## The output that is spent -/

theorem spends_eq_some_iff {q : TxIn × Input S} :
    p.spends[i]? = some q ↔ p.unsignedTx.input[i]? = some q.1 ∧ p.inputs[i]? = some q.2 :=
  List.getElem?_zip_eq_some

theorem length_spends (hlen : p.inputs.length = p.unsignedTx.input.length) : p.spends.length = p.inputs.length := by
  rw [spends, List.length_zip, hlen, min_self]

theorem checkedInput_of_some {q : TxIn × Input S} (h : p.spends[i]? = some q) : p.checkedInput i = .ok q.2 := by
  obtain ⟨hinput, hmap⟩ := spends_eq_some_iff.1 h
  obtain ⟨hlt, -⟩ := List.getElem?_eq_some_iff.1 hinput
  obtain ⟨hlt', -⟩ := List.getElem?_eq_some_iff.1 hmap
  rw [checkedInput, checkIndexIsWithinBounds, Outcome.ensure_of hlt', Outcome.ok_bind, Outcome.ensure_of hlt,
    index, hmap]
  rfl

theorem checkedInput_of_none (hlen : p.inputs.length = p.unsignedTx.input.length) (h : p.spends[i]? = none) :
    p.checkedInput i = .err (.indexOutOfBounds (.inputs i p.inputs.length)) := by
  have hle : ¬i < p.inputs.length := by
    rw [List.getElem?_eq_none_iff, length_spends hlen] at h
    exact not_lt.2 h
  rw [checkedInput, checkIndexIsWithinBounds, Outcome.ensure, if_neg hle]
  rfl

/-- `spend_utxo` panics where `iter_funding_utxos` returns the error for an index out of bounds. -/
theorem spendUtxo_eq {q : TxIn × Input S} (h : p.spends[i]? = some q) :
    p.spendUtxo i = match fundingUtxo q.1 q.2 with
      | .ok out => .ok out
      | .error .psbtUtxoOutOfbounds => .panic .outOfBounds
      | .error _ => .err .missingSpendUtxo := by
  obtain ⟨hinput, -⟩ := spends_eq_some_iff.1 h
  rw [spendUtxo, checkedInput_of_some h, Outcome.ok_bind]
  unfold fundingUtxo
  cases q.2.witnessUtxo with
  | some out => rfl
  | none =>
    cases q.2.nonWitnessUtxo with
    | none => rfl
    | some tx =>
      dsimp only
      rw [index, hinput, Outcome.ok_bind, index]
      cases tx.output[q.1.previousOutput.vout.toNat]? <;> rfl

/-- The input at the index has a previous transaction only, and this lacks the output that is spent. -/
def OutOfBoundsAt (p : Psbt S) (i : ℕ) : Prop := ∃ q, p.spends[i]? = some q ∧ OutOfBounds q

theorem spendUtxo_of_outOfBoundsAt (h : p.OutOfBoundsAt i) : p.spendUtxo i = .panic .outOfBounds := by
  obtain ⟨q, hq, hbounds⟩ := h
  rw [spendUtxo_eq hq, fundingUtxo_of_outOfBounds hbounds]

theorem spendUtxo_of_spentOutput {q : TxIn × Input S} (hq : p.spends[i]? = some q) {out : TxOut}
    (hout : spentOutput q = some out) : p.spendUtxo i = .ok out := by
  rw [spendUtxo_eq hq, fundingUtxo_of_spentOutput hout]

theorem spendUtxo_of_spentOutput_none (h : ¬p.OutOfBoundsAt i) {q : TxIn × Input S} (hq : p.spends[i]? = some q)
    (hout : spentOutput q = none) : p.spendUtxo i = .err .missingSpendUtxo := by
  rcases fundingUtxo_of_none hout with he | hbounds
  · rw [spendUtxo_eq hq, he]
  · exact absurd ⟨q, hq, hbounds⟩ h

theorem spendUtxo_of_none (hlen : p.inputs.length = p.unsignedTx.input.length) (h : p.spends[i]? = none) :
    p.spendUtxo i = .err (.indexOutOfBounds (.inputs i p.inputs.length)) := by
  rw [spendUtxo, checkedInput_of_none hlen h]
  rfl

/-- `spend_utxo` panics exactly for an index out of bounds. -/
theorem noPanic_spendUtxo_iff (hlen : p.inputs.length = p.unsignedTx.input.length) :
    (p.spendUtxo i).NoPanic ↔ ¬p.OutOfBoundsAt i := by
  constructor
  · intro h hbounds
    exact h _ (spendUtxo_of_outOfBoundsAt hbounds)
  · intro h
    cases hq : p.spends[i]? with
    | none =>
      rw [spendUtxo_of_none hlen hq]
      exact Outcome.noPanic_err _
    | some q =>
      cases hout : spentOutput q with
      | none =>
        rw [spendUtxo_of_spentOutput_none h hq hout]
        exact Outcome.noPanic_err _
      | some out =>
        rw [spendUtxo_of_spentOutput hq hout]
        exact Outcome.noPanic_ok _

theorem spendUtxo_eq_ok_iff (hlen : p.inputs.length = p.unsignedTx.input.length) (h : ¬p.OutOfBoundsAt i)
    {out : TxOut} : p.spendUtxo i = .ok out ↔ ∃ q, p.spends[i]? = some q ∧ spentOutput q = some out := by
  constructor
  · intro hok
    cases hq : p.spends[i]? with
    | none =>
      rw [spendUtxo_of_none hlen hq] at hok
      cases hok
    | some q =>
      cases hout : spentOutput q with
      | none =>
        rw [spendUtxo_of_spentOutput_none h hq hout] at hok
        cases hok
      | some out' =>
        rw [spendUtxo_of_spentOutput hq hout] at hok
        exact ⟨q, rfl, by rw [hout, Outcome.ok.inj hok]⟩
  · rintro ⟨q, hq, hout⟩
    exact spendUtxo_of_spentOutput hq hout

/-! ## Output types -/

theorem noPanic_typeOf (redeemScript : Option ScriptBuf) (spk : ScriptBuf) :
    (typeOf redeemScript spk).NoPanic := by
  unfold typeOf
  split_ifs
  all_goals first
    | exact Outcome.noPanic_ok _
    | exact Outcome.noPanic_err _

theorem outputType_of_spentOutput {q : TxIn × Input S} (hq : p.spends[i]? = some q) {out : TxOut}
    (hout : spentOutput q = some out) : p.outputType i = typeOf q.2.redeemScript out.scriptPubkey := by
  rw [outputType, checkedInput_of_some hq, spendUtxo_of_spentOutput hq hout]
  rfl

theorem outputType_of_outOfBoundsAt (h : p.OutOfBoundsAt i) : p.outputType i = .panic .outOfBounds := by
  obtain ⟨q, hq, -⟩ := id h
  rw [outputType, checkedInput_of_some hq, spendUtxo_of_outOfBoundsAt h]
  rfl

theorem noPanic_checkedInput (hlen : p.inputs.length = p.unsignedTx.input.length) : (p.checkedInput i).NoPanic := by
  cases hq : p.spends[i]? with
  | none =>
    rw [checkedInput_of_none hlen hq]
    exact Outcome.noPanic_err _
  | some q =>
    rw [checkedInput_of_some hq]
    exact Outcome.noPanic_ok _

theorem noPanic_outputType (hlen : p.inputs.length = p.unsignedTx.input.length) (h : ¬p.OutOfBoundsAt i) :
    (p.outputType i).NoPanic :=
  (noPanic_checkedInput hlen).bind fun _ _ => ((noPanic_spendUtxo_iff hlen).2 h).bind fun _ _ => noPanic_typeOf _ _

theorem noPanic_signingAlgorithm (hlen : p.inputs.length = p.unsignedTx.input.length) (h : ¬p.OutOfBoundsAt i) :
    (p.signingAlgorithm i).NoPanic := fun e he => noPanic_outputType hlen h e (Outcome.map_eq_panic_iff.1 he)

/-- A type was found for the output that is spent. -/
theorem of_outputType_eq_ok (hlen : p.inputs.length = p.unsignedTx.input.length) (h : ¬p.OutOfBoundsAt i)
    {ty : OutputType} (hty : p.outputType i = .ok ty) : ∃ q out, p.spends[i]? = some q ∧
      spentOutput q = some out ∧ typeOf q.2.redeemScript out.scriptPubkey = .ok ty := by
  obtain ⟨input, -, hrest⟩ := Outcome.bind_eq_ok_iff.1 hty
  obtain ⟨out, hout, -⟩ := Outcome.bind_eq_ok_iff.1 hrest
  obtain ⟨q, hq, hspent⟩ := (spendUtxo_eq_ok_iff hlen h).1 hout
  exact ⟨q, out, hq, hspent, (outputType_of_spentOutput hq hspent).symm.trans hty⟩

theorem typeOf_eq_bare_iff {redeemScript : Option ScriptBuf} {spk : ScriptBuf} :
    typeOf redeemScript spk = .ok .bare ↔
      Script.isWitnessProgram spk = false ∧ Script.isP2sh spk = false := by
  unfold typeOf
  split_ifs with hkind <;> simp_all

theorem typeOf_of_isP2sh {spk : ScriptBuf} (h : Script.isP2sh spk = true) (redeemScript : Option ScriptBuf) :
    typeOf redeemScript spk =
      if (redeemScript.map Script.isP2wpkh).getD false then .ok .shWpkh
      else if (redeemScript.map Script.isP2wsh).getD false then .ok .shWsh
      else .ok .sh := by
  have hprogram := Script.isWitnessProgram_of_isP2sh h
  have hwpkh : ¬Script.isP2wpkh spk = true := by
    intro hwpkh
    rw [(Script.isWitnessProgram_of_isVersionedPush hwpkh).1] at hprogram
    cases hprogram
  have hwsh : ¬Script.isP2wsh spk = true := by
    intro hwsh
    rw [(Script.isWitnessProgram_of_isVersionedPush hwsh).1] at hprogram
    cases hprogram
  rw [typeOf, hprogram, h, if_neg (by simp), if_neg hwpkh, if_neg hwsh, if_pos rfl]

/-! ## Messages for ECDSA -/

/-- The input is signed with a legacy message: the output is not for a witness, and its map gives what the
message needs. -/
def SpendsLegacy (q : TxIn × Input S) : Prop :=
  ∃ out, spentOutput q = some out ∧ Script.isWitnessProgram out.scriptPubkey = false ∧
    (∃ hashTy, q.2.ecdsaHashTy = .ok hashTy) ∧
    (Script.isP2sh out.scriptPubkey = true → ∃ script, q.2.redeemScript = some script ∧
      Script.isP2wpkh script = false ∧ Script.isP2wsh script = false)

theorem noPanic_ecdsaHashTy (m : Input S) : m.ecdsaHashTy.NoPanic := by
  unfold Input.ecdsaHashTy
  cases m.sighashType with
  | none => exact Outcome.noPanic_ok _
  | some ty =>
    dsimp only
    unfold EcdsaSighashType.fromStandard
    split_ifs
    all_goals first
      | exact Outcome.noPanic_ok _
      | exact Outcome.noPanic_err _

theorem noPanic_okOr {ε α : Type} (x : Option α) (e : ε) : (okOr x e).NoPanic := by
  cases x with
  | none => exact Outcome.noPanic_err e
  | some a => exact Outcome.noPanic_ok a

theorem okOr_eq_ok_iff {ε α : Type} {x : Option α} {e : ε} {a : α} : okOr x e = .ok a ↔ x = some a := by
  cases x <;> simp [okOr]

theorem outcome_legacyExpected (i : ℕ) (script : ScriptBuf) (hashTy : EcdsaSighashType) (cache : SighashCache) :
    (legacyExpected i script hashTy cache).1.outcome =
      (cache.legacySignatureHash i script hashTy.toU32).expect.lift := rfl

theorem safe_legacyExpected {tx : Transaction} {I : SighashCache → Prop} (hI : SafeInvariant tx I)
    (hsized : tx.Sized) (hi : i < tx.input.length) {script : ScriptBuf} (hscript : script.length < 2 ^ 64)
    (hashTy : EcdsaSighashType) : Safe I (legacyExpected i script hashTy) := by
  refine .read_bind fun cache hcache => ?_
  obtain rfl := hI.tx_eq cache hcache
  obtain ⟨hash, hhash⟩ := exists_legacySignatureHash hsized hi hscript hashTy.toU32
  rw [hhash]
  exact .emit (Outcome.noPanic_ok hash)

theorem Limited.spentOutput (hp : p.Limited) {q : TxIn × Input S} (hq : p.spends[i]? = some q) {out : TxOut}
    (hout : Psbt.spentOutput q = some out) : out.scriptPubkey.length < 2 ^ 64 := by
  obtain ⟨-, hmap⟩ := spends_eq_some_iff.1 hq
  have hm := hp.inputs q.2 (List.mem_of_getElem? hmap)
  apply Transaction.lt_of_le_maxVecSize
  unfold Psbt.spentOutput at hout
  cases hw : q.2.witnessUtxo with
  | some w =>
    rw [hw] at hout
    cases hout
    exact hm.witnessUtxo out hw
  | none =>
    rw [hw] at hout
    obtain ⟨tx, htx, hget⟩ := Option.bind_eq_some_iff.1 hout
    exact (hm.nonWitnessUtxo tx htx).scriptPubkey out (List.mem_of_getElem? hget)

theorem spendsLegacy_of_bare {q : TxIn × Input S} {out : TxOut} (hout : spentOutput q = some out)
    {hashTy : EcdsaSighashType} (hty : q.2.ecdsaHashTy = .ok hashTy)
    (h : typeOf q.2.redeemScript out.scriptPubkey = .ok .bare) : SpendsLegacy q := by
  obtain ⟨hprogram, hsh⟩ := typeOf_eq_bare_iff.1 h
  refine ⟨out, hout, hprogram, ⟨hashTy, hty⟩, fun hsh' => ?_⟩
  rw [hsh] at hsh'
  cases hsh'

/-- Only P2SH scripts have the types that need a redeem script. -/
theorem isP2sh_of_typeOf {redeemScript : Option ScriptBuf} {spk : ScriptBuf} {ty : OutputType}
    (h : typeOf redeemScript spk = .ok ty) (hty : ty = .sh ∨ ty = .shWpkh ∨ ty = .shWsh) :
    Script.isP2sh spk = true := by
  unfold typeOf at h
  split_ifs at h with hkind hwpkh hwsh hsh
  all_goals first
    | assumption
    | (cases h; simp at hty)

theorem spendsLegacy_of_sh {q : TxIn × Input S} {out : TxOut} (hout : spentOutput q = some out)
    {hashTy : EcdsaSighashType} (hty : q.2.ecdsaHashTy = .ok hashTy)
    (h : typeOf q.2.redeemScript out.scriptPubkey = .ok .sh) {script : ScriptBuf}
    (hscript : q.2.redeemScript = some script) : SpendsLegacy q := by
  have hsh := isP2sh_of_typeOf h (Or.inl rfl)
  rw [typeOf_of_isP2sh hsh, hscript] at h
  refine ⟨out, hout, Script.isWitnessProgram_of_isP2sh hsh, ⟨hashTy, hty⟩, fun _ => ⟨script, hscript, ?_⟩⟩
  split_ifs at h with hwpkh hwsh
  · cases Outcome.ok.inj h
  · cases Outcome.ok.inj h
  · exact ⟨by simpa using hwpkh, by simpa using hwsh⟩

theorem exists_redeemScript_of_shWpkh {redeemScript : Option ScriptBuf} {spk : ScriptBuf}
    (h : typeOf redeemScript spk = .ok .shWpkh) : ∃ script, redeemScript = some script := by
  rw [typeOf_of_isP2sh (isP2sh_of_typeOf h (Or.inr (Or.inl rfl)))] at h
  cases redeemScript with
  | none => cases h
  | some script => exact ⟨script, rfl⟩

/-- With an output that can be looked up, and an input in the transaction of the cache if a legacy message is
needed, `sighash_ecdsa` does not panic. -/
theorem safe_sighashEcdsa (hp : p.Limited) {tx : Transaction} {I : SighashCache → Prop} (hI : SafeInvariant tx I)
    (hsized : tx.Sized) (h : ¬p.OutOfBoundsAt i)
    (hlegacy : ∀ q, p.spends[i]? = some q → SpendsLegacy q → i < tx.input.length) :
    Safe I (p.sighashEcdsa i) := by
  have hlen := hp.length_inputs
  refine .ofOutcome_bind (noPanic_signingAlgorithm hlen h) fun _ _ => ?_
  refine .ofOutcome_bind (Outcome.noPanic_ensure _) fun _ _ => ?_
  refine .ofOutcome_bind (noPanic_checkedInput hlen) fun input hinput => ?_
  refine .ofOutcome_bind ((noPanic_spendUtxo_iff hlen).2 h) fun utxo hutxo => ?_
  refine .ofOutcome_bind ((noPanic_ecdsaHashTy _).mapErr _) fun hashTy hty => ?_
  refine .ofOutcome_bind (noPanic_outputType hlen h) fun ty htype => ?_
  obtain ⟨q, hq, hspent⟩ := (spendUtxo_eq_ok_iff hlen h).1 hutxo
  obtain rfl := Outcome.ok.inj ((checkedInput_of_some hq).symm.trans hinput)
  rw [outputType_of_spentOutput hq hspent] at htype
  rw [Outcome.mapErr_eq_ok_iff] at hty
  obtain ⟨-, hmap⟩ := spends_eq_some_iff.1 hq
  have hm := hp.inputs q.2 (List.mem_of_getElem? hmap)
  refine Safe.bind ?_ fun _ => .pure _
  cases ty with
  | bare =>
    have hi := hlegacy q hq (spendsLegacy_of_bare hspent hty htype)
    exact safe_legacyExpected hI hsized hi (hp.spentOutput hq hspent) hashTy
  | sh =>
    refine .ofOutcome_bind (noPanic_okOr _ _) fun script hscript => ?_
    rw [okOr_eq_ok_iff] at hscript
    have hi := hlegacy q hq (spendsLegacy_of_sh hspent hty htype hscript)
    have hlt := Transaction.lt_of_le_maxVecSize (hm.redeemScript script hscript)
    exact safe_legacyExpected hI hsized hi hlt hashTy
  | wpkh => exact (hI.p2wpkh _ _ _ _).mapErr _
  | shWpkh =>
    obtain ⟨script, hscript⟩ := exists_redeemScript_of_shWpkh htype
    rw [ecdsaMessage, hscript]
    exact .ofOutcome_bind (Outcome.noPanic_ok script) fun _ _ => (hI.p2wpkh _ _ _ _).mapErr _
  | wsh | shWsh =>
    refine .ofOutcome_bind (noPanic_okOr _ _) fun script hscript => ?_
    rw [okOr_eq_ok_iff] at hscript
    have hlt := Transaction.lt_of_le_maxVecSize (hm.witnessScript script hscript)
    exact (hI.p2wsh _ hlt _ _).mapErr _
  | tr => exact .emit (Outcome.noPanic_err _)

theorem signingAlgorithm_of_outOfBoundsAt (h : p.OutOfBoundsAt i) :
    p.signingAlgorithm i = .panic .outOfBounds := by
  rw [signingAlgorithm, outputType_of_outOfBoundsAt h]
  rfl

theorem sighashEcdsa_of_outOfBoundsAt (h : p.OutOfBoundsAt i) (cache : SighashCache) :
    (p.sighashEcdsa i cache).1.outcome = .panic .outOfBounds := by
  rw [sighashEcdsa, signingAlgorithm_of_outOfBoundsAt h]
  rfl

theorem legacyExpected_of_le {cache : SighashCache} (hi : cache.tx.input.length ≤ i) (script : ScriptBuf)
    (hashTy : EcdsaSighashType) : (legacyExpected i script hashTy cache).1.outcome = .panic .unwrap := by
  rw [outcome_legacyExpected, legacySignatureHash_of_le hi]
  rfl

/-- A message is computed for the type of the output that is spent. -/
theorem outcome_sighashEcdsa {q : TxIn × Input S} (hq : p.spends[i]? = some q) {out : TxOut}
    (hout : spentOutput q = some out) {hashTy : EcdsaSighashType} (hty : q.2.ecdsaHashTy = .ok hashTy)
    {ty : OutputType} (htype : typeOf q.2.redeemScript out.scriptPubkey = .ok ty)
    (halgorithm : ty.signingAlgorithm = .ecdsa) (cache : SighashCache) :
    (p.sighashEcdsa i cache).1.outcome =
      (·, hashTy) <$> (ecdsaMessage i q.2 out hashTy ty cache).1.outcome := by
  have houtput := (outputType_of_spentOutput hq hout).trans htype
  rw [sighashEcdsa, signingAlgorithm, houtput, Outcome.map_ok, ofOutcome_ok_bind, halgorithm,
    Outcome.ensure_of rfl, ofOutcome_ok_bind, checkedInput_of_some hq, ofOutcome_ok_bind,
    spendUtxo_of_spentOutput hq hout, ofOutcome_ok_bind, hty, Outcome.mapErr_ok, ofOutcome_ok_bind,
    ofOutcome_ok_bind]
  exact outcome_bind_pure _ _ _

/-- A legacy message for an input that the transaction of the cache does not have. -/
theorem sighashEcdsa_of_spendsLegacy {q : TxIn × Input S} (hq : p.spends[i]? = some q) (h : SpendsLegacy q)
    {cache : SighashCache} (hi : cache.tx.input.length ≤ i) :
    (p.sighashEcdsa i cache).1.outcome = .panic .unwrap := by
  obtain ⟨out, hout, hprogram, ⟨hashTy, hty⟩, hredeem⟩ := h
  by_cases hsh : Script.isP2sh out.scriptPubkey = true
  · obtain ⟨script, hscript, hwpkh, hwsh⟩ := hredeem hsh
    have htype : typeOf q.2.redeemScript out.scriptPubkey = .ok .sh := by
      rw [typeOf_of_isP2sh hsh, hscript]
      simp [hwpkh, hwsh]
    rw [outcome_sighashEcdsa hq hout hty htype rfl, ecdsaMessage, hscript, okOr, ofOutcome_ok_bind,
      legacyExpected_of_le hi]
    rfl
  · have htype : typeOf q.2.redeemScript out.scriptPubkey = .ok .bare :=
      typeOf_eq_bare_iff.2 ⟨hprogram, by simpa using hsh⟩
    rw [outcome_sighashEcdsa hq hout hty htype rfl, ecdsaMessage, legacyExpected_of_le hi]
    rfl

/-- `sighash_ecdsa` panics exactly for an index out of bounds, and for a legacy message for an input that the
transaction of the cache does not have. -/
theorem noPanic_sighashEcdsa_iff (hp : p.Limited) {cache : SighashCache} (hsized : cache.tx.Sized) :
    (p.sighashEcdsa i cache).1.outcome.NoPanic ↔ ¬p.OutOfBoundsAt i ∧
      ∀ q, p.spends[i]? = some q → SpendsLegacy q → i < cache.tx.input.length := by
  constructor
  · intro h
    refine ⟨fun hbounds => h _ (sighashEcdsa_of_outOfBoundsAt hbounds cache), fun q hq hlegacy => ?_⟩
    by_contra hi
    exact h _ (sighashEcdsa_of_spendsLegacy hq hlegacy (not_lt.1 hi))
  · rintro ⟨hbounds, hlegacy⟩
    exact (safe_sighashEcdsa hp (safeInvariant_cacheOf hsized) hsized hbounds hlegacy cache rfl).1

end Psbt

end RustDogecoin
