import RustDogecoin.Crypto.Signing
import RustDogecoin.Crypto.SighashCache
import RustDogecoin.Psbt.Map

/-!
# Signing a partially signed transaction

The signer of `psbt/mod.rs`: which output an input spends and how it is signed, the messages for ECDSA and
Schnorr signatures, and the loop of `sign` over the inputs.  The loop changes the input maps and the sighash
cache in place; errors are collected for each input, so that only a panic ends it early.
-/

namespace RustDogecoin

open Sighash SighashCache

namespace Psbt

variable {S : KeyFormats}

/-- `psbt::OutputType`. -/
inductive OutputType where
  | bare
  | wpkh
  | wsh
  | shWpkh
  | shWsh
  | sh
  | tr
  deriving DecidableEq, Repr

/-- `SigningAlgorithm`. -/
inductive SigningAlgorithm where
  | ecdsa
  | schnorr
  deriving DecidableEq, Repr

/-- `OutputType::signing_algorithm`. -/
def OutputType.signingAlgorithm : OutputType → SigningAlgorithm
  | bare | wpkh | wsh | shWpkh | shWsh | sh => .ecdsa
  | tr => .schnorr

/-- `IndexOutOfBoundsError`. -/
inductive IndexOutOfBoundsError where
  | inputs (index length : ℕ)
  | txInput (index length : ℕ)
  deriving DecidableEq, Repr

/-- `SignError`. -/
inductive SignError where
  | indexOutOfBounds (e : IndexOutOfBoundsError)
  | invalidSighashType
  | missingInputUtxo
  | missingRedeemScript
  | missingSpendUtxo
  | missingWitnessScript
  | mismatchedAlgoKey
  | notEcdsa
  | notWpkh
  | segwitV0Sighash (e : InputsIndexError)
  | p2wpkhSighash (e : P2wpkhError)
  | taprootError (e : TaprootError)
  | unknownOutputType
  | keyNotFound
  | wrongSigningAlgorithm
  | unsupported
  deriving DecidableEq, Repr

/-! ## The output that is spent -/

/-- `vec[index]`. -/
def index {ε α : Type} (vec : List α) (i : ℕ) : Outcome ε α :=
  match vec[i]? with
  | some a => .ok a
  | none => .panic .outOfBounds

/-- `Option::ok_or`. -/
def okOr {ε α : Type} (x : Option α) (e : ε) : Outcome ε α :=
  match x with
  | some a => .ok a
  | none => .err e

/-- `check_index_is_within_bounds`. -/
def checkIndexIsWithinBounds (p : Psbt S) (inputIndex : ℕ) : Outcome IndexOutOfBoundsError Unit := do
  .ensure (inputIndex < p.inputs.length) (.inputs inputIndex p.inputs.length)
  .ensure (inputIndex < p.unsignedTx.input.length) (.txInput inputIndex p.unsignedTx.input.length)

/-- `checked_input`. -/
def checkedInput (p : Psbt S) (inputIndex : ℕ) : Outcome SignError (Input S) := do
  (p.checkIndexIsWithinBounds inputIndex).mapErr .indexOutOfBounds
  index p.inputs inputIndex

/-- `spend_utxo`. -/
def spendUtxo (p : Psbt S) (inputIndex : ℕ) : Outcome SignError TxOut := do
  let input ← p.checkedInput inputIndex
  match input.witnessUtxo, input.nonWitnessUtxo with
  | some witnessUtxo, _ => .ok witnessUtxo
  | none, some nonWitnessUtxo =>
    let txin ← index p.unsignedTx.input inputIndex
    index nonWitnessUtxo.output txin.previousOutput.vout.toNat
  | none, none => .err .missingSpendUtxo

/-- What `output_type` makes of the script of the output that is spent, and of the redeem script. -/
def typeOf (redeemScript : Option ScriptBuf) (spk : ScriptBuf) : Outcome SignError OutputType :=
  if !(Script.isWitnessProgram spk || Script.isP2sh spk) then .ok .bare
  else if Script.isP2wpkh spk then .ok .wpkh
  else if Script.isP2wsh spk then .ok .wsh
  else if Script.isP2sh spk then
    if (redeemScript.map Script.isP2wpkh).getD false then .ok .shWpkh
    else if (redeemScript.map Script.isP2wsh).getD false then .ok .shWsh
    else .ok .sh
  else if Script.isP2tr spk then .ok .tr
  else .err .unknownOutputType

/-- `output_type`. -/
def outputType (p : Psbt S) (inputIndex : ℕ) : Outcome SignError OutputType := do
  let input ← p.checkedInput inputIndex
  let utxo ← p.spendUtxo inputIndex
  typeOf input.redeemScript utxo.scriptPubkey

/-- `Psbt::signing_algorithm`. -/
def signingAlgorithm (p : Psbt S) (inputIndex : ℕ) : Outcome SignError SigningAlgorithm :=
  OutputType.signingAlgorithm <$> p.outputType inputIndex

/-! ## Messages -/

/-- `PsbtSighashType::from` of a taproot sighash type. -/
def PsbtSighashType.ofTaproot (ty : TapSighashType) : PsbtSighashType := ⟨ty.toU8.toUInt32⟩

/-- `PsbtSighashType::taproot_hash_ty`; the error holds the number. -/
def PsbtSighashType.taprootHashTy (ty : PsbtSighashType) : Outcome UInt32 TapSighashType :=
  if 0xff < ty.inner then .err ty.inner else TapSighashType.fromConsensusU8 ty.inner.toUInt8

/-- `Input::ecdsa_hash_ty`; the error holds the number. -/
def Input.ecdsaHashTy (m : Input S) : Outcome UInt32 EcdsaSighashType :=
  match m.sighashType with
  | some ty => EcdsaSighashType.fromStandard ty.inner
  | none => .ok .all

/-- `legacy_signature_hash(..).expect("input checked above")`. -/
def legacyExpected (inputIndex : ℕ) (scriptPubkey : ScriptBuf) (hashTy : EcdsaSighashType) :
    Effect SighashCache SignError Hash := do
  let sighash ← Effect.read fun cache => cache.legacySignatureHash inputIndex scriptPubkey hashTy.toU32
  .ofOutcome sighash.expect.lift

/-- The message of `sighash_ecdsa` for an output type. -/
def ecdsaMessage (inputIndex : ℕ) (input : Input S) (utxo : TxOut) (hashTy : EcdsaSighashType) :
    OutputType → Effect SighashCache SignError Hash
  | .bare => legacyExpected inputIndex utxo.scriptPubkey hashTy
  | .sh => do
    let scriptCode ← .ofOutcome (okOr input.redeemScript .missingRedeemScript)
    legacyExpected inputIndex scriptCode hashTy
  | .wpkh => (p2wpkhSignatureHash inputIndex utxo.scriptPubkey utxo.value hashTy).mapErr .p2wpkhSighash
  | .shWpkh => do
    let redeemScript ← .ofOutcome (okOr input.redeemScript ()).expect.lift
    (p2wpkhSignatureHash inputIndex redeemScript utxo.value hashTy).mapErr .p2wpkhSighash
  | .wsh | .shWsh => do
    let witnessScript ← .ofOutcome (okOr input.witnessScript .missingWitnessScript)
    (p2wshSignatureHash inputIndex witnessScript utxo.value hashTy).mapErr .segwitV0Sighash
  | .tr => .ofOutcome (.err .unsupported)

/-- `sighash_ecdsa`. -/
def sighashEcdsa (p : Psbt S) (inputIndex : ℕ) :
    Effect SighashCache SignError (Hash × EcdsaSighashType) := do
  let algorithm ← .ofOutcome (p.signingAlgorithm inputIndex)
  .ofOutcome (.ensure (algorithm = .ecdsa) .wrongSigningAlgorithm)
  let input ← .ofOutcome (p.checkedInput inputIndex)
  let utxo ← .ofOutcome (p.spendUtxo inputIndex)
  let hashTy ← .ofOutcome (input.ecdsaHashTy.mapErr fun _ => .invalidSighashType)
  let outputType ← .ofOutcome (p.outputType inputIndex)
  let sighash ← ecdsaMessage inputIndex input utxo hashTy outputType
  return (sighash, hashTy)

/-- `self.spend_utxo(i).ok()`. -/
def spendUtxoOk (p : Psbt S) (i : ℕ) : Outcome SignError (Option TxOut) :=
  match p.spendUtxo i with
  | .ok utxo => .ok (some utxo)
  | .err _ => .ok none
  | .panic e => .panic e

/-- `is_anyone_can_pay`. -/
def isAnyoneCanPay (hashTy : TapSighashType) : Bool := (PsbtSighashType.ofTaproot hashTy).inner &&& 0x80 != 0

/-- The spent outputs that a taproot message needs. -/
def prevOuts (inputIndex : ℕ) (hashTy : TapSighashType) (spendUtxos : List (Option TxOut)) :
    Outcome SignError Prevouts :=
  if isAnyoneCanPay hashTy then do
    let utxo ← index spendUtxos inputIndex
    let utxo ← okOr utxo .missingSpendUtxo
    return .one inputIndex utxo
  else if spendUtxos.all Option.isSome then .ok (.all (spendUtxos.filterMap id))
  else .err .missingSpendUtxo

/-- The message of `sighash_taproot`, for a leaf or for the key. -/
def taprootMessage (inputIndex : ℕ) (prevOuts : Prevouts) (hashTy : TapSighashType) :
    Option TapLeafHash → Effect SighashCache SignError Hash
  | some leafHash => (taprootScriptSpendSignatureHash inputIndex prevOuts leafHash hashTy).mapErr .taprootError
  | none => (taprootKeySpendSignatureHash inputIndex prevOuts hashTy).mapErr .taprootError

/-- `sighash_taproot`. -/
def sighashTaproot (p : Psbt S) (inputIndex : ℕ) (leafHash : Option TapLeafHash) :
    Effect SighashCache SignError (Hash × TapSighashType) := do
  let algorithm ← .ofOutcome (p.signingAlgorithm inputIndex)
  .ofOutcome (.ensure (algorithm = .schnorr) .wrongSigningAlgorithm)
  let input ← .ofOutcome (p.checkedInput inputIndex)
  let outputType ← .ofOutcome (p.outputType inputIndex)
  .ofOutcome (.ensure (outputType = .tr) .unsupported)
  let hashTy ← .ofOutcome ((input.sighashType.getD (.ofTaproot .default)).taprootHashTy.mapErr fun _ =>
    .invalidSighashType)
  let spendUtxos ← .ofOutcome ((List.range p.inputs.length).mapM p.spendUtxoOk)
  let prevOuts ← .ofOutcome (prevOuts inputIndex hashTy spendUtxos)
  let sighash ← taprootMessage inputIndex prevOuts hashTy leafHash
  return (sighash, hashTy)

/-! ## Signatures -/

variable (S) in
/-- `KeyRequest`. -/
inductive KeyRequest where
  | pubkey (key : PublicKey S)
  | bip32 (source : KeySource)
  | xOnlyPubkey (key : S.XOnlyPublicKey)

/-- `GetKey`, with an error type of the implementor. -/
abbrev GetKey (S : KeyFormats) (E : Type) := KeyRequest S → Except E (Option (PrivateKey S.toSecp256k1))

section Signer

variable {E : Type} (secp : Signing S) (k : GetKey S E)

/-- `if let Ok(Some(sk)) = k.get_key(request, secp)`. -/
def getKey (request : KeyRequest S) : Option (PrivateKey S.toSecp256k1) :=
  match k request with
  | .ok (some sk) => some sk
  | _ => none

/-- A turn of the loop of `bip32_sign_ecdsa`. -/
def signEcdsaWith (msgSighashTyRes : Except SignError (Hash × EcdsaSighashType))
    (state : Input S × List (PublicKey S)) (entry : S.PublicKey × KeySource) :
    Outcome SignError (Input S × List (PublicKey S)) :=
  match (getKey k (.bip32 entry.2)).or (getKey k (.pubkey ⟨true, entry.1⟩)) with
  | none => .ok state
  | some sk => do
    -- only return the error if we have a secret key
    let (msg, sighashTy) ← .ofExcept msgSighashTyRes
    let sig := ⟨secp.signEcdsa msg sk.inner, sighashTy⟩
    let pk := sk.publicKey
    return ({ state.1 with partialSigs := state.1.partialSigs.insert pk sig }, state.2 ++ [pk])

/-- `bip32_sign_ecdsa`; returns the transaction with the new signatures too. -/
def bip32SignEcdsa (p : Psbt S) (inputIndex : ℕ) :
    Effect SighashCache SignError (List (PublicKey S) × Psbt S) := do
  let msgSighashTyRes ← (p.sighashEcdsa inputIndex).attempt
  let input ← .ofOutcome (index p.inputs inputIndex)
  let (input, used) ← .ofOutcome
    (input.bip32Derivation.toList.foldlM (signEcdsaWith secp k msgSighashTyRes) (input, []))
  return (used, { p with inputs := p.inputs.set inputIndex input })

/-- The key path spend of `bip32_sign_schnorr`. -/
def signKeyPath (p : Psbt S) (inputIndex : ℕ) (sk : PrivateKey S.toSecp256k1) (xonly : S.XOnlyPublicKey)
    (leafHashes : List TapLeafHash) (state : Input S × List S.XOnlyPublicKey) :
    Effect SighashCache SignError (Input S × List S.XOnlyPublicKey) :=
  if state.1.tapInternalKey = some xonly ∧ leafHashes = [] ∧ state.1.tapKeySig.isNone then do
    let (msg, sighashType) ← p.sighashTaproot inputIndex none
    let keyPair ← .ofOutcome (secp.tapTweak (secp.fromSecretKey sk.inner) state.1.tapMerkleRoot).lift
    let signature := ⟨secp.signSchnorr msg keyPair, sighashType⟩
    return ({ state.1 with tapKeySig := some signature }, state.2 ++ [xonly])
  else pure state

/-- A turn of the loop over the leaves of a key. -/
def signLeaf (p : Psbt S) (inputIndex : ℕ) (keyPair : secp.Keypair) (xonly : S.XOnlyPublicKey)
    (input : Input S) (lh : TapLeafHash) : Effect SighashCache SignError (Input S) := do
  let (msg, sighashType) ← p.sighashTaproot inputIndex (some lh)
  let signature := ⟨secp.signSchnorr msg keyPair, sighashType⟩
  return { input with tapScriptSigs := input.tapScriptSigs.insert (toLex (xonly, lh)) signature }

/-- The script path spend of `bip32_sign_schnorr`. -/
def signScriptPath (p : Psbt S) (inputIndex : ℕ) (sk : PrivateKey S.toSecp256k1) (xonly : S.XOnlyPublicKey)
    (state : Input S × List S.XOnlyPublicKey) :
    Effect SighashCache SignError (Input S × List S.XOnlyPublicKey) :=
  match state.1.tapKeyOrigins[xonly]? with
  | none => pure state
  | some (leafHashes, _) =>
    let leafHashes := leafHashes.filter fun lh => !state.1.tapScriptSigs.contains (toLex (xonly, lh))
    if leafHashes ≠ [] then do
      let input ← leafHashes.foldlM (signLeaf secp p inputIndex (secp.fromSecretKey sk.inner) xonly) state.1
      return (input, state.2 ++ [secp.xOnlyFromPublicKey sk.publicKey.inner])
    else pure state

/-- A turn of the loop of `bip32_sign_schnorr`. -/
def signSchnorrWith (p : Psbt S) (inputIndex : ℕ) (state : Input S × List S.XOnlyPublicKey)
    (entry : S.XOnlyPublicKey × List TapLeafHash × KeySource) :
    Effect SighashCache SignError (Input S × List S.XOnlyPublicKey) :=
  match (getKey k (.bip32 entry.2.2)).or (getKey k (.xOnlyPubkey entry.1)) with
  | none => pure state
  | some sk => do
    let state ← signKeyPath secp p inputIndex sk entry.1 entry.2.1 state
    signScriptPath secp p inputIndex sk entry.1 state

/-- `bip32_sign_schnorr`; returns the transaction with the new signatures too. -/
def bip32SignSchnorr (p : Psbt S) (inputIndex : ℕ) :
    Effect SighashCache SignError (List S.XOnlyPublicKey × Psbt S) := do
  let input ← .ofOutcome (p.checkedInput inputIndex)
  let (input, used) ← input.tapKeyOrigins.toList.foldlM (signSchnorrWith secp k p inputIndex) (input, [])
  return (used, { p with inputs := p.inputs.set inputIndex input })

variable (S) in
/-- `SigningKeys`. -/
inductive SigningKeys where
  | ecdsa (keys : List (PublicKey S))
  | schnorr (keys : List S.XOnlyPublicKey)

/-- What the loop of `sign` has done so far. -/
structure SignState (S : KeyFormats) where
  psbt : Psbt S
  used : BTreeMap ℕ (SigningKeys S) := ∅
  errors : BTreeMap ℕ SignError := ∅

/-- What the loop of `sign` does with an input. -/
def signInput (p : Psbt S) (i : ℕ) : Effect SighashCache SignError (SigningKeys S × Psbt S) := do
  let algorithm ← .ofOutcome (p.signingAlgorithm i)
  match algorithm with
  | .ecdsa =>
    let (v, p) ← bip32SignEcdsa secp k p i
    return (.ecdsa v, p)
  | .schnorr =>
    let (v, p) ← bip32SignSchnorr secp k p i
    return (.schnorr v, p)

/-- A turn of the loop of `sign`. -/
def signTurn (state : SignState S) (i : ℕ) : Effect SighashCache Empty (SignState S) := do
  let result ← (signInput secp k state.psbt i).attempt
  match result with
  | .ok (v, p) => return { state with psbt := p, used := state.used.insert i v }
  | .error e => return { state with errors := state.errors.insert i e }

/-- `Psbt::sign`; the results hold the transaction as it is left behind. -/
def sign (p : Psbt S) :
    Outcome (Psbt S × BTreeMap ℕ (SigningKeys S) × BTreeMap ℕ SignError) (Psbt S × BTreeMap ℕ (SigningKeys S)) := do
  let state ← ((List.range p.inputs.length).foldlM (signTurn secp k) { psbt := p }
    (SighashCache.new p.unsignedTx)).1.outcome.lift
  if state.errors.isEmpty then .ok (state.psbt, state.used)
  else .err (state.psbt, state.used, state.errors)

end Signer

end Psbt

end RustDogecoin
