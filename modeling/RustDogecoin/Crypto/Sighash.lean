import RustDogecoin.Blockdata.Script
import RustDogecoin.Crypto.Key
import RustDogecoin.Lib.Effect
import RustDogecoin.Taproot.Node

/-!
# Signature hashes

`crypto/sighash.rs`: the messages that signatures of legacy, segwit and taproot inputs commit to.  The hashes
over all inputs and outputs are the same for every input, and `SighashCache` keeps them: the cells for common
and segwit values are filled from the transaction, the one for taproot values from the spent outputs.

The functions that encode a message write into a hash engine or a byte vector, which does not fail, so that
`SigningDataError` has only its `Sighash` variant.
-/

namespace RustDogecoin

abbrev TapLeafHash := U8Array 32

/-! ## Sighash types -/

namespace EcdsaSighashType

/-- `EcdsaSighashType::split_anyonecanpay_flag`. -/
def splitAnyonecanpayFlag : EcdsaSighashType → EcdsaSighashType × Bool
  | all => (all, false)
  | none => (none, false)
  | single => (single, false)
  | allPlusAnyoneCanPay => (all, true)
  | nonePlusAnyoneCanPay => (none, true)
  | singlePlusAnyoneCanPay => (single, true)

/-- `EcdsaSighashType::is_single`. -/
def isSingle : EcdsaSighashType → Bool
  | single | singlePlusAnyoneCanPay => true
  | _ => false

/-- `EcdsaSighashType::from_consensus`. -/
def fromConsensus (n : UInt32) : EcdsaSighashType :=
  let x := n &&& (0x1f ||| 0x80)
  if x = 0x01 then all
  else if x = 0x02 then none
  else if x = 0x03 then single
  else if x = 0x81 then allPlusAnyoneCanPay
  else if x = 0x82 then nonePlusAnyoneCanPay
  else if x = 0x83 then singlePlusAnyoneCanPay
  else if x &&& 0x80 = 0x80 then allPlusAnyoneCanPay
  else all

/-- `EcdsaSighashType::to_u32`. -/
def toU32 (ty : EcdsaSighashType) : UInt32 := ty.toU8.toUInt32

end EcdsaSighashType

/-- `TapSighashType::split_anyonecanpay_flag`. -/
def TapSighashType.splitAnyonecanpayFlag : TapSighashType → TapSighashType × Bool
  | default => (default, false)
  | all => (all, false)
  | none => (none, false)
  | single => (single, false)
  | allPlusAnyoneCanPay => (all, true)
  | nonePlusAnyoneCanPay => (none, true)
  | singlePlusAnyoneCanPay => (single, true)

namespace Sighash

/-! ## Errors -/

/-- `transaction::InputsIndexError`. -/
structure InputsIndexError where
  index : ℕ
  length : ℕ
  deriving DecidableEq, Repr

/-- `PrevoutsIndexError`. -/
inductive PrevoutsIndexError where
  | invalidOneIndex
  | invalidAllIndex
  deriving DecidableEq, Repr

/-- `sighash::TaprootError`. -/
inductive TaprootError where
  | inputsIndex (e : InputsIndexError)
  | singleMissingOutput (inputIndex outputsLength : ℕ)
  | prevoutsSize
  | prevoutsIndex (e : PrevoutsIndexError)
  | prevoutsKind
  | invalidSighashType (n : UInt32)
  deriving DecidableEq, Repr

/-- `P2wpkhError`. -/
inductive P2wpkhError where
  | sighash (e : InputsIndexError)
  | notP2wpkhScript
  deriving DecidableEq, Repr

/-- `AnnexError`. -/
inductive AnnexError where
  | empty
  | incorrectPrefix (b : UInt8)
  deriving DecidableEq, Repr

/-! ## Arguments -/

/-- `Annex`: bytes that start with `0x50`. -/
structure Annex where
  bytes : Bytes
  head_eq : bytes.head? = some Taproot.TAPROOT_ANNEX_PREFIX
  deriving DecidableEq, Repr

/-- `Annex::new`. -/
def Annex.new (annexBytes : Bytes) : Outcome AnnexError Annex :=
  match h : annexBytes.head? with
  | some b => if hb : b = Taproot.TAPROOT_ANNEX_PREFIX then .ok ⟨annexBytes, hb ▸ h⟩
    else .err (.incorrectPrefix b)
  | none => .err .empty

/-- `Prevouts`. -/
inductive Prevouts where
  | one (index : ℕ) (prevout : TxOut)
  | all (prevouts : List TxOut)
  deriving DecidableEq, Repr

namespace Prevouts

/-- `Prevouts::check_all`. -/
def checkAll (prevouts : Prevouts) (tx : Transaction) : Outcome TaprootError Unit :=
  match prevouts with
  | all list => .ensure (list.length = tx.input.length) .prevoutsSize
  | one _ _ => .ok ()

/-- `Prevouts::get_all`. -/
def getAll : Prevouts → Outcome TaprootError (List TxOut)
  | all list => .ok list
  | one _ _ => .err .prevoutsKind

/-- `Prevouts::get`. -/
def get (prevouts : Prevouts) (inputIndex : ℕ) : Outcome TaprootError TxOut :=
  match prevouts with
  | one index prevout =>
    if inputIndex = index then .ok prevout else .err (.prevoutsIndex .invalidOneIndex)
  | all list =>
    match list[inputIndex]? with
    | some prevout => .ok prevout
    | none => .err (.prevoutsIndex .invalidAllIndex)

end Prevouts

/-- `Transaction::tx_in`. -/
def txIn (tx : Transaction) (inputIndex : ℕ) : Outcome InputsIndexError TxIn :=
  match tx.input[inputIndex]? with
  | some txin => .ok txin
  | none => .err ⟨inputIndex, tx.input.length⟩

/-! ## Caches -/

abbrev Hash := U8Array 32

/-- The hash of what is written into an engine. -/
def hashOf (x : Outcome Empty Written) : Outcome Empty Hash := (fun w => Sha256.hash w.bytes) <$> x

structure CommonCache where
  prevouts : Hash
  sequences : Hash
  outputs : Hash
  deriving DecidableEq, Repr

structure SegwitCache where
  prevouts : Hash
  sequences : Hash
  outputs : Hash
  deriving DecidableEq, Repr

structure TaprootCache where
  amounts : Hash
  scriptPubkeys : Hash
  deriving DecidableEq, Repr

/-- What fills the common cache. -/
def CommonCache.of (tx : Transaction) : Outcome Empty CommonCache := do
  let prevouts ← hashOf (Encoder.list OutPoint.codec.consensusEncode (tx.input.map TxIn.previousOutput))
  let sequences ← hashOf (Encoder.list u32.consensusEncode (tx.input.map TxIn.sequence))
  let outputs ← hashOf (Encoder.list TxOut.codec.consensusEncode tx.output)
  return ⟨prevouts, sequences, outputs⟩

/-- What fills the segwit cache, from the common cache. -/
def SegwitCache.ofCommon (common : CommonCache) : SegwitCache where
  prevouts := Sha256.hash common.prevouts.toList
  sequences := Sha256.hash common.sequences.toList
  outputs := Sha256.hash common.outputs.toList

/-- What fills the taproot cache. -/
def TaprootCache.of (prevouts : List TxOut) : Outcome Empty TaprootCache := do
  let amounts ← hashOf (Encoder.list u64.consensusEncode (prevouts.map TxOut.value))
  let scriptPubkeys ← hashOf (Encoder.list vecU8.consensusEncode (prevouts.map TxOut.scriptPubkey))
  return ⟨amounts, scriptPubkeys⟩

end Sighash

open Sighash

/-- `SighashCache`. -/
structure SighashCache where
  tx : Transaction
  commonCell : Option CommonCache
  segwitCell : Option SegwitCache
  taprootCell : Option TaprootCache

namespace SighashCache

variable {ε : Type}

/-- `SighashCache::new`. -/
def new (tx : Transaction) : SighashCache := ⟨tx, none, none, none⟩

/-- `SighashCache::common_cache`. -/
def commonCache : Effect SighashCache ε CommonCache :=
  .memo commonCell (fun c s => { s with commonCell := some c }) do
    let tx ← Effect.read tx
    .ofOutcome (CommonCache.of tx).lift

/-- `SighashCache::segwit_cache`. -/
def segwitCache : Effect SighashCache ε SegwitCache :=
  .memo segwitCell (fun c s => { s with segwitCell := some c }) do
    let common ← commonCache
    return .ofCommon common

/-- `SighashCache::taproot_cache`. -/
def taprootCache (prevouts : List TxOut) : Effect SighashCache ε TaprootCache :=
  .memo taprootCell (fun c s => { s with taprootCell := some c }) (.ofOutcome (TaprootCache.of prevouts).lift)

/-! ## Taproot -/

def KEY_VERSION_0 : UInt8 := 0

/-- The first data of a taproot message: epoch, hash type, version and lock time. -/
def taprootControl (tx : Transaction) (sighashType : TapSighashType) : Emit TaprootError Unit := do
  .encode (u8.consensusEncode 0)
  .encode (u8.consensusEncode sighashType.toU8)
  .encode (i32.consensusEncode tx.version)
  .encode (LockTime.codec.consensusEncode tx.lockTime)

/-- `spend_type`. -/
def spendType (annex : Option Annex) (leafHashCodeSeparator : Option (TapLeafHash × UInt32)) : UInt8 :=
  (if annex.isSome then 1 else 0) ||| (if leafHashCodeSeparator.isSome then 2 else 0)

/-- The spent output and the input, or the index of the input. -/
def taprootOwnInput (tx : Transaction) (inputIndex : ℕ) (prevouts : Prevouts) (anyoneCanPay : Bool) :
    Emit TaprootError Unit :=
  if anyoneCanPay then do
    let txin ← .ofOutcome ((txIn tx inputIndex).mapErr .inputsIndex)
    let previousOutput ← .ofOutcome (prevouts.get inputIndex)
    .encode (OutPoint.codec.consensusEncode txin.previousOutput)
    .encode (u64.consensusEncode previousOutput.value)
    .encode (vecU8.consensusEncode previousOutput.scriptPubkey)
    .encode (u32.consensusEncode txin.sequence)
  else .encode (u32.consensusEncode (UInt32.ofNat inputIndex))

/-- The hash of the annex. -/
def taprootAnnex (annex : Option Annex) : Emit TaprootError Unit :=
  match annex with
  | some annex => do
    let hash ← .ofOutcome (hashOf (consensusEncodeWithSize annex.bytes)).lift
    .encode ((u8Array 32).consensusEncode hash)
  | none => pure ()

/-- The hash of the output at the index of the input. -/
def taprootSingleOutput (tx : Transaction) (inputIndex : ℕ) (sighash : TapSighashType) :
    Emit TaprootError Unit :=
  if sighash = .single then
    match tx.output[inputIndex]? with
    | some output => do
      let hash ← .ofOutcome (hashOf (TxOut.codec.consensusEncode output)).lift
      .encode ((u8Array 32).consensusEncode hash)
    | none => .ofOutcome (.err (.singleMissingOutput inputIndex tx.output.length))
  else pure ()

/-- The leaf of a script path. -/
def taprootLeaf (leafHashCodeSeparator : Option (TapLeafHash × UInt32)) : Emit TaprootError Unit :=
  match leafHashCodeSeparator with
  | some (hash, codeSeparatorPos) => do
    .encode ((u8Array 32).consensusEncode hash)
    .encode (u8.consensusEncode KEY_VERSION_0)
    .encode (u32.consensusEncode codeSeparatorPos)
  | none => pure ()

/-- The hashes over all inputs. -/
def taprootAllInputs (prevouts : Prevouts) (anyoneCanPay : Bool) : Effect SighashCache TaprootError Unit :=
  if !anyoneCanPay then do
    .encode ((u8Array 32).consensusEncode (← commonCache).prevouts)
    .encode ((u8Array 32).consensusEncode (← taprootCache (← .ofOutcome prevouts.getAll)).amounts)
    .encode ((u8Array 32).consensusEncode (← taprootCache (← .ofOutcome prevouts.getAll)).scriptPubkeys)
    .encode ((u8Array 32).consensusEncode (← commonCache).sequences)
  else pure ()

/-- The hash over all outputs. -/
def taprootAllOutputs (sighash : TapSighashType) : Effect SighashCache TaprootError Unit :=
  if sighash ≠ .none ∧ sighash ≠ .single then do
    .encode ((u8Array 32).consensusEncode (← commonCache).outputs)
  else pure ()

/-- `taproot_encode_signing_data_to`. -/
def taprootEncodeSigningDataTo (inputIndex : ℕ) (prevouts : Prevouts) (annex : Option Annex)
    (leafHashCodeSeparator : Option (TapLeafHash × UInt32)) (sighashType : TapSighashType) :
    Effect SighashCache TaprootError Unit := do
  let tx ← .read tx
  .ofOutcome (prevouts.checkAll tx)
  let (sighash, anyoneCanPay) := sighashType.splitAnyonecanpayFlag
  .emit (taprootControl tx sighashType)
  taprootAllInputs prevouts anyoneCanPay
  taprootAllOutputs sighash
  .encode (u8.consensusEncode (spendType annex leafHashCodeSeparator))
  .emit (taprootOwnInput tx inputIndex prevouts anyoneCanPay)
  .emit (taprootAnnex annex)
  .emit (taprootSingleOutput tx inputIndex sighash)
  .emit (taprootLeaf leafHashCodeSeparator)

/-- `TapSighash::from_engine`. -/
def tapSighash (message : Bytes) : Hash :=
  Sha256.fromEngine (Sha256.HashEngine.input (Sha256t.engine (asBytes "TapSighash")) message)

/-- `taproot_signature_hash`. -/
def taprootSignatureHash (inputIndex : ℕ) (prevouts : Prevouts) (annex : Option Annex)
    (leafHashCodeSeparator : Option (TapLeafHash × UInt32)) (sighashType : TapSighashType) :
    Effect SighashCache TaprootError Hash := do
  let message ← (taprootEncodeSigningDataTo inputIndex prevouts annex leafHashCodeSeparator sighashType).collect
  return tapSighash message

/-- `taproot_key_spend_signature_hash`. -/
def taprootKeySpendSignatureHash (inputIndex : ℕ) (prevouts : Prevouts) (sighashType : TapSighashType) :
    Effect SighashCache TaprootError Hash := do
  let message ← (taprootEncodeSigningDataTo inputIndex prevouts none none sighashType).collect
  return tapSighash message

/-- `taproot_script_spend_signature_hash`. -/
def taprootScriptSpendSignatureHash (inputIndex : ℕ) (prevouts : Prevouts) (leafHash : TapLeafHash)
    (sighashType : TapSighashType) : Effect SighashCache TaprootError Hash := do
  let message ← (taprootEncodeSigningDataTo inputIndex prevouts none (some (leafHash, 0xFFFFFFFF))
    sighashType).collect
  return tapSighash message

/-! ## Segwit -/

def zeroHash : Hash := U8Array.replicate 32 0

/-- The input that is signed, with its script code and value. -/
def segwitOwnInput (tx : Transaction) (inputIndex : ℕ) (scriptCode : ScriptBuf) (value : UInt64) :
    Emit InputsIndexError Unit := do
  let txin ← .ofOutcome (txIn tx inputIndex)
  .encode (OutPoint.codec.consensusEncode txin.previousOutput)
  .encode (vecU8.consensusEncode scriptCode)
  .encode (u64.consensusEncode value)
  .encode (u32.consensusEncode txin.sequence)

/-- The hash of the output at the index of the input, or zeros. -/
def segwitSingleOutput (tx : Transaction) (inputIndex : ℕ) (sighash : EcdsaSighashType) :
    Emit InputsIndexError Unit :=
  if sighash = .single then
    match tx.output[inputIndex]? with
    | some output => do
      let hash ← .ofOutcome ((fun w => Sha256d.hash w.bytes) <$> TxOut.codec.consensusEncode output).lift
      .encode ((u8Array 32).consensusEncode hash)
    | none => .encode ((u8Array 32).consensusEncode zeroHash)
  else .encode ((u8Array 32).consensusEncode zeroHash)

/-- A field of the segwit cache, or zeros. -/
def segwitField (c : Prop) [Decidable c] (field : SegwitCache → Hash) : Effect SighashCache InputsIndexError Unit :=
  if c then do
    .encode ((u8Array 32).consensusEncode (field (← segwitCache)))
  else .encode ((u8Array 32).consensusEncode zeroHash)

/-- The hash over all outputs, over one output, or zeros. -/
def segwitOutputs (tx : Transaction) (inputIndex : ℕ) (sighash : EcdsaSighashType) :
    Effect SighashCache InputsIndexError Unit :=
  if sighash ≠ .single ∧ sighash ≠ .none then do
    .encode ((u8Array 32).consensusEncode (← segwitCache).outputs)
  else .emit (segwitSingleOutput tx inputIndex sighash)

/-- `segwit_v0_encode_signing_data_to`. -/
def segwitV0EncodeSigningDataTo (inputIndex : ℕ) (scriptCode : ScriptBuf) (value : UInt64)
    (sighashType : EcdsaSighashType) : Effect SighashCache InputsIndexError Unit := do
  let tx ← .read tx
  let (sighash, anyoneCanPay) := sighashType.splitAnyonecanpayFlag
  .encode (i32.consensusEncode tx.version)
  segwitField (!anyoneCanPay) SegwitCache.prevouts
  segwitField (!anyoneCanPay ∧ sighash ≠ .single ∧ sighash ≠ .none) SegwitCache.sequences
  .emit (segwitOwnInput tx inputIndex scriptCode value)
  segwitOutputs tx inputIndex sighash
  .encode (LockTime.codec.consensusEncode tx.lockTime)
  .encode (u32.consensusEncode sighashType.toU32)

/-- `p2wpkh_signature_hash`. -/
def p2wpkhSignatureHash (inputIndex : ℕ) (scriptPubkey : ScriptBuf) (value : UInt64)
    (sighashType : EcdsaSighashType) : Effect SighashCache P2wpkhError Hash := do
  let some scriptCode ← .ofOutcome (Script.p2wpkhScriptCode scriptPubkey).lift
    | .ofOutcome (.err .notP2wpkhScript)
  let message ← ((segwitV0EncodeSigningDataTo inputIndex scriptCode value sighashType).mapErr .sighash).collect
  return Sha256d.hash message

/-- `p2wsh_signature_hash`. -/
def p2wshSignatureHash (inputIndex : ℕ) (witnessScript : ScriptBuf) (value : UInt64)
    (sighashType : EcdsaSighashType) : Effect SighashCache InputsIndexError Hash := do
  let message ← (segwitV0EncodeSigningDataTo inputIndex witnessScript value sighashType).collect
  return Sha256d.hash message

/-! ## Legacy -/

theorem length_uint256One : (1 :: List.replicate 31 (0 : UInt8)).length = 32 := by simp

/-- Used for signature hash for invalid use of SIGHASH_SINGLE. -/
def UINT256_ONE : Hash := ⟨1 :: List.replicate 31 0, length_uint256One⟩

/-- `TxOut::NULL`. -/
def nullTxOut : TxOut := ⟨0xFFFFFFFFFFFFFFFF, []⟩

/-- `is_invalid_use_of_sighash_single`. -/
def isInvalidUseOfSighashSingle (sighash : UInt32) (inputIndex outputsLen : ℕ) : Bool :=
  (EcdsaSighashType.fromConsensus sighash).isSingle && outputsLen ≤ inputIndex

/-- `EncodeSigningDataResult`, with what was written. -/
inductive EncodeSigningDataResult where
  | sighashSingleBug
  | writeResult (m : Emit InputsIndexError Unit)

/-- The inputs of the transaction that is hashed. -/
def legacyInputs (tx : Transaction) (inputIndex : ℕ) (scriptPubkey : ScriptBuf) (sighash : EcdsaSighashType)
    (anyoneCanPay : Bool) : Outcome InputsIndexError (List TxIn) :=
  if anyoneCanPay then
    match tx.input[inputIndex]? with
    | some input => .ok [⟨input.previousOutput, scriptPubkey, input.sequence, Witness.new⟩]
    | none => .panic .outOfBounds
  else
    .ok (tx.input.mapIdx fun n input =>
      { previousOutput := input.previousOutput
        scriptSig := if n = inputIndex then scriptPubkey else []
        sequence := if n ≠ inputIndex ∧ (sighash = .single ∨ sighash = .none) then 0 else input.sequence
        witness := Witness.new })

/-- The outputs of the transaction that is hashed. -/
def legacyOutputs (tx : Transaction) (inputIndex : ℕ) (sighash : EcdsaSighashType) :
    Outcome InputsIndexError (List TxOut) :=
  match sighash with
  | .all => .ok tx.output
  | .single =>
    .ok ((tx.output.take (inputIndex + 1)).mapIdx fun n out => if n = inputIndex then out else nullTxOut)
  | .none => .ok []
  | _ => .panic .assertion

/-- `encode_signing_data_to_inner`. -/
def encodeSigningDataToInner (slf : Transaction) (inputIndex : ℕ) (scriptPubkey : ScriptBuf)
    (sighashType : UInt32) : Emit InputsIndexError Unit := do
  let (sighash, anyoneCanPay) := (EcdsaSighashType.fromConsensus sighashType).splitAnyonecanpayFlag
  let input ← .ofOutcome (legacyInputs slf inputIndex scriptPubkey sighash anyoneCanPay)
  let output ← .ofOutcome (legacyOutputs slf inputIndex sighash)
  .encode (Transaction.consensusEncode ⟨slf.version, slf.lockTime, input, output⟩)
  .encode (u32.consensusEncode sighashType)

/-- `legacy_encode_signing_data_to`. -/
def legacyEncodeSigningDataTo (s : SighashCache) (inputIndex : ℕ) (scriptPubkey : ScriptBuf)
    (sighashType : UInt32) : EncodeSigningDataResult :=
  match txIn s.tx inputIndex with
  | .err e => .writeResult (.ofOutcome (.err e))
  | .panic p => .writeResult (.ofOutcome (.panic p))
  | .ok _ =>
    if isInvalidUseOfSighashSingle sighashType inputIndex s.tx.output.length then .sighashSingleBug
    else .writeResult (encodeSigningDataToInner s.tx inputIndex scriptPubkey sighashType)

/-- `legacy_signature_hash`. -/
def legacySignatureHash (s : SighashCache) (inputIndex : ℕ) (scriptPubkey : ScriptBuf) (sighashType : UInt32) :
    Outcome InputsIndexError Hash :=
  match s.legacyEncodeSigningDataTo inputIndex scriptPubkey sighashType with
  | .sighashSingleBug => .ok UINT256_ONE
  | .writeResult m => Sha256d.hash <$> m.collect

/-! ## Witnesses -/

/-- `witness_mut`, and what is done with the witness. -/
def witnessMut (inputIndex : ℕ) (f : Witness → Witness) (s : SighashCache) : SighashCache :=
  { s with tx := { s.tx with
      input := s.tx.input.modify inputIndex fun i => { i with witness := f i.witness } } }

end SighashCache

end RustDogecoin
