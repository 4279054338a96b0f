import RustDogecoin.Hashes.Ripemd160
import RustDogecoin.Psbt.Map

/-!
# Serialisation of partially signed transactions

`psbt/serialize.rs`, `psbt/macros.rs` and the maps of `psbt/map/`: the byte forms of values and keys, how a
map is written as raw pairs (`getPairs`), how a raw pair is read into a map (`insertPair`), and the whole
format on top of them.
-/

namespace RustDogecoin

namespace Psbt

open Raw Taproot

variable {S : KeyFormats}

/-- An implementation of `Serialize` and `Deserialize`. -/
structure Format (S : KeyFormats) (α : Type) where
  serialize : α → Outcome Empty Bytes
  deserialize : Bytes → Outcome (Error S) α

namespace Format

/-- `impl_psbt_de_serialize!`. -/
def implPsbtDeSerialize {α : Type} (c : Codec α) : Format S α where
  serialize a := Written.bytes <$> c.consensusEncode a
  deserialize bytes := (RustDogecoin.deserialize c bytes).mapErr .consensusEncoding

def transaction : Format S Transaction := implPsbtDeSerialize Transaction.codec

def txOut : Format S TxOut := implPsbtDeSerialize TxOut.codec

def witness : Format S Witness := implPsbtDeSerialize Witness.codec

/-- `impl_psbt_hash_de_serialize!`. -/
def hash (n : ℕ) : Format S (U8Array n) where
  serialize h := .ok h.toList
  deserialize bytes := (hashFromSlice n bytes).mapErr .invalidHash

/-- Bytes as they are: `ScriptBuf` and `Vec<u8>`. -/
def bytes : Format S Bytes where
  serialize bs := .ok bs
  deserialize bs := .ok bs

def publicKey : Format S (PublicKey S) where
  serialize k := .ok k.toBytes
  deserialize bytes := (PublicKey.fromSlice bytes).mapErr .invalidPublicKey

def secp256k1PublicKey : Format S S.PublicKey where
  serialize k := .ok (S.serialize k).toList
  deserialize bytes := (Outcome.ofExcept (S.publicKeyFromSlice bytes)).mapErr .invalidSecp256k1PublicKey

def ecdsaSignature : Format S (Ecdsa.Signature S) where
  serialize sig := .ok sig.toVec
  deserialize bytes := (Ecdsa.Signature.fromSlice bytes).mapErr fun
    | .emptySignature => .invalidEcdsaSignature .emptySignature
    | .sighashType n => .nonStandardSighashType n
    | .secp256k1 e => .invalidEcdsaSignature (.secp256k1 e)

/-- The loop of `KeySource::deserialize`; every turn takes four bytes off. -/
def readPath : ℕ → Bytes → Outcome (Error S) (List Bip32.ChildNumber)
  | 0, _ => .ok []
  | fuel + 1, d =>
    if d = [] then .ok []
    else do
      let (index, d) ← (u32.consensusDecode.run d).mapErr .consensusEncoding
      let dpath ← readPath fuel d
      return .ofU32 index :: dpath

/-- The bytes of a derivation path. -/
def pathBytes (path : List Bip32.ChildNumber) : Bytes := path.flatMap fun c => leBytes 4 c.toU32.toNat

def keySource : Format S KeySource where
  serialize source := .ok (source.1.toList ++ pathBytes source.2)
  deserialize bytes :=
    if h : (bytes.take 4).length = 4 then do
      let dpath ← readPath bytes.length (bytes.drop 4)
      return (⟨bytes.take 4, h⟩, dpath)
    else .err .io

def psbtSighashType : Format S PsbtSighashType where
  serialize ty := Written.bytes <$> u32.consensusEncode ty.inner
  deserialize bytes := do
    let raw ← (RustDogecoin.deserialize u32 bytes).mapErr .consensusEncoding
    return ⟨raw⟩

def xOnlyPublicKey : Format S S.XOnlyPublicKey where
  serialize k := .ok (S.xOnlySerialize k).toList
  deserialize bytes := (Outcome.ofExcept (S.xOnlyFromSlice bytes)).mapErr fun _ => .invalidXOnlyPublicKey

def taprootSignature : Format S (Taproot.Signature S) where
  serialize sig := .ok sig.toVec
  deserialize bytes := (Taproot.Signature.fromSlice bytes).mapErr fun
    | .sighashType n => .nonStandardSighashType n
    | .invalidSignatureSize len => .invalidTaprootSignature (.invalidSignatureSize len)
    | .secp256k1 e => .invalidTaprootSignature (.secp256k1 e)

def tapScriptSigKey : Format S (S.XOnlyPublicKey ×ₗ U8Array 32) where
  serialize k := .ok ((S.xOnlySerialize (ofLex k).1).toList ++ (ofLex k).2.toList)
  deserialize bytes := do
    .ensure (32 ≤ bytes.length) .io
    let a ← xOnlyPublicKey.deserialize (bytes.take 32)
    let b ← (hash 32).deserialize (bytes.drop 32)
    return toLex (a, b)

def controlBlock : Format S (ControlBlock S) where
  serialize cb := .ok cb.serialize
  deserialize bytes := (ControlBlock.decode bytes).mapErr fun _ => .invalidControlBlock

/-- A script with its leaf version behind it. -/
def versionedScript : Format S (ScriptBuf × LeafVersion) where
  serialize v := .ok (v.1 ++ [v.2.toConsensus])
  deserialize bytes := do
    .ensure (bytes ≠ []) .io
    let leafVer ← (LeafVersion.fromConsensus (bytes.getLastD 0)).mapErr fun _ => .invalidLeafVersion
    return (bytes.dropLast, leafVer)

def tapKeyOrigin : Format S (List (U8Array 32) × KeySource) where
  serialize v := do
    let leafHashes ← (vec (u8Array 32)).consensusEncode v.1
    let source ← (keySource (S := S)).serialize v.2
    return leafHashes.bytes ++ source
  deserialize bytes := do
    let (leafHashes, rest) ←
      ((vec (u8Array 32)).consensusDecodeFromFiniteReader.run bytes).mapErr .consensusEncoding
    let source ← keySource.deserialize rest
    return (leafHashes, source)

/-- One leaf of a script tree as it is written; hidden leaves end the iteration. -/
def writeLeaves : List LeafNode → Outcome Empty Bytes
  | [] => .ok []
  | ⟨.hidden _, _⟩ :: _ => .ok []
  | ⟨.script script version, merkleBranch⟩ :: leaves => do
    let script ← vecU8.consensusEncode script
    let leaves ← writeLeaves leaves
    return UInt8.ofNat merkleBranch.hashes.length :: version.toConsensus :: (script.bytes ++ leaves)

/-- The loop of `TapTree::deserialize`; every turn takes a depth off. -/
def readLeaves : ℕ → TaprootBuilder → Bytes → Outcome (Error S) TaprootBuilder
  | 0, builder, _ => .ok builder
  | fuel + 1, builder, bytes =>
    match bytes with
    | [] => .ok builder
    | [_] => .err (.taproot "Invalid Taproot Builder")
    | depth :: version :: bytes => do
      let (script, bytes) ←
        (vecU8.consensusDecodeFromFiniteReader.run bytes).mapErr .consensusEncoding
      let leafVersion ← (LeafVersion.fromConsensus version).mapErr fun _ => .invalidLeafVersion
      let builder ← (builder.addLeafWithVer depth script leafVersion).mapErr fun _ =>
        .taproot "Tree not in DFS order"
      readLeaves fuel builder bytes

def tapTree : Format S TapTree where
  serialize tree := writeLeaves tree.nodeInfo.leaves
  deserialize bytes := do
    let builder ← readLeaves bytes.length .new bytes
    builder.tryIntoTaptree.mapErr .tapTree

end Format

/-! ## Raw pairs of fields -/

/-- `impl_psbt_get_pair!`, for a field without a key. -/
def pushField {α : Type} (f : Format S α) (typeValue : UInt8) (field : Option α) :
    Outcome Empty (List Pair) :=
  match field with
  | none => .ok []
  | some v => do
    let value ← f.serialize v
    return [⟨⟨typeValue, []⟩, value⟩]

/-- One turn of the loop of `impl_psbt_get_pair!` over a map. -/
def writeEntry {K V : Type} (fk : Format S K) (fv : Format S V) (typeValue : UInt8) (entry : K × V) :
    Outcome Empty Pair := do
  let key ← fk.serialize entry.1
  let value ← fv.serialize entry.2
  return ⟨⟨typeValue, key⟩, value⟩

/-- `impl_psbt_get_pair!`, for a map. -/
def pushMap {K V : Type} [LinearOrder K] (fk : Format S K) (fv : Format S V) (typeValue : UInt8)
    (map : BTreeMap K V) : Outcome Empty (List Pair) :=
  map.toList.mapM (writeEntry fk fv typeValue)

def writeProprietary (entry : ProprietaryKey × Bytes) : Outcome Empty Pair := do
  let key ← entry.1.toKey
  return ⟨key, entry.2⟩

/-- The loop of `get_pairs` over proprietary keys. -/
def pushProprietary (map : BTreeMap ProprietaryKey Bytes) : Outcome Empty (List Pair) :=
  map.toList.mapM writeProprietary

def writeUnknown (entry : Raw.Key × Bytes) : Outcome Empty Pair := .ok ⟨entry.1, entry.2⟩

/-- The loop of `get_pairs` over unknown keys. -/
def pushUnknown (map : BTreeMap Raw.Key Bytes) : Outcome Empty (List Pair) :=
  map.toList.mapM writeUnknown

/-- `impl_psbt_insert_pair!`, for a field without a key. -/
def insertField {α : Type} (f : Format S α) (field : Option α) (pair : Pair) :
    Outcome (Error S) (Option α) :=
  if pair.key.key = [] then
    if field.isNone then do
      let val ← f.deserialize pair.value
      return some val
    else .err (.duplicateKey pair.key)
  else .err (.invalidKey pair.key)

/-- `entry(key)` of a map: with a value at the key it is an error, else `vacant` is run. -/
def whenVacant {K V ε : Type} [LinearOrder K] (map : BTreeMap K V) (key : K) (occupied : ε)
    (vacant : Outcome ε (BTreeMap K V)) : Outcome ε (BTreeMap K V) :=
  match map[key]? with
  | none => vacant
  | some _ => .err occupied

/-- `impl_psbt_insert_pair!`, for a map. -/
def insertMap {K V : Type} [LinearOrder K] (fk : Format S K) (fv : Format S V) (map : BTreeMap K V)
    (pair : Pair) : Outcome (Error S) (BTreeMap K V) :=
  if pair.key.key ≠ [] then do
    let keyVal ← fk.deserialize pair.key.key
    whenVacant map keyVal (.duplicateKey pair.key) do
      let val ← fv.deserialize pair.value
      return map.insert keyVal val
  else .err (.invalidKey pair.key)

/-- `psbt_insert_hash_pair`. -/
def insertHashPair {n : ℕ} (hashFn : Bytes → U8Array n) (hashType : PsbtHash)
    (map : BTreeMap (U8Array n) Bytes) (pair : Pair) : Outcome (Error S) (BTreeMap (U8Array n) Bytes) :=
  if pair.key.key = [] then .err (.invalidKey pair.key)
  else do
    let keyVal ← (Format.hash n).deserialize pair.key.key
    whenVacant map keyVal (.duplicateKey pair.key) do
      let val ← Format.bytes.deserialize pair.value
      .ensure (hashFn val = keyVal) (.invalidPreimageHashPair hashType val keyVal.toList)
      return map.insert keyVal val

/-- The arm for proprietary keys. -/
def insertProprietary (map : BTreeMap ProprietaryKey Bytes) (pair : Pair) :
    Outcome (Error S) (BTreeMap ProprietaryKey Bytes) := do
  let key ← ProprietaryKey.tryFrom pair.key
  whenVacant map key (.duplicateKey pair.key) (.ok (map.insert key pair.value))

/-- The arm for all other keys. -/
def insertUnknown (map : BTreeMap Key Bytes) (pair : Pair) : Outcome (Error S) (BTreeMap Key Bytes) :=
  whenVacant map pair.key (.duplicateKey pair.key) (.ok (map.insert pair.key pair.value))

/-! ## Maps -/

/-- The pairs of all fields, one field after the other. -/
def concatPairs : List (Outcome Empty (List Pair)) → Outcome Empty (List Pair)
  | [] => .ok []
  | field :: fields => do
    let pairs ← field
    let rest ← concatPairs fields
    return pairs ++ rest

/-- `Map::serialize_map`. -/
def serializeMap {M : Type} (getPairs : M → Outcome Empty (List Pair)) : Encoder M := fun m => do
  let pairs ← getPairs m
  let buf ← Encoder.list Pair.serialize pairs
  return buf ++ .ofBytes [0x00]

/-- The next pair, or none after the zero byte that ends a map. -/
def nextPair : Decoder (Error S) (Option Pair) := fun r =>
  match Pair.decode.run r with
  | .ok (pair, r) => .ok (some pair, r)
  | .err .noMorePairs => .ok (none, r.drop 1)
  | .err e => .err e
  | .panic p => .panic p

/-- The loop of `impl_psbtmap_decoding!` and of `decode_global`; every turn takes a pair off. -/
def decodePairs {M : Type} (insertPair : M → Pair → Outcome (Error S) M) : ℕ → M → Decoder (Error S) M
  | 0, rv => return rv
  | fuel + 1, rv => do
    match ← nextPair with
    | some pair =>
      let rv ← Decoder.ofOutcome (insertPair rv pair)
      decodePairs insertPair fuel rv
    | none => return rv

/-- `decode` of `impl_psbtmap_decoding!`. -/
def decodeMap {M : Type} (insertPair : M → Pair → Outcome (Error S) M) (rv : M) : Decoder (Error S) M :=
  fun r => (decodePairs insertPair (r.length + 1) rv).run r

/-! ## Input maps -/

def PSBT_IN_NON_WITNESS_UTXO : UInt8 := 0x00
def PSBT_IN_WITNESS_UTXO : UInt8 := 0x01
def PSBT_IN_PARTIAL_SIG : UInt8 := 0x02
def PSBT_IN_SIGHASH_TYPE : UInt8 := 0x03
def PSBT_IN_REDEEM_SCRIPT : UInt8 := 0x04
def PSBT_IN_WITNESS_SCRIPT : UInt8 := 0x05
def PSBT_IN_BIP32_DERIVATION : UInt8 := 0x06
def PSBT_IN_FINAL_SCRIPTSIG : UInt8 := 0x07
def PSBT_IN_FINAL_SCRIPTWITNESS : UInt8 := 0x08
def PSBT_IN_RIPEMD160 : UInt8 := 0x0a
def PSBT_IN_SHA256 : UInt8 := 0x0b
def PSBT_IN_HASH160 : UInt8 := 0x0c
def PSBT_IN_HASH256 : UInt8 := 0x0d
def PSBT_IN_TAP_KEY_SIG : UInt8 := 0x13
def PSBT_IN_TAP_SCRIPT_SIG : UInt8 := 0x14
def PSBT_IN_TAP_LEAF_SCRIPT : UInt8 := 0x15
def PSBT_IN_TAP_BIP32_DERIVATION : UInt8 := 0x16
def PSBT_IN_TAP_INTERNAL_KEY : UInt8 := 0x17
def PSBT_IN_TAP_MERKLE_ROOT : UInt8 := 0x18
def PSBT_IN_PROPRIETARY : UInt8 := 0xFC

namespace Input

/-- `Input::get_pairs`. -/
def getPairs (m : Input S) : Outcome Empty (List Pair) := concatPairs [
  pushField (S := S) .transaction PSBT_IN_NON_WITNESS_UTXO m.nonWitnessUtxo,
  pushField (S := S) .txOut PSBT_IN_WITNESS_UTXO m.witnessUtxo,
  pushMap (S := S) .publicKey .ecdsaSignature PSBT_IN_PARTIAL_SIG m.partialSigs,
  pushField (S := S) .psbtSighashType PSBT_IN_SIGHASH_TYPE m.sighashType,
  pushField (S := S) .bytes PSBT_IN_REDEEM_SCRIPT m.redeemScript,
  pushField (S := S) .bytes PSBT_IN_WITNESS_SCRIPT m.witnessScript,
  pushMap (S := S) .secp256k1PublicKey .keySource PSBT_IN_BIP32_DERIVATION m.bip32Derivation,
  pushField (S := S) .bytes PSBT_IN_FINAL_SCRIPTSIG m.finalScriptSig,
  pushField (S := S) .witness PSBT_IN_FINAL_SCRIPTWITNESS m.finalScriptWitness,
  pushMap (S := S) (.hash 20) .bytes PSBT_IN_RIPEMD160 m.ripemd160Preimages,
  pushMap (S := S) (.hash 32) .bytes PSBT_IN_SHA256 m.sha256Preimages,
  pushMap (S := S) (.hash 20) .bytes PSBT_IN_HASH160 m.hash160Preimages,
  pushMap (S := S) (.hash 32) .bytes PSBT_IN_HASH256 m.hash256Preimages,
  pushField (S := S) .taprootSignature PSBT_IN_TAP_KEY_SIG m.tapKeySig,
  pushMap (S := S) .tapScriptSigKey .taprootSignature PSBT_IN_TAP_SCRIPT_SIG m.tapScriptSigs,
  pushMap (S := S) .controlBlock .versionedScript PSBT_IN_TAP_LEAF_SCRIPT m.tapScripts,
  pushMap (S := S) .xOnlyPublicKey .tapKeyOrigin PSBT_IN_TAP_BIP32_DERIVATION m.tapKeyOrigins,
  pushField (S := S) .xOnlyPublicKey PSBT_IN_TAP_INTERNAL_KEY m.tapInternalKey,
  pushField (S := S) (.hash 32) PSBT_IN_TAP_MERKLE_ROOT m.tapMerkleRoot,
  pushProprietary m.proprietary,
  pushUnknown m.unknown]

/-- `Input::insert_pair`. -/
def insertPair (m : Input S) (pair : Pair) : Outcome (Error S) (Input S) :=
  if pair.key.typeValue = PSBT_IN_NON_WITNESS_UTXO then
    ({ m with nonWitnessUtxo := · }) <$> insertField .transaction m.nonWitnessUtxo pair
  else if pair.key.typeValue = PSBT_IN_WITNESS_UTXO then
    ({ m with witnessUtxo := · }) <$> insertField .txOut m.witnessUtxo pair
  else if pair.key.typeValue = PSBT_IN_PARTIAL_SIG then
    ({ m with partialSigs := · }) <$> insertMap .publicKey .ecdsaSignature m.partialSigs pair
  else if pair.key.typeValue = PSBT_IN_SIGHASH_TYPE then
    ({ m with sighashType := · }) <$> insertField .psbtSighashType m.sighashType pair
  else if pair.key.typeValue = PSBT_IN_REDEEM_SCRIPT then
    ({ m with redeemScript := · }) <$> insertField .bytes m.redeemScript pair
  else if pair.key.typeValue = PSBT_IN_WITNESS_SCRIPT then
    ({ m with witnessScript := · }) <$> insertField .bytes m.witnessScript pair
  else if pair.key.typeValue = PSBT_IN_BIP32_DERIVATION then
    ({ m with bip32Derivation := · }) <$> insertMap .secp256k1PublicKey .keySource m.bip32Derivation pair
  else if pair.key.typeValue = PSBT_IN_FINAL_SCRIPTSIG then
    ({ m with finalScriptSig := · }) <$> insertField .bytes m.finalScriptSig pair
  else if pair.key.typeValue = PSBT_IN_FINAL_SCRIPTWITNESS then
    ({ m with finalScriptWitness := · }) <$> insertField .witness m.finalScriptWitness pair
  else if pair.key.typeValue = PSBT_IN_RIPEMD160 then
    ({ m with ripemd160Preimages := · }) <$> insertHashPair Ripemd160.hash .ripemd m.ripemd160Preimages pair
  else if pair.key.typeValue = PSBT_IN_SHA256 then
    ({ m with sha256Preimages := · }) <$> insertHashPair Sha256.hash .sha256 m.sha256Preimages pair
  else if pair.key.typeValue = PSBT_IN_HASH160 then
    ({ m with hash160Preimages := · }) <$> insertHashPair Hash160.hash .hash160 m.hash160Preimages pair
  else if pair.key.typeValue = PSBT_IN_HASH256 then
    ({ m with hash256Preimages := · }) <$> insertHashPair Sha256d.hash .hash256 m.hash256Preimages pair
  else if pair.key.typeValue = PSBT_IN_TAP_KEY_SIG then
    ({ m with tapKeySig := · }) <$> insertField .taprootSignature m.tapKeySig pair
  else if pair.key.typeValue = PSBT_IN_TAP_SCRIPT_SIG then
    ({ m with tapScriptSigs := · }) <$> insertMap .tapScriptSigKey .taprootSignature m.tapScriptSigs pair
  else if pair.key.typeValue = PSBT_IN_TAP_LEAF_SCRIPT then
    ({ m with tapScripts := · }) <$> insertMap .controlBlock .versionedScript m.tapScripts pair
  else if pair.key.typeValue = PSBT_IN_TAP_BIP32_DERIVATION then
    ({ m with tapKeyOrigins := · }) <$> insertMap .xOnlyPublicKey .tapKeyOrigin m.tapKeyOrigins pair
  else if pair.key.typeValue = PSBT_IN_TAP_INTERNAL_KEY then
    ({ m with tapInternalKey := · }) <$> insertField .xOnlyPublicKey m.tapInternalKey pair
  else if pair.key.typeValue = PSBT_IN_TAP_MERKLE_ROOT then
    ({ m with tapMerkleRoot := · }) <$> insertField (.hash 32) m.tapMerkleRoot pair
  else if pair.key.typeValue = PSBT_IN_PROPRIETARY then
    ({ m with proprietary := · }) <$> insertProprietary m.proprietary pair
  else
    ({ m with unknown := · }) <$> insertUnknown m.unknown pair

/-- `Input::decode`. -/
def decode : Decoder (Error S) (Input S) := decodeMap insertPair {}

end Input

/-! ## Output maps -/

def PSBT_OUT_REDEEM_SCRIPT : UInt8 := 0x00
def PSBT_OUT_WITNESS_SCRIPT : UInt8 := 0x01
def PSBT_OUT_BIP32_DERIVATION : UInt8 := 0x02
def PSBT_OUT_TAP_INTERNAL_KEY : UInt8 := 0x05
def PSBT_OUT_TAP_TREE : UInt8 := 0x06
def PSBT_OUT_TAP_BIP32_DERIVATION : UInt8 := 0x07
def PSBT_OUT_PROPRIETARY : UInt8 := 0xFC

namespace Output

/-- `Output::get_pairs`. -/
def getPairs (m : Output S) : Outcome Empty (List Pair) := concatPairs [
  pushField (S := S) .bytes PSBT_OUT_REDEEM_SCRIPT m.redeemScript,
  pushField (S := S) .bytes PSBT_OUT_WITNESS_SCRIPT m.witnessScript,
  pushMap (S := S) .secp256k1PublicKey .keySource PSBT_OUT_BIP32_DERIVATION m.bip32Derivation,
  pushField (S := S) .xOnlyPublicKey PSBT_OUT_TAP_INTERNAL_KEY m.tapInternalKey,
  pushField (S := S) .tapTree PSBT_OUT_TAP_TREE m.tapTree,
  pushMap (S := S) .xOnlyPublicKey .tapKeyOrigin PSBT_OUT_TAP_BIP32_DERIVATION m.tapKeyOrigins,
  pushProprietary m.proprietary,
  pushUnknown m.unknown]

/-- `Output::insert_pair`. -/
def insertPair (m : Output S) (pair : Pair) : Outcome (Error S) (Output S) :=
  if pair.key.typeValue = PSBT_OUT_REDEEM_SCRIPT then
    ({ m with redeemScript := · }) <$> insertField .bytes m.redeemScript pair
  else if pair.key.typeValue = PSBT_OUT_WITNESS_SCRIPT then
    ({ m with witnessScript := · }) <$> insertField .bytes m.witnessScript pair
  else if pair.key.typeValue = PSBT_OUT_BIP32_DERIVATION then
    ({ m with bip32Derivation := · }) <$> insertMap .secp256k1PublicKey .keySource m.bip32Derivation pair
  else if pair.key.typeValue = PSBT_OUT_PROPRIETARY then
    ({ m with proprietary := · }) <$> insertProprietary m.proprietary pair
  else if pair.key.typeValue = PSBT_OUT_TAP_INTERNAL_KEY then
    ({ m with tapInternalKey := · }) <$> insertField .xOnlyPublicKey m.tapInternalKey pair
  else if pair.key.typeValue = PSBT_OUT_TAP_TREE then
    ({ m with tapTree := · }) <$> insertField .tapTree m.tapTree pair
  else if pair.key.typeValue = PSBT_OUT_TAP_BIP32_DERIVATION then
    ({ m with tapKeyOrigins := · }) <$> insertMap .xOnlyPublicKey .tapKeyOrigin m.tapKeyOrigins pair
  else
    ({ m with unknown := · }) <$> insertUnknown m.unknown pair

/-- `Output::decode`. -/
def decode : Decoder (Error S) (Output S) := decodeMap insertPair {}

end Output

/-! ## The global map -/

def PSBT_GLOBAL_UNSIGNED_TX : UInt8 := 0x00
def PSBT_GLOBAL_XPUB : UInt8 := 0x01
def PSBT_GLOBAL_VERSION : UInt8 := 0xFB
def PSBT_GLOBAL_PROPRIETARY : UInt8 := 0xFC

/-- The unsigned transaction, always without the segwit marker. -/
def Format.unsignedTx : Format S Transaction where
  serialize tx := do
    let version ← i32.consensusEncode tx.version
    let input ← (vec TxIn.codec).consensusEncode tx.input
    let output ← (vec TxOut.codec).consensusEncode tx.output
    let lockTime ← LockTime.codec.consensusEncode tx.lockTime
    return (version ++ input ++ output ++ lockTime).bytes
  deserialize value := do
    let (version, decoder) ← (i32.consensusDecode.run value).mapErr .consensusEncoding
    let (input, decoder) ← ((vec TxIn.codec).consensusDecode.run decoder).mapErr .consensusEncoding
    let (output, decoder) ← ((vec TxOut.codec).consensusDecode.run decoder).mapErr .consensusEncoding
    let (lockTime, decoder) ← (LockTime.codec.consensusDecode.run decoder).mapErr .consensusEncoding
    .ensure (decoder = []) .partialDataConsumption
    return ⟨version, lockTime, input, output⟩

def Format.globalVersion : Format S UInt32 where
  serialize version := .ok (leBytes 4 version.toNat)
  deserialize value := do
    .ensure (value.length = 4) (.version "invalid global version value length (must be 4 bytes)")
    let (version, _) ← (u32.consensusDecode.run value).mapErr .consensusEncoding
    .ensure (version = 0) (.version "PSBT versions greater than 0 are not supported")
    return version

def writeXpub (entry : Bip32.Xpub S.toSecp256k1 × KeySource) : Outcome Empty Pair :=
  .ok ⟨⟨PSBT_GLOBAL_XPUB, entry.1.encode⟩, entry.2.1.toList ++ Format.pathBytes entry.2.2⟩

/-- The loop of `get_pairs` over extended public keys. -/
def pushXpub (map : BTreeMap (Bip32.Xpub S.toSecp256k1) KeySource) : Outcome Empty (List Pair) :=
  map.toList.mapM writeXpub

/-- The derivation path of an extended public key, as far as numbers can be read; every turn takes four
bytes off. -/
def readIndexes : ℕ → Bytes → List Bip32.ChildNumber
  | 0, _ => []
  | fuel + 1, decoder =>
    match u32.consensusDecode.run decoder with
    | .ok (index, decoder) => .ofU32 index :: readIndexes fuel decoder
    | _ => []

/-- The arm of `decode_global` for extended public keys. -/
def insertXpub (map : BTreeMap (Bip32.Xpub S.toSecp256k1) KeySource) (pair : Pair) :
    Outcome (Error S) (BTreeMap (Bip32.Xpub S.toSecp256k1) KeySource) :=
  if pair.key.key ≠ [] then do
    let xpub ← (Bip32.Xpub.decode pair.key.key).mapErr fun _ =>
      .xPubKey "Can't deserialize ExtendedPublicKey from global XPUB key data"
    .ensure (pair.value ≠ [] ∧ pair.value.length % 4 = 0)
      (.xPubKey "Incorrect length of global xpub derivation data")
    if h : (pair.value.take 4).length = 4 then
      let derivation := readIndexes pair.value.length (pair.value.drop 4)
      whenVacant map xpub (.xPubKey "Repeated global xpub key")
        (.ok (map.insert xpub (⟨pair.value.take 4, h⟩, derivation)))
    else .err (.xPubKey "Can't read global xpub fingerprint")
  else .err (.xPubKey "Xpub global key must contain serialized Xpub data")

/-- `Psbt::get_pairs`. -/
def getPairs (p : Psbt S) : Outcome Empty (List Pair) := concatPairs [
  pushField (S := S) .unsignedTx PSBT_GLOBAL_UNSIGNED_TX (some p.unsignedTx),
  pushXpub p.xpub,
  pushField (S := S) .globalVersion PSBT_GLOBAL_VERSION (if 0 < p.version then some p.version else none),
  pushProprietary p.proprietary,
  pushUnknown p.unknown]

/-- What `decode_global` has read so far. -/
structure Global (S : KeyFormats) where
  tx : Option Transaction := none
  version : Option UInt32 := none
  unknowns : BTreeMap Raw.Key Bytes := ∅
  xpubMap : BTreeMap (Bip32.Xpub S.toSecp256k1) KeySource := ∅
  proprietary : BTreeMap ProprietaryKey Bytes := ∅

/-- What `decode_global` does with a pair. -/
def Global.insertPair (g : Global S) (pair : Pair) : Outcome (Error S) (Global S) :=
  if pair.key.typeValue = PSBT_GLOBAL_UNSIGNED_TX then
    ({ g with tx := · }) <$> insertField .unsignedTx g.tx pair
  else if pair.key.typeValue = PSBT_GLOBAL_XPUB then
    ({ g with xpubMap := · }) <$> insertXpub g.xpubMap pair
  else if pair.key.typeValue = PSBT_GLOBAL_VERSION then
    ({ g with version := · }) <$> insertField .globalVersion g.version pair
  else if pair.key.typeValue = PSBT_GLOBAL_PROPRIETARY then
    ({ g with proprietary := · }) <$> insertProprietary g.proprietary pair
  else
    ({ g with unknowns := · }) <$> insertUnknown g.unknowns pair

/-- `Psbt::decode_global`. -/
def decodeGlobal : Decoder (Error S) (Psbt S) := do
  let g ← (decodeMap Global.insertPair {}).limit MAX_VEC_SIZE
  match g.tx with
  | some tx => return {
      unsignedTx := tx
      version := g.version.getD 0
      xpub := g.xpubMap
      proprietary := g.proprietary
      unknown := g.unknowns }
  | none => Decoder.fail .mustHaveUnsignedTx

/-! ## The whole format -/

def MAGIC_BYTES : U8Array 4 := ⟨[0x70, 0x73, 0x62, 0x74], rfl⟩

def PSBT_SERPARATOR : UInt8 := 0xff

/-- `Psbt::serialize_to_writer`. -/
def serializeToWriter : Encoder (Psbt S) := fun p => do
  let global ← serializeMap getPairs p
  let inputs ← (serializeMap Input.getPairs).list p.inputs
  let outputs ← (serializeMap Output.getPairs).list p.outputs
  return .ofBytes MAGIC_BYTES.toList ++ (.ofBytes [PSBT_SERPARATOR] ++ (global ++ (inputs ++ outputs)))

/-- `Psbt::serialize`. -/
def serialize (p : Psbt S) : Outcome Empty Bytes := Written.bytes <$> serializeToWriter p

/-- `Psbt::unsigned_tx_checks`. -/
def unsignedTxChecks (p : Psbt S) : Outcome (Error S) Unit :=
  forM p.unsignedTx.input fun txin => do
    .ensure (txin.scriptSig = []) .unsignedTxHasScriptSigs
    .ensure (txin.witness.isEmpty = true) .unsignedTxHasScriptWitnesses

/-- `Psbt::deserialize_from_reader`. -/
def deserializeFromReader : Decoder (Error S) (Psbt S) := do
  let magic ← (u8Array 4).consensusDecode.mapErr .consensusEncoding
  Decoder.ensure (magic = MAGIC_BYTES) .invalidMagic
  let separator ← u8.consensusDecode.mapErr .consensusEncoding
  Decoder.ensure (separator = PSBT_SERPARATOR) .invalidSeparator
  let global ← decodeGlobal
  Decoder.ofOutcome global.unsignedTxChecks
  let inputs ← Input.decode.times global.unsignedTx.input.length
  let outputs ← Output.decode.times global.unsignedTx.output.length
  return { global with inputs := inputs, outputs := outputs }

/-- `Psbt::deserialize`. -/
def deserialize (bytes : Bytes) : Outcome (Error S) (Psbt S) :=
  Prod.fst <$> deserializeFromReader.run bytes

end Psbt

end RustDogecoin
