import RustDogecoin.Psbt.Raw

/-!
# The maps of a partially signed transaction

`psbt/mod.rs` and `psbt/map/`: the fields of the global map, the input maps and the output maps.

A map is seen through its keys as well: `Input.Key` lists the keys an input map can have, and `Input.get`
is the value at a key, if there is one; likewise for outputs and for the global map.  Maps with the same
values at all keys are equal (`Input.ext_get`, `Output.ext_get`).
-/

namespace RustDogecoin

/-- `bip32::KeySource`. -/
abbrev KeySource := Bip32.Fingerprint × List Bip32.ChildNumber

namespace Psbt

open Taproot

/-- `PsbtSighashType`. -/
structure PsbtSighashType where
  inner : UInt32
  deriving DecidableEq, Repr

/-- `psbt::Input`. -/
structure Input (S : KeyFormats) where
  nonWitnessUtxo : Option Transaction := none
  witnessUtxo : Option TxOut := none
  partialSigs : BTreeMap (PublicKey S) (Ecdsa.Signature S) := ∅
  sighashType : Option PsbtSighashType := none
  redeemScript : Option ScriptBuf := none
  witnessScript : Option ScriptBuf := none
  bip32Derivation : BTreeMap S.PublicKey KeySource := ∅
  finalScriptSig : Option ScriptBuf := none
  finalScriptWitness : Option Witness := none
  ripemd160Preimages : BTreeMap (U8Array 20) Bytes := ∅
  sha256Preimages : BTreeMap (U8Array 32) Bytes := ∅
  hash160Preimages : BTreeMap (U8Array 20) Bytes := ∅
  hash256Preimages : BTreeMap (U8Array 32) Bytes := ∅
  tapKeySig : Option (Taproot.Signature S) := none
  tapScriptSigs : BTreeMap (S.XOnlyPublicKey ×ₗ U8Array 32) (Taproot.Signature S) := ∅
  tapScripts : BTreeMap (ControlBlock S) (ScriptBuf × LeafVersion) := ∅
  tapKeyOrigins : BTreeMap S.XOnlyPublicKey (List (U8Array 32) × KeySource) := ∅
  tapInternalKey : Option S.XOnlyPublicKey := none
  tapMerkleRoot : Option TapNodeHash := none
  proprietary : BTreeMap Raw.ProprietaryKey Bytes := ∅
  unknown : BTreeMap Raw.Key Bytes := ∅

/-- `psbt::Output`. -/
structure Output (S : KeyFormats) where
  redeemScript : Option ScriptBuf := none
  witnessScript : Option ScriptBuf := none
  bip32Derivation : BTreeMap S.PublicKey KeySource := ∅
  tapInternalKey : Option S.XOnlyPublicKey := none
  tapTree : Option TapTree := none
  tapKeyOrigins : BTreeMap S.XOnlyPublicKey (List (U8Array 32) × KeySource) := ∅
  proprietary : BTreeMap Raw.ProprietaryKey Bytes := ∅
  unknown : BTreeMap Raw.Key Bytes := ∅

end Psbt

/-- `psbt::Psbt`. -/
structure Psbt (S : KeyFormats) where
  unsignedTx : Transaction
  version : UInt32 := 0
  xpub : BTreeMap (Bip32.Xpub S.toSecp256k1) KeySource := ∅
  proprietary : BTreeMap Psbt.Raw.ProprietaryKey Bytes := ∅
  unknown : BTreeMap Psbt.Raw.Key Bytes := ∅
  inputs : List (Psbt.Input S) := []
  outputs : List (Psbt.Output S) := []

namespace Psbt

open Taproot

variable {S : KeyFormats}

/-! ## Keys -/

namespace Input

variable (S) in
/-- The keys of an input map. -/
inductive Key where
  | nonWitnessUtxo
  | witnessUtxo
  | partialSig (key : PublicKey S)
  | sighashType
  | redeemScript
  | witnessScript
  | bip32Derivation (key : S.PublicKey)
  | finalScriptSig
  | finalScriptWitness
  | ripemd160 (hash : U8Array 20)
  | sha256 (hash : U8Array 32)
  | hash160 (hash : U8Array 20)
  | hash256 (hash : U8Array 32)
  | tapKeySig
  | tapScriptSig (key : S.XOnlyPublicKey ×ₗ U8Array 32)
  | tapLeafScript (key : ControlBlock S)
  | tapBip32Derivation (key : S.XOnlyPublicKey)
  | tapInternalKey
  | tapMerkleRoot
  | proprietary (key : Raw.ProprietaryKey)
  | unknown (key : Raw.Key)

/-- The type of the values at a key. -/
def Key.Value : Key S → Type
  | nonWitnessUtxo => Transaction
  | witnessUtxo => TxOut
  | partialSig _ => Ecdsa.Signature S
  | sighashType => PsbtSighashType
  | redeemScript | witnessScript | finalScriptSig => ScriptBuf
  | bip32Derivation _ => KeySource
  | finalScriptWitness => Witness
  | ripemd160 _ | sha256 _ | hash160 _ | hash256 _ => Bytes
  | tapKeySig | tapScriptSig _ => Taproot.Signature S
  | tapLeafScript _ => ScriptBuf × LeafVersion
  | tapBip32Derivation _ => List (U8Array 32) × KeySource
  | tapInternalKey => S.XOnlyPublicKey
  | tapMerkleRoot => TapNodeHash
  | proprietary _ | unknown _ => Bytes

/-- The value of the map at a key. -/
def get (m : Input S) : (k : Key S) → Option k.Value
  | .nonWitnessUtxo => m.nonWitnessUtxo
  | .witnessUtxo => m.witnessUtxo
  | .partialSig k => m.partialSigs[k]?
  | .sighashType => m.sighashType
  | .redeemScript => m.redeemScript
  | .witnessScript => m.witnessScript
  | .bip32Derivation k => m.bip32Derivation[k]?
  | .finalScriptSig => m.finalScriptSig
  | .finalScriptWitness => m.finalScriptWitness
  | .ripemd160 h => m.ripemd160Preimages[h]?
  | .sha256 h => m.sha256Preimages[h]?
  | .hash160 h => m.hash160Preimages[h]?
  | .hash256 h => m.hash256Preimages[h]?
  | .tapKeySig => m.tapKeySig
  | .tapScriptSig k => m.tapScriptSigs[k]?
  | .tapLeafScript k => m.tapScripts[k]?
  | .tapBip32Derivation k => m.tapKeyOrigins[k]?
  | .tapInternalKey => m.tapInternalKey
  | .tapMerkleRoot => m.tapMerkleRoot
  | .proprietary k => m.proprietary[k]?
  | .unknown k => m.unknown[k]?

theorem ext_get {m m' : Input S} (h : ∀ k, m.get k = m'.get k) : m = m' := by
  have hpartialSigs : m.partialSigs = m'.partialSigs := BTreeMap.ext fun k => h (.partialSig k)
  have hbip32 : m.bip32Derivation = m'.bip32Derivation := BTreeMap.ext fun k => h (.bip32Derivation k)
  have hripemd160 : m.ripemd160Preimages = m'.ripemd160Preimages := BTreeMap.ext fun k => h (.ripemd160 k)
  have hsha256 : m.sha256Preimages = m'.sha256Preimages := BTreeMap.ext fun k => h (.sha256 k)
  have hhash160 : m.hash160Preimages = m'.hash160Preimages := BTreeMap.ext fun k => h (.hash160 k)
  have hhash256 : m.hash256Preimages = m'.hash256Preimages := BTreeMap.ext fun k => h (.hash256 k)
  have htapScriptSigs : m.tapScriptSigs = m'.tapScriptSigs := BTreeMap.ext fun k => h (.tapScriptSig k)
  have htapScripts : m.tapScripts = m'.tapScripts := BTreeMap.ext fun k => h (.tapLeafScript k)
  have htapKeyOrigins : m.tapKeyOrigins = m'.tapKeyOrigins := BTreeMap.ext fun k => h (.tapBip32Derivation k)
  have hproprietary : m.proprietary = m'.proprietary := BTreeMap.ext fun k => h (.proprietary k)
  have hunknown : m.unknown = m'.unknown := BTreeMap.ext fun k => h (.unknown k)
  have hnonWitnessUtxo := h .nonWitnessUtxo
  have hwitnessUtxo := h .witnessUtxo
  have hsighashType := h .sighashType
  have hredeemScript := h .redeemScript
  have hwitnessScript := h .witnessScript
  have hfinalScriptSig := h .finalScriptSig
  have hfinalScriptWitness := h .finalScriptWitness
  have htapKeySig := h .tapKeySig
  have htapInternalKey := h .tapInternalKey
  have htapMerkleRoot := h .tapMerkleRoot
  cases m
  cases m'
  simp only [get] at *
  simp only [*]

@[simp] theorem get_empty (k : Key S) : ({} : Input S).get k = none := by
  cases k <;> rfl

end Input

namespace Output

variable (S) in
/-- The keys of an output map. -/
inductive Key where
  | redeemScript
  | witnessScript
  | bip32Derivation (key : S.PublicKey)
  | tapInternalKey
  | tapTree
  | tapBip32Derivation (key : S.XOnlyPublicKey)
  | proprietary (key : Raw.ProprietaryKey)
  | unknown (key : Raw.Key)

/-- The type of the values at a key. -/
def Key.Value : Key S → Type
  | redeemScript | witnessScript => ScriptBuf
  | bip32Derivation _ => KeySource
  | tapInternalKey => S.XOnlyPublicKey
  | tapTree => TapTree
  | tapBip32Derivation _ => List (U8Array 32) × KeySource
  | proprietary _ | unknown _ => Bytes

/-- The value of the map at a key. -/
def get (m : Output S) : (k : Key S) → Option k.Value
  | .redeemScript => m.redeemScript
  | .witnessScript => m.witnessScript
  | .bip32Derivation k => m.bip32Derivation[k]?
  | .tapInternalKey => m.tapInternalKey
  | .tapTree => m.tapTree
  | .tapBip32Derivation k => m.tapKeyOrigins[k]?
  | .proprietary k => m.proprietary[k]?
  | .unknown k => m.unknown[k]?

theorem ext_get {m m' : Output S} (h : ∀ k, m.get k = m'.get k) : m = m' := by
  have hbip32 : m.bip32Derivation = m'.bip32Derivation := BTreeMap.ext fun k => h (.bip32Derivation k)
  have htapKeyOrigins : m.tapKeyOrigins = m'.tapKeyOrigins := BTreeMap.ext fun k => h (.tapBip32Derivation k)
  have hproprietary : m.proprietary = m'.proprietary := BTreeMap.ext fun k => h (.proprietary k)
  have hunknown : m.unknown = m'.unknown := BTreeMap.ext fun k => h (.unknown k)
  have hredeemScript := h .redeemScript
  have hwitnessScript := h .witnessScript
  have htapInternalKey := h .tapInternalKey
  have htapTree := h .tapTree
  cases m
  cases m'
  simp only [get] at *
  simp only [*]

@[simp] theorem get_empty (k : Key S) : ({} : Output S).get k = none := by
  cases k <;> rfl

end Output

variable (S) in
/-- The keys of the global map. -/
inductive GlobalKey where
  | unsignedTx
  | xpub (key : Bip32.Xpub S.toSecp256k1)
  | version
  | proprietary (key : Raw.ProprietaryKey)
  | unknown (key : Raw.Key)

/-- The type of the values at a key. -/
def GlobalKey.Value : GlobalKey S → Type
  | unsignedTx => Transaction
  | xpub _ => KeySource
  | version => UInt32
  | proprietary _ | unknown _ => Bytes

/-- The value of the global map at a key; a version of zero is not written. -/
def get (p : Psbt S) : (k : GlobalKey S) → Option k.Value
  | .unsignedTx => some p.unsignedTx
  | .xpub k => p.xpub[k]?
  | .version => if 0 < p.version then some p.version else none
  | .proprietary k => p.proprietary[k]?
  | .unknown k => p.unknown[k]?

/-- The value of an input map at a key. -/
def inputGet (p : Psbt S) (i : ℕ) (k : Input.Key S) : Option k.Value := p.inputs[i]?.bind fun m => m.get k

/-- The value of an output map at a key. -/
def outputGet (p : Psbt S) (i : ℕ) (k : Output.Key S) : Option k.Value := p.outputs[i]?.bind fun m => m.get k

end Psbt

end RustDogecoin
