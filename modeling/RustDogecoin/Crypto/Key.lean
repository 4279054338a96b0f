import RustDogecoin.Crypto.Secp256k1
import RustDogecoin.Lib.BTreeMap

/-!
# Formats of keys and signatures

`crypto/key.rs`, `crypto/ecdsa.rs` and `crypto/taproot.rs`: the byte forms of public keys and of signatures
with their sighash types.  Points and signatures are read and written by the `secp256k1` crate:
`KeyFormats` is what is used of it, and `KeyFormats.Lawful` says that its parsers invert its serialisers.
-/

namespace RustDogecoin

instance {n : ℕ} : LinearOrder (U8Array n) :=
  LinearOrder.lift' (fun a => a.toList.rank) fun _ _ h => U8Array.ext (Bytes.rank_injective h)

/-- Keys and signatures with their byte forms, as the `secp256k1` crate offers them. -/
structure KeyFormats extends Secp256k1 where
  XOnlyPublicKey : Type
  EcdsaSignature : Type
  SchnorrSignature : Type
  publicKeyOrder : LinearOrder PublicKey
  xOnlyPublicKeyOrder : LinearOrder XOnlyPublicKey
  /-- `PublicKey::from_slice`. -/
  publicKeyFromSlice : Bytes → Except Error PublicKey
  /-- `PublicKey::serialize_uncompressed`. -/
  serializeUncompressed : PublicKey → U8Array 65
  /-- `XOnlyPublicKey::from_slice`. -/
  xOnlyFromSlice : Bytes → Except Error XOnlyPublicKey
  /-- `XOnlyPublicKey::serialize`. -/
  xOnlySerialize : XOnlyPublicKey → U8Array 32
  /-- `ecdsa::Signature::from_der`. -/
  fromDer : Bytes → Except Error EcdsaSignature
  /-- `ecdsa::Signature::serialize_der`; the serialised form is kept in an array of 72 bytes. -/
  serializeDer : EcdsaSignature → { bs : Bytes // bs.length ≤ 72 }
  /-- `schnorr::Signature::from_slice`. -/
  schnorrFromSlice : Bytes → Except Error SchnorrSignature
  /-- `schnorr::Signature::as_ref`. -/
  schnorrBytes : SchnorrSignature → U8Array 64

namespace KeyFormats

instance (S : KeyFormats) : LinearOrder S.PublicKey := S.publicKeyOrder

instance (S : KeyFormats) : LinearOrder S.XOnlyPublicKey := S.xOnlyPublicKeyOrder

/-! The comparisons of the keys that maps are ordered by. -/

instance (S : KeyFormats) : Std.TransCmp (compare : S.PublicKey → S.PublicKey → Ordering) :=
  BTreeMap.transCmp

instance (S : KeyFormats) : Std.TransCmp (compare : S.XOnlyPublicKey → S.XOnlyPublicKey → Ordering) :=
  BTreeMap.transCmp

instance (S : KeyFormats) : Std.TransOrd (S.XOnlyPublicKey ×ₗ U8Array 32) := BTreeMap.transCmp

/-- Parsing inverts serialisation. -/
structure Lawful (S : KeyFormats) : Prop where
  publicKey : ∀ k, S.publicKeyFromSlice (S.serialize k).toList = .ok k
  uncompressed : ∀ k, S.publicKeyFromSlice (S.serializeUncompressed k).toList = .ok k
  head_uncompressed : ∀ k, (S.serializeUncompressed k).toList.head? = some 0x04
  xOnly : ∀ k, S.xOnlyFromSlice (S.xOnlySerialize k).toList = .ok k
  ecdsa : ∀ s, S.fromDer (S.serializeDer s).1 = .ok s
  schnorr : ∀ s, S.schnorrFromSlice (S.schnorrBytes s).toList = .ok s

end KeyFormats

variable (S : KeyFormats)

/-! ## Public keys -/

/-- `key::FromSliceError`. -/
inductive FromSliceError where
  | invalidKeyPrefix (b : UInt8)
  | secp256k1 (e : S.Error)
  | invalidLength (len : ℕ)

/-- `bitcoin::PublicKey`. -/
structure PublicKey where
  compressed : Bool
  inner : S.PublicKey

variable {S}

instance : LinearOrder (PublicKey S) :=
  LinearOrder.lift' (fun k => toLex (k.compressed, k.inner)) fun k k' h => by
    cases k
    cases k'
    cases h
    rfl

instance : Std.TransCmp (compare : PublicKey S → PublicKey S → Ordering) := BTreeMap.transCmp

namespace PublicKey

/-- What `write_into` writes. -/
def toBytes (k : PublicKey S) : Bytes :=
  if k.compressed then (S.serialize k.inner).toList else (S.serializeUncompressed k.inner).toList

/-- `PublicKey::from_slice`. -/
def fromSlice (data : Bytes) : Outcome (FromSliceError S) (PublicKey S) := do
  let compressed ← match data.length with
    | 33 => .ok true
    | 65 => .ok false
    | len => .err (.invalidLength len)
  .ensure (compressed = true ∨ data.head? = some 0x04) (.invalidKeyPrefix (data.headD 0))
  let inner ← (Outcome.ofExcept (S.publicKeyFromSlice data)).mapErr .secp256k1
  return ⟨compressed, inner⟩

theorem fromSlice_toBytes (hS : S.Lawful) (k : PublicKey S) : fromSlice k.toBytes = .ok k := by
  obtain ⟨compressed, inner⟩ := k
  cases compressed with
  | true => simp [fromSlice, toBytes, hS.publicKey, Outcome.ensure]
  | false => simp [fromSlice, toBytes, hS.uncompressed, hS.head_uncompressed, Outcome.ensure]

theorem length_toBytes (k : PublicKey S) : k.toBytes.length ≤ 65 := by
  unfold toBytes
  split_ifs <;> simp

end PublicKey

/-! ## Signatures -/

/-- `sighash::EcdsaSighashType`. -/
inductive EcdsaSighashType where
  | all
  | none
  | single
  | allPlusAnyoneCanPay
  | nonePlusAnyoneCanPay
  | singlePlusAnyoneCanPay
  deriving DecidableEq, Repr

namespace EcdsaSighashType

/-- `self as u8`. -/
def toU8 : EcdsaSighashType → UInt8
  | all => 0x01
  | none => 0x02
  | single => 0x03
  | allPlusAnyoneCanPay => 0x81
  | nonePlusAnyoneCanPay => 0x82
  | singlePlusAnyoneCanPay => 0x83

/-- `EcdsaSighashType::from_standard`; the error holds the number. -/
def fromStandard (n : UInt32) : Outcome UInt32 EcdsaSighashType :=
  if n = 0x01 then .ok all
  else if n = 0x02 then .ok none
  else if n = 0x03 then .ok single
  else if n = 0x81 then .ok allPlusAnyoneCanPay
  else if n = 0x82 then .ok nonePlusAnyoneCanPay
  else if n = 0x83 then .ok singlePlusAnyoneCanPay
  else .err n

theorem fromStandard_toU8 (ty : EcdsaSighashType) : fromStandard ty.toU8.toUInt32 = .ok ty := by
  cases ty <;> rfl

end EcdsaSighashType

/-- `sighash::TapSighashType`. -/
inductive TapSighashType where
  | default
  | all
  | none
  | single
  | allPlusAnyoneCanPay
  | nonePlusAnyoneCanPay
  | singlePlusAnyoneCanPay
  deriving DecidableEq, Repr

namespace TapSighashType

/-- `self as u8`. -/
def toU8 : TapSighashType → UInt8
  | default => 0x00
  | all => 0x01
  | none => 0x02
  | single => 0x03
  | allPlusAnyoneCanPay => 0x81
  | nonePlusAnyoneCanPay => 0x82
  | singlePlusAnyoneCanPay => 0x83

/-- `TapSighashType::from_consensus_u8`; the error holds the number. -/
def fromConsensusU8 (b : UInt8) : Outcome UInt32 TapSighashType :=
  if b = 0x00 then .ok default
  else if b = 0x01 then .ok all
  else if b = 0x02 then .ok none
  else if b = 0x03 then .ok single
  else if b = 0x81 then .ok allPlusAnyoneCanPay
  else if b = 0x82 then .ok nonePlusAnyoneCanPay
  else if b = 0x83 then .ok singlePlusAnyoneCanPay
  else .err b.toUInt32

theorem fromConsensusU8_toU8 (ty : TapSighashType) : fromConsensusU8 ty.toU8 = .ok ty := by
  cases ty <;> rfl

end TapSighashType

namespace Ecdsa

variable (S) in
/-- `ecdsa::Error`, as far as slices cause it. -/
inductive Error where
  | sighashType (n : UInt32)
  | emptySignature
  | secp256k1 (e : S.Error)

variable (S) in
/-- `ecdsa::Signature`. -/
structure Signature where
  signature : S.EcdsaSignature
  sighashType : EcdsaSighashType

namespace Signature

/-- `Signature::from_slice`. -/
def fromSlice (sl : Bytes) : Outcome (Error S) (Signature S) :=
  match sl.getLast? with
  | none => .err .emptySignature
  | some b => do
    let sighashType ← (EcdsaSighashType.fromStandard b.toUInt32).mapErr .sighashType
    let signature ← (Outcome.ofExcept (S.fromDer sl.dropLast)).mapErr .secp256k1
    return ⟨signature, sighashType⟩

/-- `Signature::to_vec`. -/
def toVec (sig : Signature S) : Bytes := (S.serializeDer sig.signature).1 ++ [sig.sighashType.toU8]

theorem fromSlice_toVec (hS : S.Lawful) (sig : Signature S) : fromSlice sig.toVec = .ok sig := by
  simp [fromSlice, toVec, EcdsaSighashType.fromStandard_toU8, hS.ecdsa]

theorem length_toVec (sig : Signature S) : sig.toVec.length ≤ 73 := by
  have := (S.serializeDer sig.signature).2
  rw [toVec, List.length_append, List.length_singleton]
  omega

end Signature

end Ecdsa

namespace Taproot

variable (S) in
/-- `taproot::SigFromSliceError`. -/
inductive SigFromSliceError where
  | sighashType (n : UInt32)
  | secp256k1 (e : S.Error)
  | invalidSignatureSize (len : ℕ)

variable (S) in
/-- `taproot::Signature`. -/
structure Signature where
  signature : S.SchnorrSignature
  sighashType : TapSighashType

namespace Signature

/-- `Signature::from_slice`. -/
def fromSlice (sl : Bytes) : Outcome (SigFromSliceError S) (Signature S) :=
  match sl.length with
  | 64 => do
    let signature ← (Outcome.ofExcept (S.schnorrFromSlice sl)).mapErr .secp256k1
    return ⟨signature, .default⟩
  | 65 => do
    let sighashType ← (TapSighashType.fromConsensusU8 (sl.getLastD 0)).mapErr .sighashType
    let signature ← (Outcome.ofExcept (S.schnorrFromSlice sl.dropLast)).mapErr .secp256k1
    return ⟨signature, sighashType⟩
  | len => .err (.invalidSignatureSize len)

/-- `Signature::to_vec`. -/
def toVec (sig : Signature S) : Bytes :=
  if sig.sighashType = .default then (S.schnorrBytes sig.signature).toList
  else (S.schnorrBytes sig.signature).toList ++ [sig.sighashType.toU8]

theorem fromSlice_toVec (hS : S.Lawful) (sig : Signature S) : fromSlice sig.toVec = .ok sig := by
  obtain ⟨signature, sighashType⟩ := sig
  by_cases h : sighashType = .default
  · subst h
    simp [fromSlice, toVec, hS.schnorr]
  · simp [fromSlice, toVec, h, TapSighashType.fromConsensusU8_toU8, hS.schnorr]

theorem length_toVec (sig : Signature S) : sig.toVec.length ≤ 65 := by
  unfold toVec
  split_ifs <;> simp

end Signature

end Taproot

end RustDogecoin
