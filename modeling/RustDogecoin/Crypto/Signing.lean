import RustDogecoin.Crypto.CurveFormats
import RustDogecoin.Crypto.Wif
import RustDogecoin.Taproot.Node

/-!
# Signing keys

What is used of the `secp256k1` crate to sign: key pairs, signatures, and the tweak of a key pair.
`tapTweak` is the tweak of `crypto/key.rs` by the hash of a taproot output, which panics when the hash is no
scalar or the tweaked key is zero.
-/

namespace RustDogecoin

/-- Signing, as the `secp256k1` crate offers it. -/
structure Signing (S : KeyFormats) where
  Keypair : Type
  Scalar : Type
  /-- `Keypair::from_secret_key`. -/
  fromSecretKey : S.SecretKey → Keypair
  /-- `XOnlyPublicKey::from_keypair`. -/
  xOnlyFromKeypair : Keypair → S.XOnlyPublicKey
  /-- `XOnlyPublicKey::from` of a public key. -/
  xOnlyFromPublicKey : S.PublicKey → S.XOnlyPublicKey
  /-- `Scalar::from_be_bytes`. -/
  scalarFromBeBytes : U8Array 32 → Except S.Error Scalar
  /-- `Keypair::add_xonly_tweak`. -/
  addXonlyTweak : Keypair → Scalar → Except S.Error Keypair
  /-- `Secp256k1::sign_ecdsa`. -/
  signEcdsa : U8Array 32 → S.SecretKey → S.EcdsaSignature
  /-- `Secp256k1::sign_schnorr`. -/
  signSchnorr : U8Array 32 → Keypair → S.SchnorrSignature

variable {S : KeyFormats}

/-- `PrivateKey::public_key`. -/
def PrivateKey.publicKey (k : PrivateKey S.toSecp256k1) : PublicKey S := ⟨k.compressed, S.fromSecretKey k.inner⟩

/-- `TapTweakHash::from_key_and_tweak`. -/
def tapTweakHash (internalKey : S.XOnlyPublicKey) (merkleRoot : Option (U8Array 32)) : U8Array 32 :=
  let eng := Sha256t.engine (asBytes "TapTweak")
  let eng := Sha256.HashEngine.input eng (S.xOnlySerialize internalKey).toList
  Sha256.fromEngine (
    match merkleRoot with
    | some h => Sha256.HashEngine.input eng h.toList
    | none => eng)

namespace Signing

/-- `tap_tweak` of a key pair, with `TapTweakHash::to_scalar`. -/
def tapTweak (secp : Signing S) (keyPair : secp.Keypair) (merkleRoot : Option (U8Array 32)) :
    Outcome Empty secp.Keypair := do
  let tweak := tapTweakHash (secp.xOnlyFromKeypair keyPair) merkleRoot
  let scalar ← (Outcome.ofExcept (secp.scalarFromBeBytes tweak)).expect
  (Outcome.ofExcept (secp.addXonlyTweak keyPair scalar)).expect

/-! ## The curve itself -/

open Secp256k1

theorem liftX_ne_none {x y : ℕ} (h : OnCurve x y) : liftX x 0 ≠ none := by
  have hlift : liftX x (y % 2) ≠ none := by
    rw [h.2.2]
    exact Option.some_ne_none y
  -- whether there is a root does not depend on the parity
  unfold liftX at hlift ⊢
  simp only [ne_eq, ite_eq_right_iff, reduceCtorEq, imp_false, not_not] at hlift ⊢
  exact hlift

/-- Key pairs on the curve, with given ways to sign. -/
def curve (signEcdsa : U8Array 32 → KeyFormats.curve.SecretKey → KeyFormats.curve.EcdsaSignature)
    (signSchnorr : U8Array 32 → KeyFormats.curve.SecretKey → KeyFormats.curve.SchnorrSignature) :
    Signing KeyFormats.curve where
  Keypair := Secp256k1.Scalar
  Scalar := Fin groupOrder
  fromSecretKey sk := sk
  xOnlyFromKeypair keyPair :=
    let key : CurvePoint := KeyFormats.curve.fromSecretKey keyPair
    ⟨key.x, key.onCurve.1, liftX_ne_none key.onCurve⟩
  xOnlyFromPublicKey key := ⟨CurvePoint.x key, (CurvePoint.onCurve key).1, liftX_ne_none (CurvePoint.onCurve key)⟩
  scalarFromBeBytes bytes :=
    if h : beNat bytes.toList < groupOrder then .ok ⟨beNat bytes.toList, h⟩ else .error .invalidTweak
  addXonlyTweak keyPair tweak :=
    -- the key pair of the point with an even second coordinate
    let key : CurvePoint := KeyFormats.curve.fromSecretKey keyPair
    let secret := if key.y % 2 = 0 then keyPair.1 else groupOrder - keyPair.1
    Scalar.ofNat ((secret + tweak.1) % groupOrder) .invalidTweak
  signEcdsa := signEcdsa
  signSchnorr := signSchnorr

end Signing

end RustDogecoin
