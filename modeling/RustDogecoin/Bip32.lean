import RustDogecoin.Crypto.Secp256k1
import RustDogecoin.Hashes.Ripemd160
import RustDogecoin.Hashes.Sha512

/-!
# Hierarchical keys

`bip32.rs`: extended private and public keys and the derivation of their children.  Private derivation
adds a scalar to the secret key, public derivation adds the point of that scalar to the public key, and
both take the scalar from a keyed hash that they compute each on its own.  On normal child numbers the
two agree all the way down a path (`derivePub_fromPriv`).
-/

namespace RustDogecoin

inductive NetworkKind where
  | main
  | test
  deriving DecidableEq, Repr

namespace Bip32

/-- `ChildNumber`; the fields are public, so an index is any `u32`. -/
inductive ChildNumber where
  | normal (index : UInt32)
  | hardened (index : UInt32)
  deriving DecidableEq, Repr

namespace ChildNumber

/-- `ChildNumber::is_hardened`. -/
def isHardened : ChildNumber → Bool
  | hardened _ => true
  | normal _ => false

/-- `ChildNumber::is_normal`. -/
def isNormal (i : ChildNumber) : Bool := !i.isHardened

/-- `u32::from`. -/
def toU32 : ChildNumber → UInt32
  | normal index => index
  | hardened index => index ||| ((1 : UInt32) <<< 31)

end ChildNumber

variable (S : Secp256k1)

/-- `bip32::Error`, as far as derivation returns it. -/
inductive Error where
  | cannotDeriveFromHardenedKey
  | secp256k1 (e : S.Error)
  | maximumDepthExceeded

abbrev ChainCode := U8Array 32

abbrev Fingerprint := U8Array 4

/-- `ChainCode::from_hmac`. -/
def ChainCode.fromHmac (hmac : U8Array 64) : ChainCode := ⟨hmac.toList.drop 32, by simp⟩

/-- The half of the keyed hash that becomes a scalar. -/
def leftHalf (hmac : U8Array 64) : Bytes := hmac.toList.take 32

structure Xpriv where
  network : NetworkKind
  depth : UInt8
  parentFingerprint : Fingerprint
  childNumber : ChildNumber
  privateKey : S.SecretKey
  chainCode : ChainCode

structure Xpub where
  network : NetworkKind
  depth : UInt8
  parentFingerprint : Fingerprint
  childNumber : ChildNumber
  publicKey : S.PublicKey
  chainCode : ChainCode

variable {S}

namespace Xpub

/-- `Xpub::from_priv`. -/
def fromPriv (sk : Xpriv S) : Xpub S where
  network := sk.network
  depth := sk.depth
  parentFingerprint := sk.parentFingerprint
  childNumber := sk.childNumber
  publicKey := S.fromSecretKey sk.privateKey
  chainCode := sk.chainCode

/-- `Xpub::identifier`. -/
def identifier (pk : Xpub S) : U8Array 20 :=
  Hash160.fromEngine (Sha256.HashEngine.input .default (S.serialize pk.publicKey).toList)

/-- `Xpub::fingerprint`. -/
def fingerprint (pk : Xpub S) : Fingerprint := ⟨pk.identifier.toList.take 4, by simp⟩

end Xpub

/-- `Xpriv::fingerprint`. -/
def Xpriv.fingerprint (sk : Xpriv S) : Fingerprint := (Xpub.fromPriv sk).fingerprint

/-- `self.depth.checked_add(1).ok_or(Error::MaximumDepthExceeded)`. -/
def nextDepth (depth : UInt8) : Outcome (Error S) UInt8 := do
  .ensure (depth.toNat + 1 < 256) .maximumDepthExceeded
  return depth + 1

namespace Xpriv

/-- The keyed hash of `ckd_priv`. -/
def childHmac (sk : Xpriv S) (i : ChildNumber) : U8Array 64 :=
  let hmacEngine := Hmac.HmacEngine.new sk.chainCode.toList
  let hmacEngine := match i with
    | .normal _ => hmacEngine.input (S.serialize (S.fromSecretKey sk.privateKey)).toList
    | .hardened _ => (hmacEngine.input [0]).input (S.secretBytes sk.privateKey).toList
  let hmacEngine := hmacEngine.input (beBytes 4 i.toU32.toNat)
  Hmac.fromEngine hmacEngine

/-- `Xpriv::ckd_priv`. -/
def ckdPriv (sk : Xpriv S) (i : ChildNumber) : Outcome (Error S) (Xpriv S) := do
  let hmacResult := sk.childHmac i
  let tweak ← (Outcome.ofExcept (S.secretKeyFromSlice (leftHalf hmacResult))).expect.lift
  let tweaked ← (Outcome.ofExcept (S.addTweak tweak sk.privateKey)).expect.lift
  let depth ← nextDepth sk.depth
  return {
    network := sk.network
    depth := depth
    parentFingerprint := sk.fingerprint
    childNumber := i
    privateKey := tweaked
    chainCode := ChainCode.fromHmac hmacResult }

/-- `Xpriv::derive_priv`. -/
def derivePriv (sk : Xpriv S) (path : List ChildNumber) : Outcome (Error S) (Xpriv S) :=
  path.foldlM ckdPriv sk

end Xpriv

namespace Xpub

/-- The keyed hash of `ckd_pub_tweak`. -/
def childHmac (pk : Xpub S) (n : UInt32) : U8Array 64 :=
  let hmacEngine := Hmac.HmacEngine.new pk.chainCode.toList
  let hmacEngine := hmacEngine.input (S.serialize pk.publicKey).toList
  let hmacEngine := hmacEngine.input (beBytes 4 n.toNat)
  Hmac.fromEngine hmacEngine

/-- `Xpub::ckd_pub_tweak`. -/
def ckdPubTweak (pk : Xpub S) (i : ChildNumber) : Outcome (Error S) (S.SecretKey × ChainCode) :=
  match i with
  | .hardened _ => .err .cannotDeriveFromHardenedKey
  | .normal n => do
    let hmacResult := pk.childHmac n
    let privateKey ←
      (Outcome.ofExcept (S.secretKeyFromSlice (leftHalf hmacResult))).mapErr .secp256k1
    return (privateKey, ChainCode.fromHmac hmacResult)

/-- `Xpub::ckd_pub`. -/
def ckdPub (pk : Xpub S) (i : ChildNumber) : Outcome (Error S) (Xpub S) := do
  let (sk, chainCode) ← pk.ckdPubTweak i
  let tweaked ← (Outcome.ofExcept (S.addExpTweak pk.publicKey sk)).mapErr .secp256k1
  let depth ← nextDepth pk.depth
  return {
    network := pk.network
    depth := depth
    parentFingerprint := pk.fingerprint
    childNumber := i
    publicKey := tweaked
    chainCode := chainCode }

/-- `Xpub::derive_pub`. -/
def derivePub (pk : Xpub S) (path : List ChildNumber) : Outcome (Error S) (Xpub S) :=
  path.foldlM ckdPub pk

end Xpub

/-! ## Paths -/

theorem derivePriv_append (sk : Xpriv S) (p q : List ChildNumber) :
    sk.derivePriv (p ++ q) = sk.derivePriv p >>= fun sk' => sk'.derivePriv q :=
  List.foldlM_append

theorem derivePub_append (pk : Xpub S) (p q : List ChildNumber) :
    pk.derivePub (p ++ q) = pk.derivePub p >>= fun pk' => pk'.derivePub q :=
  List.foldlM_append

/-! ## The two derivations -/

/-- The keyed hash of a child gives a scalar that does not cancel the key; anything else the source
calls statistically impossible. -/
def ChildRegular (sk : Xpriv S) (i : ChildNumber) : Prop :=
  ∃ tweak tweaked, S.secretKeyFromSlice (leftHalf (sk.childHmac i)) = .ok tweak ∧
    S.addTweak tweak sk.privateKey = .ok tweaked

/-- Every child on the way down a path is regular. -/
def PathRegular : Xpriv S → List ChildNumber → Prop
  | _, [] => True
  | sk, i :: path => ChildRegular sk i ∧ ∀ sk', sk.ckdPriv i = .ok sk' → PathRegular sk' path

theorem childRegular_iff {sk : Xpriv S} {i : ChildNumber} : ChildRegular sk i ↔
    (S.secretKeyFromSlice (leftHalf (sk.childHmac i)) >>= fun tweak => S.addTweak tweak sk.privateKey).isOk = true := by
  unfold ChildRegular
  cases htweak : S.secretKeyFromSlice (leftHalf (sk.childHmac i)) with
  | error e => exact iff_of_false (by simp) Bool.false_ne_true
  | ok tweak =>
    show _ ↔ (S.addTweak tweak sk.privateKey).isOk = true
    cases hadd : S.addTweak tweak sk.privateKey with
    | error e => exact iff_of_false (by simp [hadd]) Bool.false_ne_true
    | ok tweaked => exact iff_of_true ⟨tweak, tweaked, rfl, hadd⟩ rfl

instance (sk : Xpriv S) (i : ChildNumber) : Decidable (ChildRegular sk i) := decidable_of_iff _ childRegular_iff.symm

theorem pathRegular_iff_of_ok {sk sk' : Xpriv S} {i : ChildNumber} {path : List ChildNumber}
    (h : sk.ckdPriv i = .ok sk') : ChildRegular sk i ∧ PathRegular sk' path ↔ PathRegular sk (i :: path) :=
  and_congr_right fun _ => ⟨fun hp _ h' => Outcome.ok.inj (h.symm.trans h') ▸ hp, fun hp => hp sk' h⟩

theorem pathRegular_iff_of_ne {sk : Xpriv S} {i : ChildNumber} {path : List ChildNumber}
    (h : ∀ sk', sk.ckdPriv i ≠ .ok sk') : ChildRegular sk i ↔ PathRegular sk (i :: path) :=
  ⟨fun hi => ⟨hi, fun sk' h' => absurd h' (h sk')⟩, fun hp => hp.1⟩

theorem err_ne_ok {ε α : Type} (e : ε) (a : α) : (Outcome.err e : Outcome ε α) ≠ .ok a := by simp

theorem panic_ne_ok {ε α : Type} (p : Panic) (a : α) : (Outcome.panic p : Outcome ε α) ≠ .ok a := by simp

instance decidablePathRegular : (sk : Xpriv S) → (path : List ChildNumber) → Decidable (PathRegular sk path)
  | _, [] => isTrue trivial
  | sk, i :: path =>
    match h : sk.ckdPriv i with
    | .ok sk' =>
      have : Decidable (PathRegular sk' path) := decidablePathRegular sk' path
      decidable_of_iff _ (pathRegular_iff_of_ok h)
    | .err e => decidable_of_iff _ (pathRegular_iff_of_ne (h ▸ err_ne_ok e))
    | .panic p => decidable_of_iff _ (pathRegular_iff_of_ne (h ▸ panic_ne_ok p))

theorem childHmac_fromPriv (sk : Xpriv S) (n : UInt32) :
    (Xpub.fromPriv sk).childHmac n = sk.childHmac (.normal n) := rfl

/-- One step: both children are refused for their depth, or one is the public part of the other. -/
theorem ckdPub_fromPriv (hS : S.Homomorphic) {sk : Xpriv S} {i : ChildNumber}
    (hi : i.isNormal = true) (hreg : ChildRegular sk i) :
    (sk.ckdPriv i = .err .maximumDepthExceeded ∧
      (Xpub.fromPriv sk).ckdPub i = .err .maximumDepthExceeded) ∨
    ∃ sk', sk.ckdPriv i = .ok sk' ∧ (Xpub.fromPriv sk).ckdPub i = .ok (Xpub.fromPriv sk') := by
  cases i with
  | hardened index => cases hi
  | normal n =>
    obtain ⟨tweak, tweaked, htweak, hadd⟩ := hreg
    have hpoint : S.addExpTweak (S.fromSecretKey sk.privateKey) tweak =
        .ok (S.fromSecretKey tweaked) := by
      apply hS.addExpTweak_eq
      rw [hS.addTweak_comm, hadd]
    have hpriv : sk.ckdPriv (.normal n) = nextDepth sk.depth >>= fun depth =>
        .ok ⟨sk.network, depth, sk.fingerprint, .normal n, tweaked,
          ChainCode.fromHmac (sk.childHmac (.normal n))⟩ := by
      simp [Xpriv.ckdPriv, htweak, hadd]
    have hpub : (Xpub.fromPriv sk).ckdPub (.normal n) = nextDepth sk.depth >>= fun depth =>
        .ok ⟨sk.network, depth, sk.fingerprint, .normal n, S.fromSecretKey tweaked,
          ChainCode.fromHmac (sk.childHmac (.normal n))⟩ := by
      have hpoint' : S.addExpTweak (Xpub.fromPriv sk).publicKey tweak =
        .ok (S.fromSecretKey tweaked) := hpoint
      simp only [Xpub.ckdPub, Xpub.ckdPubTweak, childHmac_fromPriv, htweak, hpoint',
        Outcome.ofExcept_ok, Outcome.mapErr_ok, Outcome.ok_bind, Outcome.pure_eq_ok]
      rfl
    rw [hpriv, hpub]
    by_cases hdepth : sk.depth.toNat + 1 < 256
    · right
      rw [nextDepth, Outcome.ensure_of hdepth]
      exact ⟨_, rfl, rfl⟩
    · left
      rw [nextDepth, Outcome.ensure, if_neg hdepth]
      exact ⟨rfl, rfl⟩

theorem derivePub_fromPriv_of_regular (hS : S.Homomorphic) {sk : Xpriv S} {path : List ChildNumber}
    (hnormal : ∀ i ∈ path, i.isNormal = true) (hreg : PathRegular sk path) :
    (sk.derivePriv path = .err .maximumDepthExceeded ∧
      (Xpub.fromPriv sk).derivePub path = .err .maximumDepthExceeded) ∨
    ∃ sk', sk.derivePriv path = .ok sk' ∧
      (Xpub.fromPriv sk).derivePub path = .ok (Xpub.fromPriv sk') := by
  induction path generalizing sk with
  | nil => exact Or.inr ⟨sk, rfl, rfl⟩
  | cons i path ih =>
    rw [List.forall_mem_cons] at hnormal
    obtain ⟨hchild, hrest⟩ := hreg
    rw [Xpriv.derivePriv, Xpub.derivePub, List.foldlM_cons, List.foldlM_cons]
    rcases ckdPub_fromPriv hS hnormal.1 hchild with ⟨hpriv, hpub⟩ | ⟨sk', hpriv, hpub⟩
    · left
      rw [hpriv, hpub]
      exact ⟨rfl, rfl⟩
    · rw [hpriv, hpub, Outcome.ok_bind, Outcome.ok_bind]
      exact ih hnormal.2 (hrest sk' hpriv)

/-- Taking the public part commutes with derivation along normal child numbers, and derivation along a
path goes through every point of it. -/
theorem derivePub_fromPriv (hS : S.Homomorphic) :
    (∀ (sk : Xpriv S) (path : List ChildNumber), (∀ i ∈ path, i.isNormal = true) →
      PathRegular sk path →
      (sk.derivePriv path = .err .maximumDepthExceeded ∧
        (Xpub.fromPriv sk).derivePub path = .err .maximumDepthExceeded) ∨
      ∃ sk', sk.derivePriv path = .ok sk' ∧
        (Xpub.fromPriv sk).derivePub path = .ok (Xpub.fromPriv sk')) ∧
    (∀ (sk : Xpriv S) (p q : List ChildNumber),
      sk.derivePriv (p ++ q) = sk.derivePriv p >>= fun sk' => sk'.derivePriv q) ∧
    ∀ (pk : Xpub S) (p q : List ChildNumber),
      pk.derivePub (p ++ q) = pk.derivePub p >>= fun pk' => pk'.derivePub q :=
  ⟨fun _ _ hnormal hreg => derivePub_fromPriv_of_regular hS hnormal hreg, derivePriv_append,
    derivePub_append⟩

/-- The master key with the scalar one and a chain code of zeros. -/
def sampleKey : Xpriv .curve where
  network := .main
  depth := 0
  parentFingerprint := .replicate 4 0
  childNumber := .normal 0
  privateKey := ⟨1, Secp256k1.one_lt_groupOrder⟩
  chainCode := .replicate 32 0

/-- The curve, with the point of one more key known. -/
def sampleCurve : Secp256k1 :=
  { Secp256k1.curve with
    serialize := fun p =>
      if p.1 = 0x3d3910215dad0aec23112ce0f7b5ab0000b8c51f5c4c50c856a6c2cae67ff800 then
      ⟨[3, 93, 174, 18, 32, 165, 71, 26, 154, 40, 109, 138, 8, 206, 184, 39, 58, 202, 95, 195, 63, 52, 70, 80,
        123, 104, 220, 165, 13, 4, 3, 190, 111], rfl⟩
      else Secp256k1.curve.serialize p }

theorem sampleCurve_homomorphic : sampleCurve.Homomorphic where
  addTweak_comm := Secp256k1.curve_homomorphic.addTweak_comm
  addExpTweak_eq := Secp256k1.curve_homomorphic.addExpTweak_eq

def sampleParent : Xpriv sampleCurve := { sampleKey with }

/-- The second step is from the key whose point is known. -/
theorem derivePub_fromPriv_sample :
    PathRegular sampleParent [.normal 7, .normal 8] ∧
      ((sampleParent.derivePriv [.normal 7, .normal 8] = .err .maximumDepthExceeded ∧
          (Xpub.fromPriv sampleParent).derivePub [.normal 7, .normal 8] = .err .maximumDepthExceeded) ∨
        ∃ sk', sampleParent.derivePriv [.normal 7, .normal 8] = .ok sk' ∧
          (Xpub.fromPriv sampleParent).derivePub [.normal 7, .normal 8] = .ok (Xpub.fromPriv sk')) := by
  have hreg : PathRegular sampleParent [.normal 7, .normal 8] := by decide +kernel
  exact ⟨hreg, (derivePub_fromPriv sampleCurve_homomorphic).1 sampleParent [.normal 7, .normal 8]
    (by decide) hreg⟩

end Bip32

end RustDogecoin
