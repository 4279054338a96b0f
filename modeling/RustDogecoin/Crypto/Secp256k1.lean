import RustDogecoin.Consensus.Encode

/-!
# Keys of the curve secp256k1

Key arithmetic is in the `secp256k1` crate, which is not part of the repository.  `Secp256k1` is what is
used of it, and `Secp256k1.Homomorphic` what is relied on: tweaks of secret keys add scalars, and tweaks
of public keys add the points that belong to them.

`Secp256k1.curve` is the curve itself.  A public key stands there for its discrete logarithm, so that the
group is that of the scalars, and is only turned into a point when it is serialised.
-/

namespace RustDogecoin

/-- Keys, as the `secp256k1` crate offers them. -/
structure Secp256k1 where
  Error : Type
  SecretKey : Type
  PublicKey : Type
  /-- `SecretKey::from_slice`. -/
  secretKeyFromSlice : Bytes → Except Error SecretKey
  /-- The bytes of a secret key. -/
  secretBytes : SecretKey → U8Array 32
  /-- `SecretKey::add_tweak`, with the scalar of a secret key as the tweak. -/
  addTweak : SecretKey → SecretKey → Except Error SecretKey
  /-- `PublicKey::from_secret_key`. -/
  fromSecretKey : SecretKey → PublicKey
  /-- `PublicKey::serialize`. -/
  serialize : PublicKey → U8Array 33
  /-- `PublicKey::add_exp_tweak`, with the scalar of a secret key as the tweak. -/
  addExpTweak : PublicKey → SecretKey → Except Error PublicKey

namespace Secp256k1

/-- The public key of a sum is the sum of the public keys. -/
structure Homomorphic (S : Secp256k1) : Prop where
  addTweak_comm : ∀ k t, S.addTweak k t = S.addTweak t k
  addExpTweak_eq : ∀ k t k', S.addTweak k t = .ok k' →
    S.addExpTweak (S.fromSecretKey k) t = .ok (S.fromSecretKey k')

/-! ## The curve -/

/-- The prime of the field. -/
def fieldPrime : ℕ := 0xfffffffffffffffffffffffffffffffffffffffffffffffffffffffefffffc2f

/-- The order of the group. -/
def groupOrder : ℕ := 0xfffffffffffffffffffffffffffffffebaaedce6af48a03bbfd25e8cd0364141

def powMod (m : ℕ) : ℕ → ℕ → ℕ → ℕ
  | 0, _, _ => 1
  | fuel + 1, x, e =>
    if e = 0 then 1
    else
      let r := powMod m fuel (x * x % m) (e / 2)
      if e % 2 = 1 then x * r % m else r

/-- The inverse in the field, by Fermat's little theorem. -/
def fieldInv (x : ℕ) : ℕ := powMod fieldPrime 256 x (fieldPrime - 2)

/-- A point: its coordinates, or none for the point at infinity. -/
abbrev Point := Option (ℕ × ℕ)

def Point.add : Point → Point → Point
  | none, q => q
  | p, none => p
  | some (x₁, y₁), some (x₂, y₂) =>
    let p := fieldPrime
    if x₁ = x₂ ∧ (y₁ + y₂) % p = 0 then none
    else
      let slope :=
        if x₁ = x₂ then 3 * x₁ * x₁ * fieldInv (2 * y₁ % p) % p
        else (y₂ + p - y₁) * fieldInv ((x₂ + p - x₁) % p) % p
      let x₃ := (slope * slope + 2 * p - x₁ - x₂) % p
      some (x₃, (slope * (x₁ + p - x₃) + p - y₁) % p)

def Point.smul : ℕ → ℕ → Point → Point
  | 0, _, _ => none
  | fuel + 1, k, p =>
    if k = 0 then none
    else
      let q := Point.smul fuel (k / 2) (Point.add p p)
      if k % 2 = 1 then Point.add p q else q

def generator : Point :=
  some (0x79be667ef9dcbbac55a06295ce870b07029bfcdb2dce28d959f2815b16f81798,
    0x483ada7726a3c4655da4fbfc0e1108a8fd17b448a68554199c47d08ffb10d4b8)

/-- The compressed form of a point. -/
def Point.compress : Point → U8Array 33
  | none => .replicate 33 0
  | some (x, y) => ⟨(if y % 2 = 0 then 0x02 else 0x03) :: beBytes 32 x, by simp⟩

theorem one_lt_groupOrder : 0 < 1 ∧ 1 < groupOrder := by decide

/-- A scalar that is not zero. -/
abbrev Scalar := { k : ℕ // 0 < k ∧ k < groupOrder }

inductive CurveError where
  | invalidSecretKey
  | invalidTweak
  | invalidPublicKey
  | invalidSignature
  deriving DecidableEq, Repr

/-- A scalar, unless it is zero. -/
def Scalar.ofNat (k : ℕ) (e : CurveError) : Except CurveError Scalar :=
  if h : 0 < k ∧ k < groupOrder then .ok ⟨k, h⟩ else .error e

def curve : Secp256k1 where
  Error := CurveError
  SecretKey := Scalar
  PublicKey := Scalar
  secretKeyFromSlice bs := if bs.length = 32 then Scalar.ofNat (beNat bs) .invalidSecretKey
    else .error .invalidSecretKey
  secretBytes k := ⟨beBytes 32 k.1, by simp⟩
  addTweak k t := Scalar.ofNat ((k.1 + t.1) % groupOrder) .invalidTweak
  fromSecretKey k := k
  serialize p := (Point.smul 256 p.1 generator).compress
  addExpTweak p t := Scalar.ofNat ((p.1 + t.1) % groupOrder) .invalidTweak

theorem curve_homomorphic : curve.Homomorphic where
  addTweak_comm k t := by
    change Scalar.ofNat ((k.1 + t.1) % groupOrder) _ = Scalar.ofNat ((t.1 + k.1) % groupOrder) _
    rw [Nat.add_comm]
  addExpTweak_eq _ _ _ h := h

end Secp256k1

end RustDogecoin
