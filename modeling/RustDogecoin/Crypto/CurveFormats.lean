import RustDogecoin.Crypto.Key

/-!
# The formats on the curve itself

`KeyFormats.curve` reads and writes the points of secp256k1.  A public key is a point with the root that
decompression finds, and an ECDSA signature is its strict DER form, so that parsing inverts serialisation by
construction (`KeyFormats.curve_lawful`).
-/

namespace RustDogecoin

namespace Secp256k1

/-- The second coordinate of the given parity, if there is a point with this first coordinate; the prime is
three modulo four, so a root is a power. -/
def liftX (x parity : ℕ) : Option ℕ :=
  let square := (x * x % fieldPrime * x + 7) % fieldPrime
  let root := powMod fieldPrime 256 square ((fieldPrime + 1) / 4)
  if x < fieldPrime ∧ root * root % fieldPrime = square then
    some (if root % 2 = parity then root else fieldPrime - root)
  else none

/-- `x` and `y` are the coordinates of a point. -/
def OnCurve (x y : ℕ) : Prop := x < fieldPrime ∧ y < fieldPrime ∧ liftX x (y % 2) = some y

instance (x y : ℕ) : Decidable (OnCurve x y) := inferInstanceAs (Decidable (_ ∧ _ ∧ _))

/-- A point other than the one at infinity. -/
structure CurvePoint where
  x : ℕ
  y : ℕ
  onCurve : OnCurve x y
  deriving DecidableEq, Repr

namespace CurvePoint

/-- Keys compare as their compressed forms do: by the parity, then by the first coordinate. -/
instance : LinearOrder CurvePoint :=
  LinearOrder.lift' (fun p => toLex (p.y % 2, p.x)) fun p q h => by
    obtain ⟨x, y, hp⟩ := p
    obtain ⟨x', y', hq⟩ := q
    simp only [EmbeddingLike.apply_eq_iff_eq, Prod.mk.injEq] at h
    obtain ⟨hparity, rfl⟩ := h
    have hy := hp.2.2.symm.trans (hparity ▸ hq.2.2)
    cases hy
    rfl

def compress (p : CurvePoint) : U8Array 33 :=
  ⟨(if p.y % 2 = 0 then 0x02 else 0x03) :: beBytes 32 p.x, by simp⟩

def uncompressed (p : CurvePoint) : U8Array 65 :=
  ⟨0x04 :: (beBytes 32 p.x ++ beBytes 32 p.y), by simp⟩

def ofCoordinates (x y : ℕ) : Except CurveError CurvePoint :=
  if h : OnCurve x y then .ok ⟨x, y, h⟩ else .error .invalidPublicKey

def ofPoint : Point → Except CurveError CurvePoint
  | none => .error .invalidTweak
  | some (x, y) => ofCoordinates x y

/-- Both forms of a point are read. -/
@[irreducible] def fromSlice (bs : Bytes) : Except CurveError CurvePoint :=
  match bs with
  | [] => .error .invalidPublicKey
  | b :: bs =>
    if (b = 0x02 ∨ b = 0x03) ∧ bs.length = 32 then
      match liftX (beNat bs) (b.toNat % 2) with
      | some y => ofCoordinates (beNat bs) y
      | none => .error .invalidPublicKey
    else if b = 0x04 ∧ bs.length = 64 then ofCoordinates (beNat (bs.take 32)) (beNat (bs.drop 32))
    else .error .invalidPublicKey

theorem ofCoordinates_self (p : CurvePoint) : ofCoordinates p.x p.y = .ok p := dif_pos p.onCurve

theorem fieldPrime_lt : fieldPrime < 256 ^ 32 := by decide

theorem beNat_coordinate {x : ℕ} (h : x < fieldPrime) : beNat (beBytes 32 x) = x :=
  beNat_beBytes_of_lt (h.trans fieldPrime_lt)

theorem fromSlice_compress (p : CurvePoint) : fromSlice p.compress.toList = .ok p := by
  have hx := beNat_coordinate p.onCurve.1
  have hlift := p.onCurve.2.2
  unfold fromSlice compress
  rcases Nat.mod_two_eq_zero_or_one p.y with hy | hy
  · rw [hy] at hlift
    simp [hy, hx, hlift, ofCoordinates_self]
  · rw [hy] at hlift
    simp [hy, hx, hlift, ofCoordinates_self]

theorem powMod_lt {m : ℕ} (hm : 1 < m) (fuel x e : ℕ) : powMod m fuel x e < m := by
  induction fuel generalizing x e with
  | zero => exact hm
  | succ fuel ih =>
    rw [powMod]
    split_ifs
    · exact hm
    · exact Nat.mod_lt _ (by omega)
    · exact ih _ _

/-- The root has the parity asked for. -/
theorem mod_two_of_liftX {x parity y : ℕ} (hparity : parity < 2) (h : liftX x parity = some y) :
    y % 2 = parity := by
  have hodd : fieldPrime % 2 = 1 := by decide
  have hlt := powMod_lt (by decide : 1 < fieldPrime) 256 ((x * x % fieldPrime * x + 7) % fieldPrime)
    ((fieldPrime + 1) / 4)
  unfold liftX at h
  dsimp only at h
  generalize powMod fieldPrime 256 ((x * x % fieldPrime * x + 7) % fieldPrime) ((fieldPrime + 1) / 4) = root
    at h hlt
  split_ifs at h with hroot heq
  · rw [← Option.some.inj h]
    exact heq
  · rw [← Option.some.inj h]
    omega

/-- A point has one compressed form. -/
theorem compress_of_fromSlice {bs : Bytes} {p : CurvePoint} (hlen : bs.length = 33)
    (h : fromSlice bs = .ok p) : bs = p.compress.toList := by
  obtain ⟨b, bs, rfl⟩ := List.exists_cons_of_length_eq_add_one hlen
  rw [List.length_cons] at hlen
  unfold fromSlice at h
  dsimp only at h
  split_ifs at h with hshort hlong
  · cases hlift : liftX (beNat bs) (b.toNat % 2) with
    | none =>
      rw [hlift] at h
      cases h
    | some y =>
      rw [hlift] at h
      dsimp only [ofCoordinates] at h
      split_ifs at h with hcurve
      cases h
      have hparity := mod_two_of_liftX (Nat.mod_lt _ (by decide)) hlift
      have hback := beBytes_beNat bs
      rw [hshort.2] at hback
      change b :: bs = (if y % 2 = 0 then 0x02 else 0x03) :: beBytes 32 (beNat bs)
      rw [hback, hparity]
      rcases hshort.1 with rfl | rfl <;> rfl
  · omega

theorem fromSlice_uncompressed (p : CurvePoint) : fromSlice p.uncompressed.toList = .ok p := by
  have hx := beNat_coordinate p.onCurve.1
  have hy := beNat_coordinate p.onCurve.2.1
  simp [fromSlice, uncompressed, List.take_left', List.drop_left', hx, hy, ofCoordinates_self]

end CurvePoint

/-- A first coordinate that belongs to a point. -/
abbrev XCoordinate := { x : ℕ // x < fieldPrime ∧ liftX x 0 ≠ none }

@[irreducible] def XCoordinate.fromSlice (bs : Bytes) : Except CurveError XCoordinate :=
  if h : bs.length = 32 ∧ beNat bs < fieldPrime ∧ liftX (beNat bs) 0 ≠ none then .ok ⟨beNat bs, h.2⟩
  else .error .invalidPublicKey

theorem XCoordinate.fromSlice_beBytes (x : XCoordinate) :
    XCoordinate.fromSlice (beBytes 32 x.1) = .ok x := by
  have hx := CurvePoint.beNat_coordinate x.2.1
  unfold XCoordinate.fromSlice
  rw [dif_pos (by rw [hx]; exact ⟨length_beBytes _ _, x.2⟩)]
  simp only [hx]

theorem XCoordinate.beBytes_of_fromSlice {bs : Bytes} {x : XCoordinate} (h : XCoordinate.fromSlice bs = .ok x) :
    beBytes 32 x.1 = bs := by
  unfold XCoordinate.fromSlice at h
  split_ifs at h with hbs
  cases h
  have hback := beBytes_beNat bs
  rwa [hbs.1] at hback

/-- The bytes of a positive integer in DER: no more than needed, and not read as negative. -/
def derInteger (bs : Bytes) : Bool :=
  match bs with
  | [] => false
  | [b] => b < 0x80
  | b :: c :: _ => b < 0x80 && (b != 0 || 0x80 ≤ c)

/-- The strict DER form of a signature: a sequence of two integers below the order of the group. -/
def derSignature (bs : Bytes) : Bool :=
  match bs with
  | 0x30 :: len :: 0x02 :: rlen :: body =>
    let r := body.take rlen.toNat
    match body.drop rlen.toNat with
    | 0x02 :: slen :: s =>
      len.toNat == body.length + 2 && r.length == rlen.toNat && s.length == slen.toNat &&
        derInteger r && derInteger s && decide (beNat r < groupOrder) && decide (beNat s < groupOrder)
    | _ => false
  | _ => false

end Secp256k1

namespace KeyFormats

open Secp256k1

/-- The generator. -/
def base : CurvePoint :=
  ⟨0x79be667ef9dcbbac55a06295ce870b07029bfcdb2dce28d959f2815b16f81798,
    0x483ada7726a3c4655da4fbfc0e1108a8fd17b448a68554199c47d08ffb10d4b8, by decide +kernel⟩

def curve : KeyFormats where
  Error := CurveError
  SecretKey := Scalar
  PublicKey := CurvePoint
  secretKeyFromSlice := Secp256k1.curve.secretKeyFromSlice
  secretBytes := Secp256k1.curve.secretBytes
  addTweak := Secp256k1.curve.addTweak
  fromSecretKey k :=
    -- multiples of the generator are points
    match CurvePoint.ofPoint (Point.smul 256 k.1 generator) with
    | .ok p => p
    | .error _ => base
  serialize := CurvePoint.compress
  addExpTweak p t :=
    CurvePoint.ofPoint (Point.add (some (p.x, p.y)) (Point.smul 256 t.1 generator))
  XOnlyPublicKey := XCoordinate
  EcdsaSignature := { bs : Bytes // bs.length ≤ 72 ∧ derSignature bs = true }
  SchnorrSignature := U8Array 64
  publicKeyOrder := inferInstance
  xOnlyPublicKeyOrder := inferInstance
  publicKeyFromSlice := CurvePoint.fromSlice
  serializeUncompressed := CurvePoint.uncompressed
  xOnlyFromSlice := XCoordinate.fromSlice
  xOnlySerialize x := ⟨beBytes 32 x.1, length_beBytes _ _⟩
  fromDer bs := if h : bs.length ≤ 72 ∧ derSignature bs = true then .ok ⟨bs, h⟩ else .error .invalidSignature
  serializeDer sig := ⟨sig.1, sig.2.1⟩
  schnorrFromSlice bs := if h : bs.length = 64 then .ok ⟨bs, h⟩ else .error .invalidSignature
  schnorrBytes sig := sig

theorem curve_lawful : curve.Lawful where
  publicKey := CurvePoint.fromSlice_compress
  uncompressed := CurvePoint.fromSlice_uncompressed
  head_uncompressed _ := rfl
  xOnly := XCoordinate.fromSlice_beBytes
  ecdsa sig := dif_pos sig.2
  schnorr sig := dif_pos sig.length_eq

end KeyFormats

end RustDogecoin
