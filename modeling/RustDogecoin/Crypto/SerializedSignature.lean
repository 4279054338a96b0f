import RustDogecoin.Crypto.CurveFormats
import RustDogecoin.Hex

/-!
# Serialized signatures

`serialize` writes a signature into a buffer that is part of the value, with the length in use beside it.  The
slice and `write_to` read that part back.  The two iterators of the ECDSA one do not: each calls the other
(`Ecdsa.Signature.serialize_gives_iff`).  A Schnorr signature leaves the default hash type out, but one that spells
it is read too (`Taproot.Signature.toVec_of_fromSlice_iff`).
-/

namespace RustDogecoin

/-! ## Buffers -/

namespace U8Array

variable {n : ℕ}

/-- `buf[..piece.len()].copy_from_slice(piece)`. -/
def copyFromSlice (buf : U8Array n) (piece : Bytes) : Outcome Empty (U8Array n) :=
  if h : piece.length ≤ n then .ok ⟨piece ++ buf.toList.drop piece.length, by simp [h]⟩
  else .panic .outOfBounds

/-- `buf[i] = b`. -/
def setByte (buf : U8Array n) (i : ℕ) (b : UInt8) : Outcome Empty (U8Array n) :=
  if i < n then .ok ⟨buf.toList.set i b, by simp⟩ else .panic .outOfBounds

/-- `&buf[..len]`. -/
def sliceTo (buf : U8Array n) (len : ℕ) : Outcome Empty Bytes :=
  if len ≤ n then .ok (buf.toList.take len) else .panic .outOfBounds

theorem copyFromSlice_spec (buf : U8Array n) {piece : Bytes} (h : piece.length ≤ n) :
    ∃ data, buf.copyFromSlice piece = .ok data ∧ data.toList.take piece.length = piece :=
  ⟨_, dif_pos h, List.take_left⟩

theorem setByte_spec {buf : U8Array n} {piece : Bytes} (h : piece.length < n)
    (hbuf : buf.toList.take piece.length = piece) (b : UInt8) :
    ∃ data, buf.setByte piece.length b = .ok data ∧
      data.toList.take (piece.length + 1) = piece ++ [b] := by
  refine ⟨_, if_pos h, ?_⟩
  have hget : (buf.toList.set piece.length b)[piece.length]? = some b := by simp [h]
  rw [List.take_add_one, hget, List.take_set_of_le (le_refl _), hbuf]
  rfl

theorem sliceTo_of_take {buf : U8Array n} {piece : Bytes} (h : piece.length ≤ n)
    (hbuf : buf.toList.take piece.length = piece) : buf.sliceTo piece.length = .ok piece := by
  rw [sliceTo, if_pos h, hbuf]

end U8Array

variable {S : KeyFormats}

/-! ## ECDSA -/

namespace Ecdsa

/-- `ecdsa::SerializedSignature`. -/
structure SerializedSignature where
  data : U8Array 73
  len : ℕ

namespace SerializedSignature

/-- `Deref::deref`. -/
def deref (sig : SerializedSignature) : Outcome Empty Bytes := sig.data.sliceTo sig.len

/-- `SerializedSignature::write_to`, with the `write_all` of the writer. -/
def writeTo {ε W : Type} (writeAll : W → Bytes → Outcome ε W) (sig : SerializedSignature) (writer : W) :
    Outcome ε W := do
  let buf ← Outcome.lift sig.deref
  writeAll writer buf

mutual

/-- `SerializedSignature::iter`, with the bytes of the iterator; `none` when the given number of calls did not
suffice.  In `self.into_iter()` the receiver is already a reference, so this is `intoIter`. -/
def iter : ℕ → SerializedSignature → Option (Outcome Empty Bytes)
  | 0, _ => none
  | calls + 1, sig => intoIter calls sig

/-- `IntoIterator::into_iter` for a reference.  In `(*self).iter()` the method of the type itself comes before
that of the slice, so this is `iter`. -/
def intoIter : ℕ → SerializedSignature → Option (Outcome Empty Bytes)
  | 0, _ => none
  | calls + 1, sig => iter calls sig

end

/-- Neither iterator is ever built. -/
theorem iter_eq_none (calls : ℕ) (sig : SerializedSignature) : iter calls sig = none ∧ intoIter calls sig = none := by
  induction calls with
  | zero => exact ⟨by rw [iter], by rw [intoIter]⟩
  | succ calls ih => exact ⟨by rw [iter, ih.2], by rw [intoIter, ih.1]⟩

end SerializedSignature

namespace Signature

/-- `Signature::serialize`. -/
def serialize (sig : Signature S) : Outcome Empty SerializedSignature := do
  let signature := (S.serializeDer sig.signature).1
  let buf ← (U8Array.replicate 73 0).copyFromSlice signature
  let buf ← buf.setByte signature.length sig.sighashType.toU8
  return ⟨buf, signature.length + 1⟩

/-- The part of the buffer in use holds the signature. -/
theorem serialize_spec (sig : Signature S) : ∃ ser, sig.serialize = .ok ser ∧ ser.deref = .ok sig.toVec := by
  have hlen : (S.serializeDer sig.signature).1.length < 73 := Nat.lt_succ_of_le (S.serializeDer sig.signature).2
  obtain ⟨copied, hcopy, hcopied⟩ := (U8Array.replicate 73 0).copyFromSlice_spec hlen.le
  obtain ⟨data, hset, hdata⟩ := U8Array.setByte_spec hlen hcopied sig.sighashType.toU8
  refine ⟨⟨data, (S.serializeDer sig.signature).1.length + 1⟩, ?_, ?_⟩
  · simp only [serialize, hcopy, hset, Outcome.ok_bind, Outcome.pure_eq_ok]
  · have hvec : sig.toVec.length = (S.serializeDer sig.signature).1.length + 1 := by simp [toVec]
    have htake : data.toList.take sig.toVec.length = sig.toVec := by rw [hvec, hdata, toVec]
    have hslice := U8Array.sliceTo_of_take sig.length_toVec htake
    rwa [hvec] at hslice

end Signature

/-- The ways to read a serialized signature. -/
inductive Access where
  | deref
  | writeTo
  | iter
  | intoIter
  deriving DecidableEq, Repr

/-- What is read from the serialized signature are the bytes of `to_vec`; a writer is handed these bytes at once,
and an iterator is there after some number of calls. -/
def Access.Gives (sig : Signature S) (access : Access) : Prop :=
  ∃ ser, sig.serialize = .ok ser ∧
    match access with
    | .deref => ser.deref = .ok sig.toVec
    | .writeTo => ∀ (ε W : Type) (writeAll : W → Bytes → Outcome ε W) (writer : W),
        ser.writeTo writeAll writer = writeAll writer sig.toVec
    | .iter => ∃ calls, ser.iter calls = some (.ok sig.toVec)
    | .intoIter => ∃ calls, ser.intoIter calls = some (.ok sig.toVec)

theorem Access.gives_iff (sig : Signature S) (access : Access) :
    access.Gives sig ↔ access = .deref ∨ access = .writeTo := by
  obtain ⟨ser, hser, hderef⟩ := sig.serialize_spec
  cases access with
  | deref => exact iff_of_true ⟨ser, hser, hderef⟩ (.inl rfl)
  | writeTo =>
    refine iff_of_true ⟨ser, hser, fun ε W writeAll writer => ?_⟩ (.inr rfl)
    rw [SerializedSignature.writeTo, hderef, Outcome.lift_ok, Outcome.ok_bind]
  | iter =>
    refine iff_of_false ?_ (by simp)
    rintro ⟨ser, -, calls, hiter⟩
    rw [(ser.iter_eq_none calls).1] at hiter
    cases hiter
  | intoIter =>
    refine iff_of_false ?_ (by simp)
    rintro ⟨ser, -, calls, hiter⟩
    rw [(ser.iter_eq_none calls).2] at hiter
    cases hiter

/-! ### Texts -/

end Ecdsa

/-- What is used of the `hex-conservative` crate for byte strings. -/
structure HexVec where
  HexToBytesError : Type
  /-- `Vec::from_hex`. -/
  vecFromHex : Str → Except HexToBytesError Bytes
  /-- `LowerHex` of `as_hex()`. -/
  lowerHex : Bytes → Str

/-- What the crate documents. -/
structure HexVec.Documented (H : HexVec) : Prop where
  vecFromHex_iff : ∀ s bs, H.vecFromHex s = .ok bs ↔ hexBytes s = some bs
  lowerHex_eq : ∀ bs, H.lowerHex bs = hexText false bs

/-- A crate that does what is documented, with a single error. -/
def HexVec.plain : HexVec where
  HexToBytesError := Unit
  vecFromHex s := (hexBytes s).elim (.error ()) .ok
  lowerHex := hexText false

theorem HexVec.plain_documented : HexVec.plain.Documented where
  vecFromHex_iff s bs := by
    simp only [plain]
    cases hexBytes s <;> simp
  lowerHex_eq _ := rfl

namespace Ecdsa

variable (S) in
/-- `ecdsa::Error`. -/
inductive TextError (H : HexVec) where
  | hex (e : H.HexToBytesError)
  | slice (e : Error S)

namespace Signature

variable {H : HexVec}

variable (H) in
/-- `Display::fmt`; a hash type is a single byte. -/
def fmt (sig : Signature S) (f : Str) : Except FmtError Str := do
  let f ← pushStr f (H.lowerHex (S.serializeDer sig.signature).1)
  pushStr f (H.lowerHex [sig.sighashType.toU8])

variable (S H) in
/-- `FromStr::from_str`; the signature is parsed before the hash type. -/
def fromStr (s : Str) : Outcome (TextError S H) (Signature S) := do
  let bytes ← (Outcome.ofExcept (H.vecFromHex s)).mapErr .hex
  match bytes.getLast? with
  | none => .err (.slice .emptySignature)
  | some sighashByte => do
    let signature ← (Outcome.ofExcept (S.fromDer bytes.dropLast)).mapErr fun e => .slice (.secp256k1 e)
    let sighashType ← (EcdsaSighashType.fromStandard sighashByte.toUInt32).mapErr fun n => .slice (.sighashType n)
    return ⟨signature, sighashType⟩

theorem fmt_eq (hH : H.Documented) (sig : Signature S) (f : Str) :
    sig.fmt H f = .ok (f ++ hexText false sig.toVec) := by
  rw [fmt, pushStr_bind, pushStr, hH.lowerHex_eq, hH.lowerHex_eq, toVec, hexText, hexText, hexText,
    List.flatMap_append, List.append_assoc]

theorem fromStr_hexText (hS : S.Lawful) (hH : H.Documented) (sig : Signature S) :
    fromStr S H (hexText false sig.toVec) = .ok sig := by
  have hhex := (hH.vecFromHex_iff (hexText false sig.toVec) sig.toVec).2 (hexBytes_hexText false _)
  rw [fromStr, hhex]
  simp [Outcome.ofExcept, Outcome.mapErr, toVec, EcdsaSighashType.fromStandard_toU8, hS.ecdsa]

/-- A signature is read back from its bytes and from its text, and the slice and the writers give its bytes.  The
iterators give nothing, of any signature. -/
theorem serialize_gives_iff (hS : S.Lawful) (hH : H.Documented) (sig : Signature S) (access : Access) :
    (access.Gives sig ∧ fromSlice sig.toVec = .ok sig ∧ ∃ s, sig.fmt H [] = .ok s ∧ fromStr S H s = .ok sig) ↔
      access = .deref ∨ access = .writeTo := by
  rw [Access.gives_iff, and_iff_left]
  exact ⟨fromSlice_toVec hS sig, _, fmt_eq hH sig [], fromStr_hexText hS hH sig⟩

theorem derSignature_ones : ([0x30, 0x06, 0x02, 0x01, 0x01, 0x02, 0x01, 0x01] : Bytes).length ≤ 72 ∧
    Secp256k1.derSignature [0x30, 0x06, 0x02, 0x01, 0x01, 0x02, 0x01, 0x01] = true := by decide

/-- The signature whose two integers are one. -/
def sample : Signature KeyFormats.curve :=
  ⟨⟨[0x30, 0x06, 0x02, 0x01, 0x01, 0x02, 0x01, 0x01], derSignature_ones⟩, .all⟩

theorem serialize_gives_sample :
    (Access.deref.Gives sample ∧ fromSlice sample.toVec = .ok sample ∧
      ∃ s, sample.fmt HexVec.plain [] = .ok s ∧ fromStr KeyFormats.curve HexVec.plain s = .ok sample) ↔
      Access.deref = .deref ∨ Access.deref = .writeTo :=
  serialize_gives_iff KeyFormats.curve_lawful HexVec.plain_documented sample .deref

/-- The bytes of a small signature cannot be iterated over. -/
theorem iter_sample : ¬Access.iter.Gives sample := by
  rw [Access.gives_iff]
  simp

end Signature

end Ecdsa

/-! ## Taproot -/

theorem TapSighashType.toU8_of_fromConsensusU8 {b : UInt8} {ty : TapSighashType} (h : fromConsensusU8 b = .ok ty) :
    ty.toU8 = b := by
  unfold fromConsensusU8 at h
  split_ifs at h <;> cases h <;> exact Eq.symm ‹_›

namespace Taproot

/-- `taproot::SerializedSignature`. -/
structure SerializedSignature where
  data : U8Array 65
  len : ℕ

namespace SerializedSignature

/-- `SerializedSignature::from_raw_parts`. -/
def fromRawParts (data : U8Array 65) (len : ℕ) : Outcome Empty SerializedSignature := do
  .require (len ≤ 65) .assertion
  return ⟨data, len⟩

/-- `Deref::deref`. -/
def deref (sig : SerializedSignature) : Outcome Empty Bytes := sig.data.sliceTo sig.len

end SerializedSignature

namespace Signature

/-- `Signature::serialize`. -/
def serialize (sig : Signature S) : Outcome Empty SerializedSignature := do
  let buf ← (U8Array.replicate 65 0).copyFromSlice (S.schnorrBytes sig.signature).toList
  if sig.sighashType = .default then
    -- the default hash type has no byte
    SerializedSignature.fromRawParts buf 64
  else do
    let buf ← buf.setByte 64 sig.sighashType.toU8
    SerializedSignature.fromRawParts buf 65

theorem serialize_spec (sig : Signature S) : ∃ ser, sig.serialize = .ok ser ∧ ser.deref = .ok sig.toVec := by
  have hlen := (S.schnorrBytes sig.signature).length_eq
  obtain ⟨copied, hcopy, hcopied⟩ := (U8Array.replicate 65 0).copyFromSlice_spec (by rw [hlen]; omega)
  by_cases hdefault : sig.sighashType = .default
  · refine ⟨⟨copied, 64⟩, ?_, ?_⟩
    · rw [serialize, hcopy, Outcome.ok_bind, if_pos hdefault]
      rfl
    · rw [toVec, if_pos hdefault]
      have hslice := U8Array.sliceTo_of_take (by rw [hlen]; omega) hcopied
      rwa [hlen] at hslice
  · obtain ⟨data, hset, hdata⟩ := U8Array.setByte_spec (by rw [hlen]; omega) hcopied sig.sighashType.toU8
    rw [hlen] at hset hdata
    refine ⟨⟨data, 65⟩, ?_, ?_⟩
    · rw [serialize, hcopy, Outcome.ok_bind, if_neg hdefault, hset]
      rfl
    · rw [toVec, if_neg hdefault]
      have hlen' : ((S.schnorrBytes sig.signature).toList ++ [sig.sighashType.toU8]).length = 65 := by
        rw [List.length_append, hlen, List.length_singleton]
      have hslice := U8Array.sliceTo_of_take hlen'.le (by rw [hlen']; exact hdata)
      rwa [hlen'] at hslice

/-- The signatures that a slice is read as: 64 bytes have the default hash type, and the 65th byte is any type. -/
theorem fromSlice_eq_ok_iff {sl : Bytes} {sig : Signature S} : fromSlice sl = .ok sig ↔
    (sl.length = 64 ∧ S.schnorrFromSlice sl = .ok sig.signature ∧ sig.sighashType = .default) ∨
      ∃ bs, sl = bs ++ [sig.sighashType.toU8] ∧ bs.length = 64 ∧ S.schnorrFromSlice bs = .ok sig.signature := by
  obtain ⟨signature, sighashType⟩ := sig
  unfold fromSlice
  split
  case h_1 hlen =>
    simp only [Outcome.bind_eq_ok_iff, Outcome.mapErr_eq_ok_iff, Outcome.ofExcept_eq_ok_iff, Outcome.pure_eq_ok,
      Outcome.ok.injEq, mk.injEq]
    constructor
    · rintro ⟨_, hparse, rfl, rfl⟩
      exact .inl ⟨hlen, hparse, rfl⟩
    · rintro (⟨-, hparse, rfl⟩ | ⟨bs, rfl, hbs, -⟩)
      · exact ⟨_, hparse, rfl, rfl⟩
      · simp [hbs] at hlen
  case h_2 hlen =>
    simp only [Outcome.bind_eq_ok_iff, Outcome.mapErr_eq_ok_iff, Outcome.ofExcept_eq_ok_iff, Outcome.pure_eq_ok,
      Outcome.ok.injEq, mk.injEq]
    constructor
    · rintro ⟨_, hty, _, hparse, rfl, rfl⟩
      have hne : sl ≠ [] := List.ne_nil_of_length_eq_add_one hlen
      refine .inr ⟨sl.dropLast, ?_, by simp [hlen], hparse⟩
      rw [TapSighashType.toU8_of_fromConsensusU8 hty, List.getLastD_eq_getLast?, List.getLast?_eq_some_getLast hne,
        Option.getD_some, List.dropLast_append_getLast]
    · rintro (⟨h64, -⟩ | ⟨bs, rfl, -, hparse⟩)
      · omega
      · exact ⟨_, by simp [TapSighashType.fromConsensusU8_toU8], _, by rwa [List.dropLast_concat], rfl, rfl⟩
  case h_3 h64 h65 =>
    refine iff_of_false (by simp) ?_
    rintro (⟨hlen, -⟩ | ⟨bs, rfl, hbs, -⟩)
    · exact h64 hlen
    · exact h65 (by simp [hbs])

/-- What is assumed of the codec of Schnorr signatures: the strings that are parsed are the serializations. -/
structure SchnorrBijection (S : KeyFormats) : Prop where
  parse_bytes : ∀ s, S.schnorrFromSlice (S.schnorrBytes s).toList = .ok s
  bytes_of_parse : ∀ bs s, S.schnorrFromSlice bs = .ok s → (S.schnorrBytes s).toList = bs

/-- A signature that is followed by a byte for the default hash type. -/
def SpellsDefault (S : KeyFormats) (b : Bytes) : Prop :=
  b.length = 65 ∧ b.getLast? = some TapSighashType.default.toU8 ∧ ∃ s, S.schnorrFromSlice b.dropLast = .ok s

/-- A signature is read from its bytes. -/
theorem fromSlice_toVec_of (hS : SchnorrBijection S) (sig : Signature S) : fromSlice sig.toVec = .ok sig := by
  have hlen := (S.schnorrBytes sig.signature).length_eq
  have hparse := hS.parse_bytes sig.signature
  rw [fromSlice_eq_ok_iff, toVec]
  split_ifs with hdefault
  · exact .inl ⟨hlen, hparse, hdefault⟩
  · exact .inr ⟨_, rfl, hlen, hparse⟩

/-- A byte string that does not spell the default hash type is the only one for the signature it is read as. -/
theorem toVec_of_fromSlice (hS : SchnorrBijection S) {b : Bytes} (hb : ¬SpellsDefault S b) {sig : Signature S}
    (h : fromSlice b = .ok sig) : sig.toVec = b := by
  rw [fromSlice_eq_ok_iff] at h
  obtain ⟨-, hparse, hdefault⟩ | ⟨bs, rfl, hlen, hparse⟩ := h
  · rw [toVec, if_pos hdefault, hS.bytes_of_parse _ _ hparse]
  · have hne : sig.sighashType ≠ .default := fun hdefault =>
      hb ⟨by simp [hlen], by simp [hdefault], sig.signature, by rwa [List.dropLast_concat]⟩
    rw [toVec, if_neg hne, hS.bytes_of_parse _ _ hparse]

/-- The spelled default is read, and it is not written. -/
theorem exists_toVec_ne {b : Bytes} (hb : SpellsDefault S b) :
    ∃ sig : Signature S, fromSlice b = .ok sig ∧ sig.toVec ≠ b := by
  obtain ⟨hlen, hlast, signature, hparse⟩ := hb
  obtain ⟨bs, rfl⟩ := List.getLast?_eq_some_iff.1 hlast
  rw [List.length_append, List.length_singleton] at hlen
  rw [List.dropLast_concat] at hparse
  refine ⟨⟨signature, .default⟩, fromSlice_eq_ok_iff.2 (.inr ⟨bs, rfl, by omega, hparse⟩), fun heq => ?_⟩
  have hshort := congrArg List.length heq
  rw [toVec, if_pos rfl, U8Array.length_eq, List.length_append, List.length_singleton] at hshort
  omega

/-- Both ways to serialize a signature give what it is read from.  A byte string that is read is what the signature
serializes to, unless it spells the default hash type. -/
theorem toVec_of_fromSlice_iff (hS : SchnorrBijection S) (b : Bytes) :
    ((∀ sig : Signature S, fromSlice sig.toVec = .ok sig ∧
        ∃ ser, sig.serialize = .ok ser ∧ ser.deref = .ok sig.toVec) ∧
      ∀ sig : Signature S, fromSlice b = .ok sig → sig.toVec = b) ↔ ¬SpellsDefault S b := by
  rw [and_iff_right fun sig => ⟨fromSlice_toVec_of hS sig, sig.serialize_spec⟩]
  constructor
  · intro hback hb
    obtain ⟨sig, hread, hne⟩ := exists_toVec_ne hb
    exact hne (hback sig hread)
  · exact fun hb _ hread => toVec_of_fromSlice hS hb hread

theorem curve_schnorrBijection : SchnorrBijection KeyFormats.curve where
  parse_bytes s := dif_pos s.length_eq
  bytes_of_parse bs s h := by
    dsimp only [KeyFormats.curve] at h
    split_ifs at h with hlen
    cases h
    rfl

theorem toVec_of_fromSlice_sample :
    ((∀ sig : Signature KeyFormats.curve, fromSlice sig.toVec = .ok sig ∧
        ∃ ser, sig.serialize = .ok ser ∧ ser.deref = .ok sig.toVec) ∧
      ∀ sig : Signature KeyFormats.curve, fromSlice (List.replicate 64 1) = .ok sig →
        sig.toVec = List.replicate 64 1) ↔ ¬SpellsDefault KeyFormats.curve (List.replicate 64 1) :=
  toVec_of_fromSlice_iff curve_schnorrBijection _

/-- Two encodings of one signature are read. -/
theorem fromSlice_spelled_default :
    ¬∀ (b : Bytes) (sig : Signature KeyFormats.curve), fromSlice b = .ok sig → sig.toVec = b := by
  have hparse : KeyFormats.curve.schnorrFromSlice (List.replicate 64 1) = .ok (U8Array.replicate 64 1) :=
    curve_schnorrBijection.parse_bytes (U8Array.replicate 64 1)
  have hspells : SpellsDefault KeyFormats.curve (List.replicate 64 1 ++ [0x00]) :=
    ⟨by decide, by decide, _, by rwa [List.dropLast_concat]⟩
  obtain ⟨sig, hread, hne⟩ := exists_toVec_ne hspells
  exact fun h => hne (h _ _ hread)

end Signature

end Taproot

end RustDogecoin
