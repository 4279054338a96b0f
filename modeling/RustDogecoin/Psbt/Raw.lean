import RustDogecoin.Bip32.Encode
import RustDogecoin.Blockdata.Transaction
import RustDogecoin.Taproot.Builder
import RustDogecoin.Taproot.ControlBlock

/-!
# Raw key-value pairs

`psbt/raw.rs` and `psbt/error.rs`: keys, pairs and proprietary keys of the maps of a partially signed
transaction, in their raw byte form.  Pairs whose key and value keep the size limits are read back as they
were written (`Pair.lawful`), and so are proprietary keys (`ProprietaryKey.tryFrom_toKey`).
-/

namespace RustDogecoin

namespace Psbt

namespace Raw

/-- `raw::Key`. -/
structure Key where
  typeValue : UInt8
  key : Bytes
  deriving DecidableEq, Repr

/-- `raw::Pair`. -/
structure Pair where
  key : Key
  value : Bytes
  deriving DecidableEq, Repr

/-- `raw::ProprietaryKey`, with the default subtype. -/
structure ProprietaryKey where
  prefixBytes : Bytes
  subtype : UInt8
  key : Bytes
  deriving DecidableEq, Repr

instance : LinearOrder Key :=
  LinearOrder.lift' (fun k => toLex (k.typeValue.toNat, k.key.rank)) fun k k' h => by
    obtain ⟨t, bs⟩ := k
    obtain ⟨t', bs'⟩ := k'
    simp only [EmbeddingLike.apply_eq_iff_eq, Prod.mk.injEq, UInt8.toNat_inj] at h
    rw [h.1, Bytes.rank_injective h.2]

instance : LinearOrder ProprietaryKey :=
  LinearOrder.lift' (fun k => toLex (k.prefixBytes.rank, toLex (k.subtype.toNat, k.key.rank)))
    fun k k' h => by
      obtain ⟨p, t, bs⟩ := k
      obtain ⟨p', t', bs'⟩ := k'
      simp only [EmbeddingLike.apply_eq_iff_eq, Prod.mk.injEq, UInt8.toNat_inj] at h
      rw [Bytes.rank_injective h.1, h.2.1, Bytes.rank_injective h.2.2]

end Raw

open Raw

/-- `psbt::error::PsbtHash`. -/
inductive PsbtHash where
  | ripemd
  | sha256
  | hash160
  | hash256
  deriving DecidableEq, Repr

/-- `psbt::Error`; the only I/O error of a byte source in memory is an unexpected end. -/
inductive Error (S : KeyFormats) where
  | invalidMagic
  | missingUtxo
  | invalidSeparator
  | psbtUtxoOutOfbounds
  | invalidKey (key : Key)
  | invalidProprietaryKey
  | duplicateKey (key : Key)
  | unsignedTxHasScriptSigs
  | unsignedTxHasScriptWitnesses
  | mustHaveUnsignedTx
  | noMorePairs
  | unexpectedUnsignedTx (expected actual : Transaction)
  | nonStandardSighashType (n : UInt32)
  | invalidHash (e : HashFromSliceError)
  | invalidPreimageHashPair (hashType : PsbtHash) (preimage hash : Bytes)
  | combineInconsistentKeySources (xpub : Bip32.Xpub S.toSecp256k1)
  | consensusEncoding (e : EncodeError)
  | negativeFee
  | feeOverflow
  | invalidPublicKey (e : FromSliceError S)
  | invalidSecp256k1PublicKey (e : S.Error)
  | invalidXOnlyPublicKey
  | invalidEcdsaSignature (e : Ecdsa.Error S)
  | invalidTaprootSignature (e : Taproot.SigFromSliceError S)
  | invalidControlBlock
  | invalidLeafVersion
  | taproot (msg : String)
  | tapTree (e : Taproot.IncompleteBuilderError)
  | xPubKey (msg : String)
  | version (msg : String)
  | partialDataConsumption
  | io

namespace Raw

variable {S : KeyFormats}

/-! ## Keys and pairs -/

/-- `Key::decode`. -/
def Key.decode : Decoder (Error S) Key := do
  let byteSize ← decodeLen.mapErr .consensusEncoding
  Decoder.ensure (byteSize ≠ 0) .noMorePairs
  let keyByteSize := byteSize - 1
  Decoder.ensure (keyByteSize ≤ MAX_VEC_SIZE)
    (.consensusEncoding (.oversizedVectorAllocation keyByteSize MAX_VEC_SIZE))
  let typeValue ← u8.consensusDecode.mapErr .consensusEncoding
  let key ← (u8.consensusDecode.times keyByteSize).mapErr .consensusEncoding
  return ⟨typeValue, key⟩

/-- What `Key::serialize` writes. -/
def Key.serialize : Encoder Key := fun k => do
  let len ← encodeLen (k.key.length + 1)
  let typeValue ← u8.consensusEncode k.typeValue
  let key ← u8.consensusEncode.list k.key
  return len ++ (typeValue ++ key)

/-- What `Pair::serialize` writes. -/
def Pair.serialize : Encoder Pair := fun p => do
  let key ← p.key.serialize
  let value ← vecU8.consensusEncode p.value
  return key ++ value

/-- `Pair::decode`. -/
def Pair.decode : Decoder (Error S) Pair := do
  let key ← Key.decode
  let value ← vecU8.consensusDecode.mapErr .consensusEncoding
  return ⟨key, value⟩

theorem Key.serialize_eq_ok_iff {k : Key} {w : Written} :
    k.serialize = .ok w ↔ ∃ len key, encodeLen (k.key.length + 1) = .ok len ∧
      u8.consensusEncode.list k.key = .ok key ∧
      w = len ++ (Written.ofBytes (leBytes 1 k.typeValue.toNat) ++ key) := by
  unfold Key.serialize
  rw [Outcome.bind_eq_ok_iff]
  constructor
  · rintro ⟨len, hlen, h⟩
    obtain ⟨typeValue, htype, h⟩ := Outcome.bind_eq_ok_iff.1 h
    obtain ⟨key, hkey, h⟩ := Outcome.bind_eq_ok_iff.1 h
    cases htype
    exact ⟨len, key, hlen, hkey, (Outcome.ok.inj h).symm⟩
  · rintro ⟨len, key, hlen, hkey, rfl⟩
    refine ⟨len, hlen, ?_⟩
    change u8.consensusEncode.list k.key >>= _ = _
    rw [hkey]
    rfl

/-- Keys are read back as they were written, up to the limit on their size. -/
theorem Key.lawful :
    Lawful Key.serialize (Key.decode (S := S)) fun k => k.key.length ≤ MAX_VEC_SIZE := by
  have hu8 : Lawful u8.consensusEncode u8.consensusDecode fun _ => True := lawful_u8.finite
  refine ⟨?_, ?_, ?_⟩
  · intro k w e
    obtain ⟨len, key, hlen, hkey, rfl⟩ := Key.serialize_eq_ok_iff.1 e
    simp [lawful_len.counts _ _ hlen, hu8.counts.list _ _ hkey]
  · intro k w hk e rest
    obtain ⟨len, key, hlen, hkey, rfl⟩ := Key.serialize_eq_ok_iff.1 e
    unfold Key.decode
    rw [Written.bytes_append, Written.bytes_append, Written.bytes_ofBytes, List.append_assoc, List.append_assoc,
      Decoder.run_bind_of_ok (Decoder.run_mapErr_eq_ok_iff.2 (lawful_len.roundTrips _ len trivial hlen _)),
      Decoder.run_ensure_bind_of (Nat.succ_ne_zero _)]
    dsimp only
    rw [Nat.add_sub_cancel, Decoder.run_ensure_bind_of (by exact hk),
      Decoder.run_bind_of_ok (Decoder.run_mapErr_eq_ok_iff.2 (run_u8 k.typeValue _)),
      Decoder.run_bind_of_ok (Decoder.run_mapErr_eq_ok_iff.2
        (hu8.roundTrips.times _ k.key key ⟨rfl, by simp⟩ hkey rest))]
    rfl
  · intro bs k rest hr
    obtain ⟨byteSize, mid, hsize, hr⟩ := Decoder.run_bind_eq_ok_iff.1 hr
    obtain ⟨hne, hr⟩ := Decoder.run_ensure_bind_eq_ok_iff.1 hr
    obtain ⟨hle, hr⟩ := Decoder.run_ensure_bind_eq_ok_iff.1 hr
    obtain ⟨typeValue, mid', htype, hr⟩ := Decoder.run_bind_eq_ok_iff.1 hr
    obtain ⟨key, mid'', hkey, hr⟩ := Decoder.run_bind_eq_ok_iff.1 hr
    cases hr
    obtain ⟨-, len, hlen, rfl⟩ :=
      lawful_len.canonical _ _ _ (Decoder.run_mapErr_eq_ok_iff.1 hsize)
    obtain rfl := eq_of_run_u8 (Decoder.run_mapErr_eq_ok_iff.1 htype)
    obtain ⟨⟨hlength, -⟩, w, hw, rfl⟩ :=
      hu8.canonical.times _ _ _ _ (Decoder.run_mapErr_eq_ok_iff.1 hkey)
    refine ⟨hlength.trans_le hle, len ++ (.ofBytes _ ++ w),
      Key.serialize_eq_ok_iff.2 ⟨len, w, ?_, hw, rfl⟩, by simp⟩
    rw [hlength, Nat.sub_add_cancel (Nat.one_le_iff_ne_zero.2 hne)]
    exact hlen

/-- The limits on the size of a pair: the key, and the value with its length in front. -/
def Pair.WithinLimits (p : Pair) : Prop :=
  p.key.key.length ≤ MAX_VEC_SIZE ∧ Fits vecU8.consensusEncode MAX_VEC_SIZE p.value

/-- Pairs are read back as they were written, up to the limits on their size. -/
theorem Pair.lawful : Lawful Pair.serialize (Pair.decode (S := S)) Pair.WithinLimits := by
  have hvalue : Lawful vecU8.consensusEncode (vecU8.consensusDecode.mapErr (Error.consensusEncoding (S := S)))
      fun bs => True ∧ Fits vecU8.consensusEncode MAX_VEC_SIZE bs :=
    (lawful_vecU8.decode rfl).mapErr _
  refine ⟨?_, ?_, ?_⟩
  · intro p w e
    obtain ⟨u, v, hu, hv, rfl⟩ := Written.bind_append_eq_ok_iff.1 e
    simp [Key.lawful (S := S).counts _ _ hu, hvalue.counts _ _ hv]
  · intro p w hp e rest
    obtain ⟨u, v, hu, hv, rfl⟩ := Written.bind_append_eq_ok_iff.1 e
    unfold Pair.decode
    rw [Written.bytes_append, List.append_assoc,
      Decoder.run_bind_of_ok (Key.lawful.roundTrips _ u hp.1 hu _),
      Decoder.run_bind_of_ok (hvalue.roundTrips _ v ⟨trivial, hp.2⟩ hv rest)]
    rfl
  · intro bs p rest hr
    obtain ⟨k, mid, hk, hr⟩ := Decoder.run_bind_eq_ok_iff.1 hr
    obtain ⟨value, mid', hv, hr⟩ := Decoder.run_bind_eq_ok_iff.1 hr
    cases hr
    obtain ⟨hlen, u, hu, rfl⟩ := Key.lawful.canonical _ _ _ hk
    obtain ⟨⟨-, hfits⟩, v, he, rfl⟩ := hvalue.canonical _ _ _ hv
    exact ⟨⟨hlen, hfits⟩, u ++ v, Written.bind_append_eq_ok_iff.2 ⟨u, v, hu, he, rfl⟩, by simp⟩

/-- A zero byte ends a map. -/
theorem Pair.run_decode_zero (rest : Bytes) :
    (Pair.decode (S := S)).run (0x00 :: rest) = .err .noMorePairs := by
  have hsize : (decodeLen.mapErr (Error.consensusEncoding (S := S))).run (0x00 :: rest) = .ok (0, rest) :=
    Decoder.run_mapErr_eq_ok_iff.2 (lawful_len.roundTrips 0 ⟨[0x00], 1⟩ trivial rfl rest)
  have hkey : (Key.decode (S := S)).run (0x00 :: rest) = .err .noMorePairs := by
    unfold Key.decode
    rw [Decoder.run_bind_of_ok hsize]
    rfl
  unfold Pair.decode
  rw [StateT.run_bind, hkey, Outcome.err_bind]

/-- An error of an encoding is never the end of a map. -/
theorem consensusEncoding_ne_noMorePairs {α : Type} {d : Read α} {bs : Bytes} :
    (d.mapErr (Error.consensusEncoding (S := S))).run bs ≠ .err .noMorePairs := by
  intro herr
  obtain ⟨e, -, he⟩ := Outcome.mapErr_eq_err_iff.1 herr
  cases he

theorem Key.exists_zero_of_noMorePairs {bs : Bytes}
    (h : (Key.decode (S := S)).run bs = .err .noMorePairs) : ∃ rest, bs = 0x00 :: rest := by
  rw [Key.decode, StateT.run_bind] at h
  rcases Outcome.bind_eq_err_iff.1 h with hsize | ⟨⟨byteSize, mid⟩, hsize, hrest⟩
  · exact absurd hsize consensusEncoding_ne_noMorePairs
  · obtain ⟨-, w, hw, rfl⟩ := lawful_len.canonical _ _ _ (Decoder.run_mapErr_eq_ok_iff.1 hsize)
    by_cases hzero : byteSize = 0
    · subst hzero
      cases hw
      exact ⟨mid, rfl⟩
    · -- behind the check for zero only the encodings and the size limit fail
      rw [Decoder.run_ensure_bind_of hzero] at hrest
      dsimp only at hrest
      by_cases hle : byteSize - 1 ≤ MAX_VEC_SIZE
      · rw [Decoder.run_ensure_bind_of hle, StateT.run_bind] at hrest
        rcases Outcome.bind_eq_err_iff.1 hrest with htype | ⟨⟨t, mid'⟩, -, hrest⟩
        · exact absurd htype consensusEncoding_ne_noMorePairs
        · rw [StateT.run_bind] at hrest
          rcases Outcome.bind_eq_err_iff.1 hrest with hbytes | ⟨_, -, hrest⟩
          · exact absurd hbytes consensusEncoding_ne_noMorePairs
          · cases hrest
      · have hfail : (Decoder.ensure (byteSize - 1 ≤ MAX_VEC_SIZE) (Error.consensusEncoding (S := S)
            (.oversizedVectorAllocation (byteSize - 1) MAX_VEC_SIZE))).run mid = .err _ := if_neg hle
        rw [StateT.run_bind, hfail, Outcome.err_bind] at hrest
        cases hrest

/-- Only a zero byte ends a map: the other errors come from the encodings. -/
theorem Pair.exists_zero_of_noMorePairs {bs : Bytes}
    (h : (Pair.decode (S := S)).run bs = .err .noMorePairs) : ∃ rest, bs = 0x00 :: rest := by
  rw [Pair.decode, StateT.run_bind] at h
  rcases Outcome.bind_eq_err_iff.1 h with hkey | ⟨⟨key, mid⟩, -, h⟩
  · exact Key.exists_zero_of_noMorePairs hkey
  · rw [StateT.run_bind] at h
    rcases Outcome.bind_eq_err_iff.1 h with hvalue | ⟨_, -, h⟩
    · exact absurd hvalue consensusEncoding_ne_noMorePairs
    · cases h

/-! ## Proprietary keys -/

namespace ProprietaryKey

/-- `consensus_encode`. -/
def consensusEncode : Encoder ProprietaryKey := fun k => do
  let prefixBytes ← vecU8.consensusEncode k.prefixBytes
  let subtype ← u8.consensusEncode k.subtype
  return prefixBytes ++ (subtype ++ .ofBytes k.key)

/-- `Read::read_to_limit`. -/
def readToLimit (limit : ℕ) : Read Bytes := fun bs => .ok (bs.take limit, bs.drop limit)

/-- `consensus_decode`. -/
def consensusDecode : Read ProprietaryKey := do
  let prefixBytes ← vecU8.consensusDecode
  let subtype ← u8.consensusDecode
  let key ← readToLimit 1024
  return ⟨prefixBytes, subtype, key⟩

def codec : Codec ProprietaryKey := .ofDecode consensusEncode consensusDecode

/-- `ProprietaryKey::to_key`. -/
def toKey (k : ProprietaryKey) : Outcome Empty Key := do
  let key ← consensusEncode k
  return ⟨0xFC, key.bytes⟩

/-- `ProprietaryKey::try_from`. -/
def tryFrom (key : Key) : Outcome (Error S) ProprietaryKey := do
  .ensure (key.typeValue = 0xFC) .invalidProprietaryKey
  (deserialize codec key.key).mapErr .consensusEncoding

theorem consensusEncode_eq_ok_iff {k : ProprietaryKey} {w : Written} :
    consensusEncode k = .ok w ↔ ∃ u, vecU8.consensusEncode k.prefixBytes = .ok u ∧
      w = u ++ (Written.ofBytes (leBytes 1 k.subtype.toNat) ++ .ofBytes k.key) := by
  unfold consensusEncode
  rw [Outcome.bind_eq_ok_iff]
  constructor
  · rintro ⟨u, hu, h⟩
    exact ⟨u, hu, (Outcome.ok.inj h).symm⟩
  · rintro ⟨u, hu, rfl⟩
    exact ⟨u, hu, rfl⟩

theorem toKey_eq_ok_iff {k : ProprietaryKey} {key : Key} :
    k.toKey = .ok key ↔ ∃ w, consensusEncode k = .ok w ∧ key = ⟨0xFC, w.bytes⟩ := by
  unfold toKey
  rw [Outcome.bind_eq_ok_iff]
  simp only [Outcome.pure_eq_ok, Outcome.ok.injEq, eq_comm]

theorem tryFrom_eq_ok_iff {key : Key} {k : ProprietaryKey} :
    (tryFrom key : Outcome (Error S) _) = .ok k ↔
      key.typeValue = 0xFC ∧ consensusDecode.run key.key = .ok (k, []) := by
  unfold tryFrom
  rw [Outcome.ensure_bind_eq_ok_iff, Outcome.mapErr_eq_ok_iff, deserialize, Outcome.bind_eq_ok_iff]
  refine and_congr_right fun _ => ?_
  constructor
  · rintro ⟨⟨k', rest⟩, hrun, h⟩
    obtain ⟨rfl, h⟩ := Outcome.ensure_bind_eq_ok_iff.1 h
    cases h
    exact hrun
  · intro h
    exact ⟨_, h, Outcome.ensure_bind_eq_ok_iff.2 ⟨rfl, rfl⟩⟩

/-- A proprietary key with at most 1024 bytes after the subtype comes back from its raw form. -/
theorem tryFrom_toKey {k : ProprietaryKey} {key : Key} (hlen : k.key.length ≤ 1024)
    (hkey : k.toKey = .ok key) (hfit : key.key.length ≤ MAX_VEC_SIZE) :
    (tryFrom key : Outcome (Error S) _) = .ok k := by
  obtain ⟨w, hw, rfl⟩ := toKey_eq_ok_iff.1 hkey
  obtain ⟨u, hu, rfl⟩ := consensusEncode_eq_ok_iff.1 hw
  have hpre : Fits vecU8.consensusEncode MAX_VEC_SIZE k.prefixBytes := by
    intro u' hu'
    rw [← Outcome.ok.inj (hu.symm.trans hu')]
    simp only [Written.bytes_append, List.length_append] at hfit
    omega
  refine tryFrom_eq_ok_iff.2 ⟨rfl, ?_⟩
  have hread : (readToLimit 1024).run k.key = .ok (k.key, []) := by
    change Outcome.ok (k.key.take 1024, k.key.drop 1024) = _
    rw [List.take_of_length_le hlen, List.drop_of_length_le hlen]
  unfold consensusDecode
  rw [Written.bytes_append, Written.bytes_append, Written.bytes_ofBytes, Written.bytes_ofBytes,
    Decoder.run_bind_of_ok ((lawful_vecU8.decode rfl).roundTrips _ u ⟨trivial, hpre⟩ hu _),
    Decoder.run_bind_of_ok (run_u8 k.subtype _), Decoder.run_bind_of_ok hread]
  rfl

/-- A raw key read as a proprietary one is its raw form. -/
theorem toKey_of_tryFrom {k : ProprietaryKey} {key : Key}
    (h : (tryFrom key : Outcome (Error S) _) = .ok k) : k.toKey = .ok key ∧ k.key.length ≤ 1024 := by
  obtain ⟨htype, hrun⟩ := tryFrom_eq_ok_iff.1 h
  obtain ⟨p, mid, hp, hrun⟩ := Decoder.run_bind_eq_ok_iff.1 hrun
  obtain ⟨subtype, mid', hs, hrun⟩ := Decoder.run_bind_eq_ok_iff.1 hrun
  obtain ⟨bytes, mid'', hb, hrun⟩ := Decoder.run_bind_eq_ok_iff.1 hrun
  cases hrun
  obtain ⟨-, u, hu, hkey⟩ := (lawful_vecU8.decode rfl).canonical _ _ _ hp
  obtain rfl := eq_of_run_u8 hs
  obtain ⟨rfl, hnil⟩ := Prod.mk.inj (Outcome.ok.inj hb)
  have hshort : mid'.length ≤ 1024 := List.drop_eq_nil_iff.1 hnil
  rw [List.take_of_length_le hshort]
  refine ⟨toKey_eq_ok_iff.2 ⟨_, consensusEncode_eq_ok_iff.2 ⟨u, hu, rfl⟩, ?_⟩, hshort⟩
  obtain ⟨t, bs⟩ := key
  cases htype
  exact congrArg (Key.mk 0xFC) hkey

end ProprietaryKey

end Raw

end Psbt

end RustDogecoin
