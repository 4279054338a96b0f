import RustDogecoin.Bip32.Encode
import RustDogecoin.Crypto.CurveFormats
import RustDogecoin.Crypto.Wif

/-!
# Byte forms of extended keys

`Xpriv::encode`, `Xpriv::decode` and how far these and the functions of `Xpub` invert each other.  Every byte of
an extended public key is stored or checked.  Of an extended private key the byte in front of the secret key,
which is written as zero, is neither (`extendedKey_codec_iff`).
-/

namespace RustDogecoin

namespace Bip32

def VERSION_BYTES_MAINNET_PRIVATE : U8Array 4 := ⟨[0x04, 0x88, 0xAD, 0xE4], rfl⟩

def VERSION_BYTES_TESTNETS_PRIVATE : U8Array 4 := ⟨[0x04, 0x35, 0x83, 0x94], rfl⟩

def versionBytesPrivate : NetworkKind → U8Array 4
  | .main => VERSION_BYTES_MAINNET_PRIVATE
  | .test => VERSION_BYTES_TESTNETS_PRIVATE

variable {S : KeyFormats}

namespace Xpriv

/-- The network that the first bytes of an extended private key stand for. -/
def networkOf (data : Bytes) : Outcome (DecodeError S) NetworkKind :=
  if VERSION_BYTES_MAINNET_PRIVATE.toList.isPrefixOf data then .ok .main
  else if VERSION_BYTES_TESTNETS_PRIVATE.toList.isPrefixOf data then .ok .test
  else .err (.unknownVersion (data.take 4))

/-- `Xpriv::encode`. -/
def encode (sk : Xpriv S.toSecp256k1) : Bytes :=
  (versionBytesPrivate sk.network).toList ++ ([sk.depth] ++ (sk.parentFingerprint.toList ++
    (beBytes 4 sk.childNumber.toU32.toNat ++ (sk.chainCode.toList ++
      ([0] ++ (S.secretBytes sk.privateKey).toList)))))

/-- `Xpriv::decode`. -/
def decode (data : Bytes) : Outcome (DecodeError S) (Xpriv S.toSecp256k1) := do
  .ensure (data.length = 78) (.wrongExtendedKeyLength data.length)
  let network ← networkOf data
  let depth := (data.drop 4).headD 0
  let parentFingerprint ← slice data 5 4
  let childNumber := ChildNumber.ofU32 (UInt32.ofNat (beNat ((data.drop 9).take 4)))
  let chainCode ← slice data 13 32
  let privateKey ← (Outcome.ofExcept
    (S.secretKeyFromSlice ((data.drop 46).take 32))).mapErr .secp256k1
  return ⟨network, depth, parentFingerprint, childNumber, privateKey, chainCode⟩

/-- The fields of an extended private key. -/
def record (sk : Xpriv S.toSecp256k1) : Record :=
  ⟨versionBytesPrivate sk.network, sk.depth, sk.parentFingerprint, sk.childNumber.toBytes, sk.chainCode,
    ⟨0 :: (S.secretBytes sk.privateKey).toList, by simp⟩⟩

theorem encode_eq (sk : Xpriv S.toSecp256k1) : sk.encode = sk.record.bytes := rfl

theorem networkOf_bytes (r : Record) {network : NetworkKind} :
    (networkOf r.bytes : Outcome (DecodeError S) _) = .ok network ↔ r.version = versionBytesPrivate network := by
  have hne : VERSION_BYTES_MAINNET_PRIVATE ≠ VERSION_BYTES_TESTNETS_PRIVATE := by decide
  rw [networkOf, r.network_eq_ok_iff hne]
  cases network with
  | main => rfl
  | test => rfl

theorem drop_succ_bytes (r : Record) : r.bytes.drop 46 = r.key.toList.drop 1 := by
  rw [← r.drop_bytes, List.drop_drop]

/-- What `decode` takes from the fields: all but the first byte of the key. -/
theorem decode_bytes_eq_ok_iff {r : Record} {sk : Xpriv S.toSecp256k1} :
    decode r.bytes = .ok sk ↔ r.version = versionBytesPrivate sk.network ∧ r.depth = sk.depth ∧
      r.parentFingerprint = sk.parentFingerprint ∧
      ChildNumber.ofU32 (UInt32.ofNat (beNat r.childNumber.toList)) = sk.childNumber ∧
      r.chainCode = sk.chainCode ∧ S.secretKeyFromSlice (r.key.toList.drop 1) = .ok sk.privateKey := by
  have hkey : (r.bytes.drop 46).take 32 = r.key.toList.drop 1 := by
    rw [drop_succ_bytes, List.take_of_length_le (by simp)]
  unfold decode
  rw [Outcome.ensure_of r.length_bytes, Outcome.ok_bind]
  simp only [r.slice_parentFingerprint, r.slice_chainCode, r.head_drop_bytes, r.take_drop_bytes, hkey,
    Outcome.ok_bind, Outcome.bind_eq_ok_iff, networkOf_bytes, Outcome.mapErr_eq_ok_iff,
    Outcome.ofExcept_eq_ok_iff, Outcome.pure_eq_ok, Outcome.ok.injEq]
  constructor
  · rintro ⟨network, hversion, key, hkey, rfl⟩
    exact ⟨hversion, rfl, rfl, rfl, rfl, hkey⟩
  · rintro ⟨hversion, hdepth, hfingerprint, hchild, hchain, hkey⟩
    refine ⟨_, hversion, _, hkey, ?_⟩
    rw [hdepth, hfingerprint, hchild, hchain]

end Xpriv

/-! ## Child numbers -/

namespace ChildNumber

/-- All numbers come back. -/
theorem toU32_ofU32 (n : UInt32) : (ofU32 n).toU32 = n := by
  unfold ofU32
  split_ifs with h
  · rw [and_bit_ne_zero_iff] at h
    rw [toU32, ← UInt32.toNat_inj, UInt32.toNat_or, UInt32.toNat_xor, toNat_bit]
    apply Nat.eq_of_testBit_eq
    intro i
    rw [Nat.testBit_or, Nat.testBit_xor]
    rcases eq_or_ne i 31 with rfl | hi
    · rw [h, Nat.testBit_two_pow_self]
      rfl
    · rw [Nat.testBit_two_pow_of_ne hi.symm, Bool.xor_false, Bool.or_false]
  · rfl

theorem ofU32_toU32_iff (c : ChildNumber) : ofU32 c.toU32 = c ↔ c.InRange := by
  constructor
  · intro h
    rw [← h]
    exact inRange_ofU32 _
  · exact ofU32_toU32

theorem toNat_ofNat_beNat (a : U8Array 4) : (UInt32.ofNat (beNat a.toList)).toNat = beNat a.toList := by
  have hlt := beNat_lt a.toList
  rw [a.length_eq] at hlt
  rw [UInt32.toNat_ofNat']
  exact Nat.mod_eq_of_lt hlt

theorem toBytes_ofU32 (a : U8Array 4) : (ofU32 (UInt32.ofNat (beNat a.toList))).toBytes = a := by
  have hback := beBytes_beNat a.toList
  rw [a.length_eq] at hback
  apply U8Array.ext
  change beBytes 4 (ofU32 (UInt32.ofNat (beNat a.toList))).toU32.toNat = a.toList
  rw [toU32_ofU32, toNat_ofNat_beNat, hback]

end ChildNumber

/-! ## Which bytes come back -/

/-- Public keys are parsed from their compressed form, and from no other 33 bytes. -/
def CompressedCanonical (S : KeyFormats) : Prop :=
  ∀ (bs : Bytes) (k : S.PublicKey), bs.length = 33 → S.publicKeyFromSlice bs = .ok k →
    bs = (S.serialize k).toList

theorem Xpub.encode_of_decode (hS : CompressedCanonical S) {data : Bytes} {pk : Xpub S.toSecp256k1}
    (h : Xpub.decode data = .ok pk) : pk.encode = data := by
  obtain ⟨r, rfl⟩ := Record.exists_bytes_eq (Xpub.inRange_of_decode h).1
  obtain ⟨hversion, hdepth, hfingerprint, hchild, hchain, hkey⟩ := Xpub.decode_bytes_eq_ok_iff.1 h
  have hkey' : S.serialize pk.publicKey = r.key := U8Array.ext (hS _ _ r.key.length_eq hkey).symm
  rw [Xpub.encode_eq, Xpub.record, ← hversion, ← hdepth, ← hfingerprint, ← hchain, hkey', ← hchild,
    ChildNumber.toBytes_ofU32]

theorem Xpub.decode_encode_iff (hS : S.Lawful) (pk : Xpub S.toSecp256k1) :
    Xpub.decode pk.encode = .ok pk ↔ pk.childNumber.InRange :=
  ⟨fun h => (Xpub.inRange_of_decode h).2, Xpub.decode_encode_of_inRange hS⟩

namespace Xpriv

theorem decode_encode_iff (hS : S.SecretBytes) (sk : Xpriv S.toSecp256k1) :
    decode sk.encode = .ok sk ↔ sk.childNumber.InRange := by
  have hchild : ChildNumber.ofU32 (UInt32.ofNat (beNat sk.record.childNumber.toList)) =
      ChildNumber.ofU32 sk.childNumber.toU32 := by
    rw [← ChildNumber.beNat_toBytes]
    rfl
  rw [encode_eq, decode_bytes_eq_ok_iff, hchild, ChildNumber.ofU32_toU32_iff]
  constructor
  · rintro ⟨-, -, -, hrange, -, -⟩
    exact hrange
  · intro hrange
    exact ⟨rfl, rfl, rfl, hrange, rfl, hS.fromSlice sk.privateKey⟩

/-- The byte in front of the secret key. -/
theorem getElem?_bytes (r : Record) : r.bytes[45]? = r.key.toList[0]? := by
  rw [← r.drop_bytes, List.getElem?_drop]

/-- A string that is read is written again exactly if this byte is zero. -/
theorem encode_of_decode_iff (hS : S.SecretBytes) {data : Bytes} {sk : Xpriv S.toSecp256k1}
    (h : decode data = .ok sk) : sk.encode = data ↔ data[45]? = some 0 := by
  obtain ⟨hlen, -⟩ := Outcome.ensure_bind_eq_ok_iff.1 h
  obtain ⟨r, rfl⟩ := Record.exists_bytes_eq hlen
  obtain ⟨hversion, hdepth, hfingerprint, hchild, hchain, hkey⟩ := decode_bytes_eq_ok_iff.1 h
  have hbytes := hS.bytes_eq _ _ hkey
  constructor
  · intro hback
    rw [← hback, encode_eq, getElem?_bytes]
    rfl
  · intro hzero
    rw [getElem?_bytes] at hzero
    have hkey' : sk.record.key = r.key := by
      obtain ⟨b, bs, hcons⟩ := List.exists_cons_of_length_eq_add_one r.key.length_eq
      rw [hcons] at hzero hbytes
      apply U8Array.ext
      rw [hcons, Option.some.inj hzero]
      exact congrArg (List.cons 0) hbytes.symm
    have hrecord : sk.record = ⟨r.version, r.depth, r.parentFingerprint, r.childNumber, r.chainCode,
        sk.record.key⟩ := by
      rw [hversion, hdepth, hfingerprint, hchain, ← ChildNumber.toBytes_ofU32 r.childNumber, hchild]
      rfl
    rw [encode_eq, hrecord, hkey']

theorem exists_decode_iff {data : Bytes} (hlen : data.length = 78) :
    (∃ sk : Xpriv S.toSecp256k1, decode data = .ok sk) ↔
      (∃ network, (versionBytesPrivate network).toList = data.take 4) ∧
        ∃ k, S.secretKeyFromSlice (data.drop 46) = .ok k := by
  obtain ⟨r, rfl⟩ := Record.exists_bytes_eq hlen
  have hversion : r.bytes.take 4 = r.version.toList := List.take_left' r.version.length_eq
  rw [hversion, drop_succ_bytes]
  simp only [decode_bytes_eq_ok_iff]
  constructor
  · rintro ⟨sk, hv, -, -, -, -, hk⟩
    exact ⟨⟨sk.network, congrArg U8Array.toList hv.symm⟩, sk.privateKey, hk⟩
  · rintro ⟨⟨network, hv⟩, k, hk⟩
    exact ⟨⟨network, r.depth, r.parentFingerprint, _, k, r.chainCode⟩, (U8Array.ext hv).symm, rfl, rfl, rfl,
      rfl, hk⟩

end Xpriv

/-- What is written is read again if the index of the child number is in its range, and what is read is
written again, for an extended private key only if the byte in front of the secret key is zero. -/
theorem extendedKey_codec_iff (hS : S.Lawful) (hpublic : CompressedCanonical S) (hsecret : S.SecretBytes) :
    (∀ data : Bytes, data.length = 78 →
      ((∀ k : Xpriv S.toSecp256k1, Xpriv.decode data = .ok k → k.encode = data) ↔
        data[45]? = some 0 ∨ (∀ network, (versionBytesPrivate network).toList ≠ data.take 4) ∨
          ∀ k, S.secretKeyFromSlice (data.drop 46) ≠ .ok k)) ∧
    (∀ (data : Bytes) (k : Xpub S.toSecp256k1), Xpub.decode data = .ok k → k.encode = data) ∧
    (∀ k : Xpriv S.toSecp256k1, Xpriv.decode k.encode = .ok k ↔ k.childNumber.InRange) ∧
    ∀ k : Xpub S.toSecp256k1, Xpub.decode k.encode = .ok k ↔ k.childNumber.InRange := by
  refine ⟨fun data hlen => ?_, fun data k h => Xpub.encode_of_decode hpublic h,
    Xpriv.decode_encode_iff hsecret, Xpub.decode_encode_iff hS⟩
  have hexists := Xpriv.exists_decode_iff (S := S) hlen
  by_cases hzero : data[45]? = some 0
  · exact iff_of_true (fun k h => (Xpriv.encode_of_decode_iff hsecret h).2 hzero) (.inl hzero)
  constructor
  · intro hback
    right
    by_contra hboth
    push Not at hboth
    obtain ⟨sk, hsk⟩ := hexists.2 hboth
    exact hzero ((Xpriv.encode_of_decode_iff hsecret hsk).1 (hback sk hsk))
  · intro hcases k hk
    obtain ⟨⟨network, hnetwork⟩, key, hkey⟩ := hexists.1 ⟨k, hk⟩
    rcases hcases with h | h | h
    · exact absurd h hzero
    · exact absurd hnetwork (h network)
    · exact absurd hkey (h key)

/-! ## On the curve -/

theorem compressedCanonical_curve : CompressedCanonical KeyFormats.curve :=
  fun _ _ hlen h => Secp256k1.CurvePoint.compress_of_fromSlice hlen h

theorem secretKeyFromSlice_curve :
    KeyFormats.curve.secretKeyFromSlice = Secp256k1.curve.secretKeyFromSlice := rfl

theorem secretBytes_curve : KeyFormats.curve.SecretBytes where
  fromSlice k := by
    rw [secretKeyFromSlice_curve]
    exact PrivateKey.fromSlice_beBytes k
  bytes_eq bs k h := by
    rw [secretKeyFromSlice_curve] at h
    exact PrivateKey.eq_of_fromSlice h

/-- A master key with the secret key 1, and a byte in front of it. -/
def paddedRecord (padding : UInt8) : Record :=
  ⟨VERSION_BYTES_MAINNET_PRIVATE, 0, .replicate 4 0, .replicate 4 0, .replicate 32 7,
    ⟨padding :: beBytes 32 1, by simp⟩⟩

theorem decode_padded (padding : UInt8) : Xpriv.decode (paddedRecord padding).bytes = .ok
    (⟨.main, 0, .replicate 4 0, .normal 0, ⟨1, Secp256k1.one_lt_groupOrder⟩, .replicate 32 7⟩ :
      Xpriv KeyFormats.curve.toSecp256k1) := by
  have hchild : ChildNumber.ofU32 (UInt32.ofNat (beNat (List.replicate 4 0))) = .normal 0 := by decide
  rw [Xpriv.decode_bytes_eq_ok_iff, secretKeyFromSlice_curve]
  exact ⟨rfl, rfl, rfl, hchild, rfl, PrivateKey.fromSlice_beBytes ⟨1, Secp256k1.one_lt_groupOrder⟩⟩

theorem extendedKey_codec_iff_sample :
    ∃ k : Xpriv KeyFormats.curve.toSecp256k1, Xpriv.decode (paddedRecord 0).bytes = .ok k ∧
      k.encode = (paddedRecord 0).bytes :=
  ⟨_, decode_padded 0, ((extendedKey_codec_iff KeyFormats.curve_lawful compressedCanonical_curve
    secretBytes_curve).1 _ (Record.length_bytes _)).2 (.inl rfl) _ (decode_padded 0)⟩

/-- A key is read, although the byte in front of the secret key is not zero. -/
theorem decode_padded_fails :
    ∃ k : Xpriv KeyFormats.curve.toSecp256k1, (paddedRecord 4).bytes.length = 78 ∧
      Xpriv.decode (paddedRecord 4).bytes = .ok k ∧ k.encode ≠ (paddedRecord 4).bytes := by
  refine ⟨_, Record.length_bytes _, decode_padded 4, fun hback => ?_⟩
  have hpadding := (Xpriv.encode_of_decode_iff secretBytes_curve (decode_padded 4)).1 hback
  rw [Xpriv.getElem?_bytes] at hpadding
  cases hpadding

end Bip32

end RustDogecoin
