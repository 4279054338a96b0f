import RustDogecoin.Base58
import RustDogecoin.Bip32

/-!
# Private keys in wallet import format

`PrivateKey::to_wif` and `PrivateKey::from_wif`.  The text is the base58check form of a version byte for the
network, the secret key, and for a compressed key a final byte 1.  `from_wif` takes a payload of 34 bytes for
that of a compressed key and does not look at the final byte, so that it reads back what was written, and
also accepts texts that are never written (`fromWif_toWif_iff`).
-/

namespace RustDogecoin

variable {S : Secp256k1}

/-- Secret keys are parsed from their bytes, and from no others. -/
structure Secp256k1.SecretBytes (S : Secp256k1) : Prop where
  fromSlice : ∀ k, S.secretKeyFromSlice (S.secretBytes k).toList = .ok k
  bytes_eq : ∀ bs k, S.secretKeyFromSlice bs = .ok k → bs = (S.secretBytes k).toList

/-- `NetworkKind::is_mainnet`. -/
def NetworkKind.isMainnet (network : NetworkKind) : Bool := network = .main

/-- `PrivateKey`. -/
structure PrivateKey (S : Secp256k1) where
  compressed : Bool
  network : NetworkKind
  inner : S.SecretKey

/-- `FromWifError`. -/
inductive FromWifError (S : Secp256k1) where
  | base58 (e : Base58.Error)
  | invalidBase58PayloadLength (length : ℕ)
  | invalidAddressVersion (invalid : UInt8)
  | secp256k1 (e : S.Error)

namespace PrivateKey

/-- The version byte of a network. -/
def versionByte (network : NetworkKind) : UInt8 := if network.isMainnet then 128 else 239

/-- `PrivateKey::to_wif`, with `fmt_wif`. -/
def toWif (k : PrivateKey S) : Outcome Empty String :=
  let ret := versionByte k.network :: (S.secretBytes k.inner).toList
  if k.compressed then Base58.encodeCheck (ret ++ [1]) else Base58.encodeCheck ret

/-- `PrivateKey::from_wif`. -/
def fromWif (wif : String) : Outcome (FromWifError S) (PrivateKey S) := do
  let data ← (Base58.decodeCheck wif).mapErr .base58
  let compressed ← (
    if data.length = 33 then .ok false
    else if data.length = 34 then .ok true
    else .err (.invalidBase58PayloadLength data.length) : Outcome (FromWifError S) Bool)
  let network ← (
    match data[0]? with
    | none => .panic .outOfBounds
    | some invalid =>
      if invalid = 128 then .ok .main
      else if invalid = 239 then .ok .test
      else .err (.invalidAddressVersion invalid) : Outcome (FromWifError S) NetworkKind)
  let inner ← (Outcome.ofExcept (S.secretKeyFromSlice ((data.take 33).drop 1))).mapErr .secp256k1
  return ⟨compressed, network, inner⟩

/-! ## The payload -/

/-- The payload of a key. -/
def payload (k : PrivateKey S) : Bytes :=
  versionByte k.network :: (S.secretBytes k.inner).toList ++ if k.compressed then [1] else []

theorem toWif_eq_ok_iff {k : PrivateKey S} {s : String} :
    k.toWif = .ok s ↔ Base58.decodeCheck s = .ok k.payload := by
  rw [← Base58.encodeCheckToFmt_eq_ok_iff, Base58.encodeCheckToFmt, payload, toWif]
  cases k.compressed with
  | true => rfl
  | false =>
    rw [if_neg Bool.false_ne_true, if_neg Bool.false_ne_true, List.append_nil]
    rfl

theorem versionByte_cases {b : UInt8} {network : NetworkKind} :
    (if b = 128 then .ok .main else if b = 239 then .ok .test else .err (.invalidAddressVersion b) :
      Outcome (FromWifError S) NetworkKind) = .ok network ↔ b = versionByte network := by
  by_cases hmain : b = 128
  · subst hmain
    cases network <;> simp [versionByte, NetworkKind.isMainnet]
  · by_cases htest : b = 239
    · subst htest
      cases network <;> simp [versionByte, NetworkKind.isMainnet]
    · rw [if_neg hmain, if_neg htest]
      cases network <;> simp [versionByte, NetworkKind.isMainnet, hmain, htest]

theorem length_cases {n : ℕ} {compressed : Bool} :
    (if n = 33 then .ok false else if n = 34 then .ok true else .err (.invalidBase58PayloadLength n) :
      Outcome (FromWifError S) Bool) = .ok compressed ↔ n = 33 + if compressed then 1 else 0 := by
  by_cases h33 : n = 33
  · subst h33
    cases compressed <;> simp
  · by_cases h34 : n = 34
    · subst h34
      cases compressed <;> simp
    · rw [if_neg h33, if_neg h34]
      cases compressed <;> simp [h33, h34]

/-- A key is read from the texts of its version byte and its secret key, followed by one more byte if it is
compressed. -/
theorem fromWif_eq_ok_iff (hS : S.SecretBytes) {s : String} {k : PrivateKey S} :
    fromWif s = .ok k ↔ ∃ rest, rest.length = (if k.compressed then 1 else 0) ∧
      Base58.decodeCheck s = .ok (versionByte k.network :: (S.secretBytes k.inner).toList ++ rest) := by
  constructor
  · intro h
    obtain ⟨data, hdata, h⟩ := Outcome.bind_eq_ok_iff.1 h
    obtain ⟨compressed, hcompressed, h⟩ := Outcome.bind_eq_ok_iff.1 h
    obtain ⟨network, hnetwork, h⟩ := Outcome.bind_eq_ok_iff.1 h
    obtain ⟨inner, hinner, h⟩ := Outcome.bind_eq_ok_iff.1 h
    cases h
    have hlen := length_cases.1 hcompressed
    have hbytes := hS.bytes_eq _ _ (Outcome.ofExcept_eq_ok_iff.1 (Outcome.mapErr_eq_ok_iff.1 hinner))
    cases data with
    | nil => cases hnetwork
    | cons b data =>
      obtain rfl := versionByte_cases.1 hnetwork
      rw [List.take_succ_cons, List.drop_succ_cons, List.drop_zero] at hbytes
      refine ⟨data.drop 32, ?_, ?_⟩
      · rw [List.length_drop]
        rw [List.length_cons] at hlen
        dsimp only at hlen ⊢
        omega
      · rw [Outcome.mapErr_eq_ok_iff.1 hdata, List.cons_append, ← hbytes, List.take_append_drop]
  · rintro ⟨rest, hrest, hdata⟩
    obtain ⟨compressed, network, inner⟩ := k
    dsimp only at hrest hdata
    unfold fromWif
    have hlen : (versionByte network :: (S.secretBytes inner).toList ++ rest).length =
        33 + if compressed then 1 else 0 := by
      rw [List.length_append, List.length_cons, (S.secretBytes inner).length_eq, hrest]
    have hbytes : ((versionByte network :: (S.secretBytes inner).toList ++ rest).take 33).drop 1 =
        (S.secretBytes inner).toList := by
      rw [List.cons_append, List.take_succ_cons, List.drop_succ_cons, List.drop_zero,
        List.take_left' (S.secretBytes inner).length_eq]
    rw [hdata, Outcome.mapErr_ok, Outcome.ok_bind, length_cases.2 hlen, Outcome.ok_bind, List.cons_append,
      List.getElem?_cons_zero]
    dsimp only
    rw [versionByte_cases.2 rfl, Outcome.ok_bind, ← List.cons_append, hbytes, hS.fromSlice]
    rfl

/-- The text of a version byte, a secret key and a final byte that is not 1. -/
def Misflagged (S : Secp256k1) (s : String) : Prop :=
  ∃ (network : NetworkKind) (inner : S.SecretKey) (flag : UInt8), flag ≠ 1 ∧
    Base58.encodeCheck (versionByte network :: (S.secretBytes inner).toList ++ [flag]) = .ok s

theorem encodeCheck_eq_ok_iff {data : Bytes} {s : String} :
    Base58.encodeCheck data = .ok s ↔ Base58.decodeCheck s = .ok data := Base58.encodeCheckToFmt_eq_ok_iff

/-- What `to_wif` writes is read back, and a text that is read is the one that `to_wif` writes exactly if
it is not misflagged. -/
theorem fromWif_toWif_iff (hS : S.SecretBytes) :
    (∀ k : PrivateKey S, ∃ s, k.toWif = .ok s ∧ fromWif s = .ok k) ∧
      ∀ s, (∀ k : PrivateKey S, fromWif s = .ok k → k.toWif = .ok s) ↔ ¬Misflagged S s := by
  refine ⟨fun k => ?_, fun s => ⟨?_, ?_⟩⟩
  · have hdecode := encodeCheck_eq_ok_iff.1 (Base58.formatIter_eq (Base58.withChecksum k.payload))
    refine ⟨_, toWif_eq_ok_iff.2 hdecode, (fromWif_eq_ok_iff hS).2 ⟨_, ?_, hdecode⟩⟩
    cases k.compressed <;> rfl
  · rintro h ⟨network, inner, flag, hflag, htext⟩
    rw [encodeCheck_eq_ok_iff] at htext
    -- the final byte is not looked at, and comes out as 1
    have hread : fromWif s = .ok (⟨true, network, inner⟩ : PrivateKey S) :=
      (fromWif_eq_ok_iff hS).2 ⟨[flag], rfl, htext⟩
    have hpayload := Outcome.ok.inj (htext.symm.trans (toWif_eq_ok_iff.1 (h _ hread)))
    rw [payload, if_pos rfl] at hpayload
    have hlast := List.append_cancel_left hpayload
    exact hflag (List.singleton_inj.1 hlast)
  · intro h k hk
    obtain ⟨rest, hrest, hdata⟩ := (fromWif_eq_ok_iff hS).1 hk
    rw [toWif_eq_ok_iff, hdata, payload]
    cases hcompressed : k.compressed with
    | false =>
      rw [hcompressed, if_neg Bool.false_ne_true, List.length_eq_zero_iff] at hrest
      rw [hrest, if_neg Bool.false_ne_true]
    | true =>
      rw [hcompressed, if_pos rfl] at hrest
      obtain ⟨flag, rfl⟩ := List.length_eq_one_iff.1 hrest
      by_cases hflag : flag = 1
      · rw [hflag, if_pos rfl]
      · exact absurd ⟨k.network, k.inner, flag, hflag, encodeCheck_eq_ok_iff.2 hdata⟩ h

/-! ## Keys of the curve -/

theorem groupOrder_lt : Secp256k1.groupOrder < 256 ^ 32 := by decide

theorem fromSlice_curve (bs : Bytes) : Secp256k1.curve.secretKeyFromSlice bs =
    if bs.length = 32 then Secp256k1.Scalar.ofNat (beNat bs) .invalidSecretKey
    else .error .invalidSecretKey := rfl

theorem fromSlice_beBytes (k : Secp256k1.Scalar) :
    Secp256k1.curve.secretKeyFromSlice (beBytes 32 k.1) = .ok k := by
  have hlt : k.1 < 256 ^ 32 := lt_trans k.2.2 groupOrder_lt
  rw [fromSlice_curve, if_pos (length_beBytes 32 k.1), beNat_beBytes_of_lt hlt, Secp256k1.Scalar.ofNat,
    dif_pos k.2]
  rfl

theorem eq_of_fromSlice {bs : Bytes} {k : Secp256k1.Scalar}
    (h : Secp256k1.curve.secretKeyFromSlice bs = .ok k) : bs = beBytes 32 k.1 := by
  rw [fromSlice_curve] at h
  split_ifs at h with hlen
  unfold Secp256k1.Scalar.ofNat at h
  split_ifs at h
  cases h
  rw [← hlen, beBytes_beNat]

theorem secretBytes_curve : Secp256k1.curve.SecretBytes where
  fromSlice := fromSlice_beBytes
  bytes_eq _ _ h := eq_of_fromSlice h

/-- The secret key 1. -/
def sampleInner : Secp256k1.curve.SecretKey := ⟨1, Secp256k1.one_lt_groupOrder⟩

theorem fromWif_toWif_sample :
    ∃ s, (⟨true, .main, sampleInner⟩ : PrivateKey Secp256k1.curve).toWif = .ok s ∧
      fromWif s = .ok (⟨true, .main, sampleInner⟩ : PrivateKey Secp256k1.curve) :=
  (fromWif_toWif_iff secretBytes_curve).1 _

/-- The text of a version byte, the secret key 1 and a final byte 0. -/
theorem decodeCheck_sample : Base58.decodeCheck "KwDiBf89QgGbjEhKnhXJuH7LrciVrZi3qYjgd9M7rFU73sMvhksF" =
    .ok (versionByte .main :: (Secp256k1.curve.secretBytes sampleInner).toList ++ [0]) := by
  decide +kernel

/-- A payload that ends in 0 is read as that of a compressed key, whose text is another. -/
theorem not_toWif_of_fromWif_sample :
    fromWif "KwDiBf89QgGbjEhKnhXJuH7LrciVrZi3qYjgd9M7rFU73sMvhksF" =
        .ok (⟨true, .main, sampleInner⟩ : PrivateKey Secp256k1.curve) ∧
      (⟨true, .main, sampleInner⟩ : PrivateKey Secp256k1.curve).toWif ≠
        .ok "KwDiBf89QgGbjEhKnhXJuH7LrciVrZi3qYjgd9M7rFU73sMvhksF" := by
  refine ⟨(fromWif_eq_ok_iff secretBytes_curve).2 ⟨[0], rfl, decodeCheck_sample⟩, fun h => ?_⟩
  have hpayload := Outcome.ok.inj (decodeCheck_sample.symm.trans (toWif_eq_ok_iff.1 h))
  rw [payload, if_pos rfl] at hpayload
  cases List.append_cancel_left hpayload

end PrivateKey

end RustDogecoin
