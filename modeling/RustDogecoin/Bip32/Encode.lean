import RustDogecoin.Bip32
import RustDogecoin.Crypto.Key

/-!
# Byte forms of hierarchical keys

`bip32.rs`: child numbers as `u32`, the 78 bytes of an extended public key, and the order that the derived
comparison gives extended public keys.  A child number whose index is below `2 ^ 31` comes back from its
`u32` (`ChildNumber.ofU32_toU32`); one with a larger index, which the public fields allow, does not.
-/

namespace RustDogecoin

namespace Bip32

namespace ChildNumber

/-- `ChildNumber::from`. -/
def ofU32 (number : UInt32) : ChildNumber :=
  if number &&& ((1 : UInt32) <<< 31) ≠ 0 then hardened (number ^^^ ((1 : UInt32) <<< 31))
  else normal number

def index : ChildNumber → UInt32
  | normal index => index
  | hardened index => index

/-- The index is within `[0, 2^31 - 1]`, as its documentation has it. -/
def InRange (c : ChildNumber) : Prop := c.index.toNat < 2 ^ 31

instance (c : ChildNumber) : Decidable c.InRange := inferInstanceAs (Decidable (_ < _))

theorem toNat_bit : ((1 : UInt32) <<< 31).toNat = 2 ^ 31 := by decide

/-- The flag is the top bit of the number. -/
theorem and_bit_ne_zero_iff (n : UInt32) :
    n &&& ((1 : UInt32) <<< 31) ≠ 0 ↔ n.toNat.testBit 31 = true := by
  rw [ne_eq, ← UInt32.toNat_inj, UInt32.toNat_and, toNat_bit, UInt32.toNat_zero]
  cases h : n.toNat.testBit 31 with
  | true =>
    refine iff_of_true (fun h0 => ?_) rfl
    have := congrArg (fun m => Nat.testBit m 31) h0
    simp only [Nat.testBit_and, h, Nat.testBit_two_pow_self, Nat.zero_testBit] at this
    cases this
  | false =>
    refine iff_of_false (not_not.2 (Nat.eq_of_testBit_eq fun i => ?_)) (by simp)
    rcases eq_or_ne i 31 with rfl | hi
    · rw [Nat.testBit_and, h, Bool.false_and, Nat.zero_testBit]
    · rw [Nat.testBit_and, Nat.testBit_two_pow_of_ne hi.symm, Bool.and_false, Nat.zero_testBit]

theorem ofU32_toU32 {c : ChildNumber} (h : c.InRange) : ofU32 c.toU32 = c := by
  cases c with
  | normal index =>
    have hlow : index.toNat.testBit 31 = false := Nat.testBit_lt_two_pow h
    rw [toU32, ofU32, if_neg]
    rw [and_bit_ne_zero_iff, hlow]
    exact Bool.false_ne_true
  | hardened index =>
    have hlow : index.toNat.testBit 31 = false := Nat.testBit_lt_two_pow h
    have hflag : (index ||| ((1 : UInt32) <<< 31)) &&& ((1 : UInt32) <<< 31) ≠ 0 := by
      rw [and_bit_ne_zero_iff, UInt32.toNat_or, toNat_bit, Nat.testBit_or, Nat.testBit_two_pow_self,
        Bool.or_true]
    have hxor : (index ||| ((1 : UInt32) <<< 31)) ^^^ ((1 : UInt32) <<< 31) = index := by
      rw [← UInt32.toNat_inj, UInt32.toNat_xor, UInt32.toNat_or, toNat_bit]
      apply Nat.eq_of_testBit_eq
      intro i
      rw [Nat.testBit_xor, Nat.testBit_or]
      rcases eq_or_ne i 31 with rfl | hi
      · rw [hlow, Nat.testBit_two_pow_self]
        rfl
      · rw [Nat.testBit_two_pow_of_ne hi.symm, Bool.or_false, Bool.xor_false]
    rw [toU32, ofU32, if_pos hflag, hxor]

theorem inRange_ofU32 (n : UInt32) : (ofU32 n).InRange := by
  unfold ofU32
  split_ifs with h
  · rw [and_bit_ne_zero_iff] at h
    change (n ^^^ ((1 : UInt32) <<< 31)).toNat < 2 ^ 31
    rw [UInt32.toNat_xor, toNat_bit]
    apply Nat.lt_pow_two_of_testBit
    intro i hi
    rw [Nat.testBit_xor]
    rcases eq_or_ne i 31 with rfl | hne
    · rw [h, Nat.testBit_two_pow_self]
      rfl
    · have hlt : n.toNat < 2 ^ i := n.toNat_lt.trans_le (Nat.pow_le_pow_right (by decide) (by omega))
      rw [Nat.testBit_lt_two_pow hlt, Nat.testBit_two_pow_of_ne hne.symm]
      rfl
  · rw [and_bit_ne_zero_iff, Bool.not_eq_true] at h
    change n.toNat < 2 ^ 31
    by_contra hlt
    have := Nat.testBit_of_two_pow_le_and_two_pow_add_one_gt (Nat.not_lt.1 hlt) n.toNat_lt
    rw [h] at this
    cases this

end ChildNumber

/-! ## Extended public keys -/

def VERSION_BYTES_MAINNET_PUBLIC : U8Array 4 := ⟨[0x04, 0x88, 0xB2, 0x1E], rfl⟩

def VERSION_BYTES_TESTNETS_PUBLIC : U8Array 4 := ⟨[0x04, 0x35, 0x87, 0xCF], rfl⟩

variable {S : KeyFormats}

variable (S) in
/-- `bip32::Error`, as far as `Xpub::decode` returns it. -/
inductive DecodeError where
  | wrongExtendedKeyLength (len : ℕ)
  | unknownVersion (bytes : Bytes)
  | secp256k1 (e : S.Error)

/-- `&data[start..start + n]`, turned into an array. -/
def slice {ε : Type} (data : Bytes) (start n : ℕ) : Outcome ε (U8Array n) :=
  if h : ((data.drop start).take n).length = n then .ok ⟨(data.drop start).take n, h⟩ else .panic .unwrap

def versionBytesPublic : NetworkKind → U8Array 4
  | .main => VERSION_BYTES_MAINNET_PUBLIC
  | .test => VERSION_BYTES_TESTNETS_PUBLIC

/-- The network that the first bytes of an extended public key stand for. -/
def networkOf (data : Bytes) : Outcome (DecodeError S) NetworkKind :=
  if VERSION_BYTES_MAINNET_PUBLIC.toList.isPrefixOf data then .ok .main
  else if VERSION_BYTES_TESTNETS_PUBLIC.toList.isPrefixOf data then .ok .test
  else .err (.unknownVersion (data.take 4))

namespace Xpub

/-- `Xpub::encode`. -/
def encode (pk : Xpub S.toSecp256k1) : Bytes :=
  (versionBytesPublic pk.network).toList ++ ([pk.depth] ++ (pk.parentFingerprint.toList ++
    (beBytes 4 pk.childNumber.toU32.toNat ++ (pk.chainCode.toList ++ (S.serialize pk.publicKey).toList))))

/-- `Xpub::decode`. -/
def decode (data : Bytes) : Outcome (DecodeError S) (Xpub S.toSecp256k1) := do
  .ensure (data.length = 78) (.wrongExtendedKeyLength data.length)
  let network ← networkOf data
  let depth := (data.drop 4).headD 0
  let parentFingerprint ← slice data 5 4
  let childNumber := ChildNumber.ofU32 (UInt32.ofNat (beNat ((data.drop 9).take 4)))
  let chainCode ← slice data 13 32
  let publicKey ← (Outcome.ofExcept
    (S.publicKeyFromSlice ((data.drop 45).take 33))).mapErr .secp256k1
  return ⟨network, depth, parentFingerprint, childNumber, publicKey, chainCode⟩

end Xpub

/-! ## The fields of the 78 bytes -/

/-- The 78 bytes of an extended key, cut into its fields. -/
structure Record where
  version : U8Array 4
  depth : UInt8
  parentFingerprint : Fingerprint
  childNumber : U8Array 4
  chainCode : ChainCode
  key : U8Array 33

namespace Record

def bytes (r : Record) : Bytes :=
  r.version.toList ++ ([r.depth] ++ (r.parentFingerprint.toList ++
    (r.childNumber.toList ++ (r.chainCode.toList ++ r.key.toList))))

theorem length_bytes (r : Record) : r.bytes.length = 78 := by simp [bytes]

/-- All strings of this length are records. -/
theorem exists_bytes_eq {data : Bytes} (h : data.length = 78) : ∃ r : Record, r.bytes = data := by
  refine ⟨⟨⟨data.take 4, ?_⟩, (data.drop 4).headD 0, ⟨(data.drop 5).take 4, ?_⟩, ⟨(data.drop 9).take 4, ?_⟩,
    ⟨(data.drop 13).take 32, ?_⟩, ⟨data.drop 45, ?_⟩⟩, ?_⟩
  · simp [h]
  · simp [h]
  · simp [h]
  · simp [h]
  · simp [h]
  · have hdepth : [(data.drop 4).headD 0] = (data.drop 4).take 1 := by
      rw [List.take_one, List.headD_eq_head?_getD]
      cases hdrop : data.drop 4 with
      | nil =>
        rw [List.drop_eq_nil_iff, h] at hdrop
        omega
      | cons b bs => rfl
    have hcut : ∀ i n : ℕ, data.drop i = (data.drop i).take n ++ data.drop (i + n) := by
      intro i n
      rw [← List.drop_drop, List.take_append_drop]
    rw [bytes, hdepth, ← hcut 13 32, ← hcut 9 4, ← hcut 5 4, ← hcut 4 1]
    exact List.take_append_drop 4 data

variable (r : Record)

theorem head_drop_bytes : (r.bytes.drop 4).headD 0 = r.depth := by
  rw [bytes, List.drop_left' (U8Array.length_eq _)]
  rfl

/-- A slice that begins where a field does. -/
theorem slice_append {ε : Type} {pre post : Bytes} {start n : ℕ} (hpre : pre.length = start)
    (a : U8Array n) : (slice (pre ++ (a.toList ++ post)) start n : Outcome ε _) = .ok a := by
  have hcut : ((pre ++ (a.toList ++ post)).drop start).take n = a.toList := by
    rw [List.drop_left' hpre, List.take_left' a.length_eq]
  rw [slice, dif_pos (by rw [hcut, a.length_eq])]
  simp only [hcut]

theorem slice_parentFingerprint {ε : Type} : (slice r.bytes 5 4 : Outcome ε _) = .ok r.parentFingerprint := by
  rw [bytes, ← List.append_assoc]
  exact slice_append (by simp) r.parentFingerprint

theorem slice_chainCode {ε : Type} : (slice r.bytes 13 32 : Outcome ε _) = .ok r.chainCode := by
  rw [bytes, ← List.append_assoc, ← List.append_assoc, ← List.append_assoc]
  exact slice_append (by simp) r.chainCode

theorem take_drop_bytes : (r.bytes.drop 9).take 4 = r.childNumber.toList := by
  rw [bytes, ← List.append_assoc, ← List.append_assoc, List.drop_left' (by simp), List.take_left' (by simp)]

theorem drop_bytes : r.bytes.drop 45 = r.key.toList := by
  rw [bytes, ← List.append_assoc, ← List.append_assoc, ← List.append_assoc, ← List.append_assoc,
    List.drop_left' (by simp)]

theorem isPrefixOf_bytes (v : U8Array 4) : v.toList.isPrefixOf r.bytes = true ↔ r.version = v := by
  rw [List.isPrefixOf_iff_prefix, bytes]
  constructor
  · intro h
    have hle := List.prefix_of_prefix_length_le h (List.prefix_append _ _) (by simp)
    exact (U8Array.ext (hle.eq_of_length (by simp))).symm
  · rintro rfl
    exact List.prefix_append _ _

end Record

/-- The bytes of a child number. -/
def ChildNumber.toBytes (c : ChildNumber) : U8Array 4 := ⟨beBytes 4 c.toU32.toNat, length_beBytes _ _⟩

theorem ChildNumber.beNat_toBytes (c : ChildNumber) :
    UInt32.ofNat (beNat c.toBytes.toList) = c.toU32 := by
  rw [toBytes, beNat_beBytes_of_lt c.toU32.toNat_lt, UInt32.ofNat_toNat]

/-- The fields of an extended public key. -/
def Xpub.record (pk : Xpub S.toSecp256k1) : Record :=
  ⟨versionBytesPublic pk.network, pk.depth, pk.parentFingerprint, pk.childNumber.toBytes, pk.chainCode,
    S.serialize pk.publicKey⟩

theorem Xpub.encode_eq (pk : Xpub S.toSecp256k1) : pk.encode = pk.record.bytes := rfl

theorem Xpub.length_encode (pk : Xpub S.toSecp256k1) : pk.encode.length = 78 := pk.record.length_bytes

/-- Of two versions the one that the bytes begin with says what the network is. -/
theorem Record.network_eq_ok_iff (r : Record) {main test : U8Array 4} (hne : main ≠ test) {e : DecodeError S}
    {network : NetworkKind} :
    (if main.toList.isPrefixOf r.bytes then .ok .main
      else if test.toList.isPrefixOf r.bytes then .ok .test else .err e : Outcome _ NetworkKind) = .ok network ↔
      r.version = match network with
        | .main => main
        | .test => test := by
  simp only [r.isPrefixOf_bytes]
  cases network with
  | main =>
    split_ifs with hmain htest
    · simp [hmain]
    · simp [hmain]
    · simp [hmain]
  | test =>
    split_ifs with hmain htest
    · simp [hmain, hne]
    · simp [htest]
    · simp [htest]

theorem networkOf_bytes (r : Record) {network : NetworkKind} :
    (networkOf r.bytes : Outcome (DecodeError S) _) = .ok network ↔ r.version = versionBytesPublic network := by
  have hne : VERSION_BYTES_MAINNET_PUBLIC ≠ VERSION_BYTES_TESTNETS_PUBLIC := by decide
  rw [networkOf, r.network_eq_ok_iff hne]
  cases network with
  | main => rfl
  | test => rfl

/-- What `decode` takes from the fields. -/
theorem Xpub.decode_bytes_eq_ok_iff {r : Record} {pk : Xpub S.toSecp256k1} :
    Xpub.decode r.bytes = .ok pk ↔ r.version = versionBytesPublic pk.network ∧ r.depth = pk.depth ∧
      r.parentFingerprint = pk.parentFingerprint ∧
      ChildNumber.ofU32 (UInt32.ofNat (beNat r.childNumber.toList)) = pk.childNumber ∧
      r.chainCode = pk.chainCode ∧ S.publicKeyFromSlice r.key.toList = .ok pk.publicKey := by
  have hkey : (r.bytes.drop 45).take 33 = r.key.toList := by
    rw [r.drop_bytes, List.take_of_length_le (by simp)]
  unfold Xpub.decode
  rw [Outcome.ensure_of r.length_bytes, Outcome.ok_bind]
  simp only [r.slice_parentFingerprint, r.slice_chainCode, r.head_drop_bytes, r.take_drop_bytes, hkey,
    Outcome.ok_bind, Outcome.bind_eq_ok_iff, networkOf_bytes, Outcome.mapErr_eq_ok_iff,
    Outcome.ofExcept_eq_ok_iff, Outcome.pure_eq_ok, Outcome.ok.injEq]
  constructor
  · rintro ⟨network, hversion, key, hkey, rfl⟩
    exact ⟨hversion, rfl, rfl, rfl, rfl, hkey⟩
  · rintro ⟨hversion, hdepth, hfingerprint, hchild, hchain, hkey⟩
    refine ⟨_, hversion, _, hkey, ?_⟩
    rw [hdepth, hfingerprint, hchild, hchain]

theorem Xpub.decode_encode_of_inRange (hS : S.Lawful) {pk : Xpub S.toSecp256k1} (hc : pk.childNumber.InRange) :
    Xpub.decode pk.encode = .ok pk := by
  rw [Xpub.encode_eq, Xpub.decode_bytes_eq_ok_iff]
  refine ⟨rfl, rfl, rfl, ?_, rfl, hS.publicKey pk.publicKey⟩
  change ChildNumber.ofU32 (UInt32.ofNat (beNat pk.childNumber.toBytes.toList)) = _
  rw [ChildNumber.beNat_toBytes, ChildNumber.ofU32_toU32 hc]

/-- The child number of a decoded key is within its range. -/
theorem Xpub.inRange_of_decode {data : Bytes} {pk : Xpub S.toSecp256k1}
    (h : Xpub.decode data = .ok pk) : data.length = 78 ∧ pk.childNumber.InRange := by
  obtain ⟨hlen, h⟩ := Outcome.ensure_bind_eq_ok_iff.1 h
  obtain ⟨network, -, h⟩ := Outcome.bind_eq_ok_iff.1 h
  obtain ⟨fingerprint, -, h⟩ := Outcome.bind_eq_ok_iff.1 h
  obtain ⟨chain, -, h⟩ := Outcome.bind_eq_ok_iff.1 h
  obtain ⟨key, -, h⟩ := Outcome.bind_eq_ok_iff.1 h
  cases h
  exact ⟨hlen, ChildNumber.inRange_ofU32 _⟩

/-! ## The order of extended public keys -/

def ChildNumber.rank : ChildNumber → ℕ ×ₗ ℕ
  | normal index => toLex (0, index.toNat)
  | hardened index => toLex (1, index.toNat)

theorem ChildNumber.rank_injective : Function.Injective ChildNumber.rank := by
  rintro (i | i) (j | j) h
  all_goals simp [rank, UInt32.toNat_inj] at h
  · rw [h]
  · rw [h]

def NetworkKind.rank : NetworkKind → ℕ
  | .main => 0
  | .test => 1

/-- The fields in the order of their declaration, which is that of the derived comparison. -/
def Xpub.rank (pk : Xpub S.toSecp256k1) :
    ℕ ×ₗ ℕ ×ₗ Fingerprint ×ₗ (ℕ ×ₗ ℕ) ×ₗ S.PublicKey ×ₗ ChainCode :=
  toLex (NetworkKind.rank pk.network, toLex (pk.depth.toNat, toLex (pk.parentFingerprint,
    toLex (pk.childNumber.rank, toLex (pk.publicKey, pk.chainCode)))))

theorem Xpub.rank_injective : Function.Injective (Xpub.rank (S := S)) := by
  rintro ⟨network, depth, fingerprint, child, key, chain⟩
    ⟨network', depth', fingerprint', child', key', chain'⟩ h
  simp only [rank, EmbeddingLike.apply_eq_iff_eq, Prod.mk.injEq, UInt8.toNat_inj] at h
  obtain ⟨hnet, rfl, rfl, hchild, rfl, rfl⟩ := h
  cases ChildNumber.rank_injective hchild
  cases network <;> cases network' <;> first | rfl | cases hnet

instance : LinearOrder (Xpub S.toSecp256k1) := LinearOrder.lift' Xpub.rank Xpub.rank_injective

instance : Std.TransCmp (compare : Xpub S.toSecp256k1 → Xpub S.toSecp256k1 → Ordering) :=
  BTreeMap.transCmp

end Bip32

end RustDogecoin
