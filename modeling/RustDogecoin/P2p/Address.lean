import RustDogecoin.Consensus.Encode

/-!
# Network addresses

`Address`, `AddrV2` and `AddrV2Message` of `p2p/address.rs`.  An `AddrV2` is written as the id of its
network and its bytes.  The decoder refuses the pairs that another id should have been used for, so
the codec is lawful on the addresses that are `AddrV2.Representable`.
-/

namespace RustDogecoin

abbrev ServiceFlags := UInt64

/-- `[u16; n]`. -/
abbrev U16Array (n : ℕ) := {ws : List UInt16 // ws.length = n}

/-- `Ipv6Addr`, by its segments. -/
abbrev Ipv6Addr := U16Array 8

/-- `Ipv4Addr`, by its octets. -/
abbrev Ipv4Addr := U8Array 4

/-! ## Words in network order -/

/-- `u16::to_be_bytes`. -/
def toBeBytes (x : UInt16) : Bytes := beBytes 2 x.toNat

/-- `u16::from_be_bytes`. -/
def fromBeBytes (buf : Bytes) : UInt16 := UInt16.ofNat (beNat buf)

/-- `u16::swap_bytes`. -/
def swapBytes (x : UInt16) : UInt16 := UInt16.ofNat (beNat (leBytes 2 x.toNat))

def encodeWord : Encoder UInt16 := fun word => .ok ⟨toBeBytes word, 2⟩

def readBeWord : Read UInt16 := fromBeBytes <$> readSlice 2

/-- A port is read as a little-endian number whose bytes are then swapped. -/
def decodePort : Read UInt16 := swapBytes <$> u16.consensusDecode

theorem toBeBytes_fromBeBytes {buf : Bytes} (h : buf.length = 2) : toBeBytes (fromBeBytes buf) = buf := by
  have hlt : beNat buf < 2 ^ 16 := by
    have h' := beNat_lt buf
    rwa [h] at h'
  rw [toBeBytes, fromBeBytes, UInt16.toNat_ofNat_of_lt' hlt, ← h, beBytes_beNat]

theorem lawful_word : Lawful encodeWord readBeWord fun _ => True := by
  refine ⟨?_, ?_, ?_⟩
  · intro x w e
    obtain rfl := Outcome.ok.inj e
    rfl
  · intro x w _ e rest
    obtain rfl := Outcome.ok.inj e
    refine Decoder.run_map_eq_ok_iff.2
      ⟨toBeBytes x, Decoder.run_readExact_append _ (length_beBytes _ _) rest, ?_⟩
    rw [fromBeBytes, toBeBytes, beNat_beBytes_of_lt x.toNat_lt, UInt16.ofNat_toNat]
  · intro bs x rest hr
    obtain ⟨buf, hbuf, rfl⟩ := Decoder.run_map_eq_ok_iff.1 hr
    obtain ⟨rfl, hlen⟩ := Decoder.run_readExact_eq_ok_iff.1 hbuf
    refine ⟨trivial, _, rfl, ?_⟩
    rw [toBeBytes_fromBeBytes hlen]

/-- The bytes of a swapped word, from the least significant one, are those in network order. -/
theorem leBytes_swapBytes (x : UInt16) : leBytes 2 (swapBytes x).toNat = toBeBytes x := by
  have hlt := beNat_lt (leBytes 2 x.toNat)
  rw [length_leBytes] at hlt
  have hback := leBytes_leNat (leBytes 2 x.toNat).reverse
  rw [List.length_reverse, length_leBytes] at hback
  rw [swapBytes, UInt16.toNat_ofNat_of_lt' hlt, beNat, hback]
  rfl

theorem swapBytes_swapBytes (x : UInt16) : swapBytes (swapBytes x) = x := by
  rw [swapBytes, leBytes_swapBytes, toBeBytes, beNat_beBytes_of_lt x.toNat_lt, UInt16.ofNat_toNat]

def swapEquiv : UInt16 ≃ UInt16 := ⟨swapBytes, swapBytes, swapBytes_swapBytes, swapBytes_swapBytes⟩

theorem lawful_port : Lawful encodeWord decodePort fun _ => True := by
  have h := lawful_u16.finite.xmap swapEquiv
  have henc : encodeWord = fun x => u16.consensusEncode (swapEquiv x) := by
    funext x
    rw [encodeWord, ← leBytes_swapBytes]
    rfl
  rw [henc]
  exact h

/-- `read_be_address`. -/
def readBeAddress : Read (U16Array 8) := (readBeWord.times 8).attach fun _ _ _ => Decoder.length_of_times

def encodeBeAddress : Encoder (U16Array 8) := fun address => encodeWord.list address.1

theorem lawful_beAddress : Lawful encodeBeAddress readBeAddress fun _ => True :=
  ((lawful_word.times 8).attach fun _ _ _ => Decoder.length_of_times).congr fun a => by simp [a.2]

/-- `Ipv6Addr::octets`. -/
def octets (addr : Ipv6Addr) : Bytes := addr.1.flatMap toBeBytes

theorem encodeWord_list (ws : List UInt16) :
    encodeWord.list ws = .ok (.ofBytes (ws.flatMap toBeBytes)) := by
  induction ws with
  | nil => rfl
  | cons x ws ih =>
    refine Encoder.list_cons_eq_ok_iff.2 ⟨_, _, rfl, ih, ?_⟩
    simp only [Written.ofBytes, List.flatMap_cons, List.length_append]
    show _ = (⟨_ ++ _, _ + _⟩ : Written)
    rw [show (toBeBytes x).length = 2 from length_beBytes _ _]

theorem encodeBeAddress_eq (addr : Ipv6Addr) : encodeBeAddress addr = .ok (.ofBytes (octets addr)) :=
  encodeWord_list addr.1

theorem length_flatMap_toBeBytes (ws : List UInt16) : (ws.flatMap toBeBytes).length = 2 * ws.length :=
  Encoder.length_list (k := 2) (fun x w e => by
    obtain rfl := Outcome.ok.inj e
    exact length_beBytes _ _) (encodeWord_list ws)

theorem length_octets (addr : Ipv6Addr) : (octets addr).length = 16 := by
  rw [octets, length_flatMap_toBeBytes, addr.2]

/-! ## Addresses -/

/-- A message which can be sent on the Bitcoin network. -/
structure Address where
  services : ServiceFlags
  address : U16Array 8
  port : UInt16
  deriving DecidableEq

def Address.equiv : Address ≃ ServiceFlags × U16Array 8 × UInt16 where
  toFun a := (a.services, a.address, a.port)
  invFun p := ⟨p.1, p.2.1, p.2.2⟩
  left_inv _ := rfl
  right_inv _ := rfl

def Address.codec : Codec Address :=
  .ofDecode (fun a => (u64.consensusEncode.seq (encodeBeAddress.seq encodeWord)) (Address.equiv a))
    (Address.equiv.symm <$> u64.consensusDecode.seq (readBeAddress.seq decodePort))

theorem Address.lawful : Address.codec.IsLawful fun _ => True :=
  .ofDecode (((lawful_u64.finite.seq (lawful_beAddress.seq lawful_port)).xmap Address.equiv).congr
    fun _ => by simp)

/-! ## Addresses of several networks -/

/-- The first words of an OnionCat address. -/
def ONION : List UInt16 := [0xFD87, 0xD87E, 0xEB43]

/-- Supported networks for use in BIP155 addrv2 message. -/
inductive AddrV2 where
  | ipv4 (addr : Ipv4Addr)
  | ipv6 (addr : Ipv6Addr)
  | torV2 (bytes : U8Array 10)
  | torV3 (bytes : U8Array 32)
  | i2p (bytes : U8Array 32)
  | cjdns (addr : Ipv6Addr)
  | unknown (network : UInt8) (bytes : Bytes)
  deriving DecidableEq

namespace AddrV2

def encodeAddr (network : UInt8) (bytes : Bytes) : Outcome Empty Written := do
  let network ← u8.consensusEncode network
  let len ← encodeLen bytes.length
  return network ++ len ++ .ofBytes bytes

def consensusEncode : Encoder AddrV2
  | ipv4 addr => encodeAddr 1 addr.toList
  | ipv6 addr => encodeAddr 2 (octets addr)
  | torV2 bytes => encodeAddr 3 bytes.toList
  | torV3 bytes => encodeAddr 4 bytes.toList
  | i2p bytes => encodeAddr 5 bytes.toList
  | cjdns addr => encodeAddr 6 (octets addr)
  | unknown network bytes => encodeAddr network bytes

/-- The branches of `consensus_decode`, one for each id that is known. -/
def decodeBytes (networkId : UInt8) (len : ℕ) : Read AddrV2 := do
  if networkId = 1 then
    Decoder.ensure (len = 4) (.parseFailed "Invalid IPv4 address")
    return .ipv4 (← (u8Array 4).consensusDecode)
  else if networkId = 2 then
    Decoder.ensure (len = 16) (.parseFailed "Invalid IPv6 address")
    let addr ← readBeAddress
    Decoder.ensure (addr.1.take 3 ≠ ONION)
      (.parseFailed "OnionCat address sent with IPv6 network id")
    Decoder.ensure (addr.1.take 6 ≠ [0x0000, 0x0000, 0x0000, 0x0000, 0x0000, 0xFFFF])
      (.parseFailed "IPV4 wrapped address sent with IPv6 network id")
    return .ipv6 addr
  else if networkId = 3 then
    Decoder.ensure (len = 10) (.parseFailed "Invalid TorV2 address")
    return .torV2 (← (u8Array 10).consensusDecode)
  else if networkId = 4 then
    Decoder.ensure (len = 32) (.parseFailed "Invalid TorV3 address")
    return .torV3 (← (u8Array 32).consensusDecode)
  else if networkId = 5 then
    Decoder.ensure (len = 32) (.parseFailed "Invalid I2P address")
    return .i2p (← (u8Array 32).consensusDecode)
  else if networkId = 6 then
    Decoder.ensure (len = 16) (.parseFailed "Invalid CJDNS address")
    let addr ← readBeAddress
    -- check the first byte for the CJDNS marker
    Decoder.ensure (addr.1.headD 0 >>> 8 = 0xFC) (.parseFailed "Invalid CJDNS address")
    return .cjdns addr
  else
    return .unknown networkId (← readSlice len)

def consensusDecode : Read AddrV2 := do
  let networkId ← u8.consensusDecode
  let len ← decodeLen
  Decoder.ensure (len ≤ 512) (.parseFailed "IP must be <= 512 bytes")
  decodeBytes networkId len

def codec : Codec AddrV2 := .ofDecode consensusEncode consensusDecode

/-! ### Laws -/

/-- The id that the address is sent with. -/
def network : AddrV2 → UInt8
  | ipv4 _ => 1
  | ipv6 _ => 2
  | torV2 _ => 3
  | torV3 _ => 4
  | i2p _ => 5
  | cjdns _ => 6
  | unknown network _ => network

def bytes : AddrV2 → Bytes
  | ipv4 addr => addr.toList
  | ipv6 addr => octets addr
  | torV2 bytes => bytes.toList
  | torV3 bytes => bytes.toList
  | i2p bytes => bytes.toList
  | cjdns addr => octets addr
  | unknown _ bytes => bytes

/-- Addresses that the decoder can return. -/
def Representable : AddrV2 → Prop
  | ipv6 addr =>
    addr.1.take 3 ≠ ONION ∧ addr.1.take 6 ≠ [0x0000, 0x0000, 0x0000, 0x0000, 0x0000, 0xFFFF]
  | cjdns addr => addr.1.headD 0 >>> 8 = 0xFC
  | unknown network bytes =>
    network ≠ 1 ∧ network ≠ 2 ∧ network ≠ 3 ∧ network ≠ 4 ∧ network ≠ 5 ∧ network ≠ 6 ∧
      bytes.length ≤ 512
  | _ => True

theorem consensusEncode_eq (a : AddrV2) : a.consensusEncode = encodeAddr a.network a.bytes := by
  cases a <;> rfl

theorem consensusEncode_eq_ok_iff {a : AddrV2} {w : Written} :
    consensusEncode a = .ok w ↔ ∃ l, encodeLen a.bytes.length = .ok l ∧
      w = ⟨leBytes 1 a.network.toNat, 1⟩ ++ l ++ .ofBytes a.bytes := by
  rw [consensusEncode_eq, encodeAddr]
  show (encodeLen a.bytes.length >>= fun l =>
    Outcome.ok (⟨leBytes 1 a.network.toNat, 1⟩ ++ l ++ .ofBytes a.bytes)) = .ok w ↔ _
  rw [Outcome.bind_eq_ok_iff]
  exact ⟨fun ⟨l, hl, e⟩ => ⟨l, hl, (Outcome.ok.inj e).symm⟩,
    fun ⟨l, hl, e⟩ => ⟨l, hl, congrArg Outcome.ok e.symm⟩⟩

theorem run_readBeAddress (a : Ipv6Addr) (rest : Bytes) :
    readBeAddress.run (octets a ++ rest) = .ok (a, rest) :=
  lawful_beAddress.roundTrips a _ trivial (encodeBeAddress_eq a) rest

theorem decodeBytes_bytes {a : AddrV2} (ha : a.Representable) (rest : Bytes) :
    (decodeBytes a.network a.bytes.length).run (a.bytes ++ rest) = .ok (a, rest) := by
  cases a with
  | ipv4 addr =>
    rw [decodeBytes, network, bytes, if_pos rfl, Decoder.run_ensure_bind_of addr.length_eq,
      Decoder.run_bind_of_ok (run_u8Array addr rest)]
    rfl
  | ipv6 addr =>
    rw [decodeBytes, network, bytes, if_neg (by decide), if_pos rfl,
      Decoder.run_ensure_bind_of (length_octets addr),
      Decoder.run_bind_of_ok (run_readBeAddress addr rest), Decoder.run_ensure_bind_of ha.1,
      Decoder.run_ensure_bind_of ha.2]
    rfl
  | torV2 addr =>
    rw [decodeBytes, network, bytes, if_neg (by decide), if_neg (by decide), if_pos rfl,
      Decoder.run_ensure_bind_of addr.length_eq,
      Decoder.run_bind_of_ok (run_u8Array addr rest)]
    rfl
  | torV3 addr =>
    rw [decodeBytes, network, bytes, if_neg (by decide), if_neg (by decide), if_neg (by decide),
      if_pos rfl, Decoder.run_ensure_bind_of addr.length_eq,
      Decoder.run_bind_of_ok (run_u8Array addr rest)]
    rfl
  | i2p addr =>
    rw [decodeBytes, network, bytes, if_neg (by decide), if_neg (by decide), if_neg (by decide),
      if_neg (by decide), if_pos rfl,
      Decoder.run_ensure_bind_of addr.length_eq,
      Decoder.run_bind_of_ok (run_u8Array addr rest)]
    rfl
  | cjdns addr =>
    rw [decodeBytes, network, bytes, if_neg (by decide), if_neg (by decide), if_neg (by decide),
      if_neg (by decide), if_neg (by decide), if_pos rfl,
      Decoder.run_ensure_bind_of (length_octets addr),
      Decoder.run_bind_of_ok (run_readBeAddress addr rest),
      Decoder.run_ensure_bind_of (show addr.1.headD 0 >>> 8 = 0xFC from ha)]
    rfl
  | unknown n bs =>
    obtain ⟨h₁, h₂, h₃, h₄, h₅, h₆, -⟩ := ha
    rw [decodeBytes, network, bytes, if_neg h₁, if_neg h₂, if_neg h₃, if_neg h₄, if_neg h₅,
      if_neg h₆, Decoder.run_bind_of_ok (Decoder.run_readExact_append _ rfl rest)]
    rfl

/-- A branch that reads an array, after the check of its length. -/
theorem of_run_array {n len : ℕ} {e : EncodeError} {f : U8Array n → AddrV2} {bs rest : Bytes}
    {a : AddrV2} (h : (do
      Decoder.ensure (len = n) e
      return f (← (u8Array n).consensusDecode) : Read AddrV2).run bs = .ok (a, rest)) :
    ∃ x : U8Array n, a = f x ∧ len = n ∧ bs = x.toList ++ rest := by
  obtain ⟨hlen, hread⟩ := Decoder.run_ensure_bind_eq_ok_iff.1 h
  obtain ⟨x, mid', hx, hpure⟩ := Decoder.run_bind_eq_ok_iff.1 hread
  obtain rfl := eq_of_run_u8Array hx
  cases hpure
  exact ⟨x, rfl, hlen, rfl⟩

/-- A branch that reads words, up to the checks on them. -/
theorem of_run_readBeAddress {len : ℕ} {e : EncodeError} {f : Ipv6Addr → Read AddrV2}
    {bs rest : Bytes} {a : AddrV2} (h : (do
      Decoder.ensure (len = 16) e
      let addr ← readBeAddress
      f addr : Read AddrV2).run bs = .ok (a, rest)) :
    ∃ addr mid, len = 16 ∧ bs = octets addr ++ mid ∧ (f addr).run mid = .ok (a, rest) := by
  obtain ⟨hlen, hread⟩ := Decoder.run_ensure_bind_eq_ok_iff.1 h
  obtain ⟨addr, mid', haddr, hf⟩ := Decoder.run_bind_eq_ok_iff.1 hread
  obtain rfl := lawful_beAddress.canonical.eq_append (encodeBeAddress_eq addr) haddr
  exact ⟨addr, mid', hlen, rfl, hf⟩

/-- What a branch of the decoder accepts is the address it returns. -/
theorem of_decodeBytes {networkId : UInt8} {len : ℕ} {bs rest : Bytes} {a : AddrV2}
    (hlen : len ≤ 512) (h : (decodeBytes networkId len).run bs = .ok (a, rest)) :
    a.Representable ∧ a.network = networkId ∧ a.bytes.length = len ∧ bs = a.bytes ++ rest := by
  unfold decodeBytes at h
  split_ifs at h with h₁ h₂ h₃ h₄ h₅ h₆
  · obtain ⟨x, rfl, hn, rfl⟩ := of_run_array h
    exact ⟨trivial, h₁.symm, x.length_eq.trans hn.symm, rfl⟩
  · obtain ⟨addr, mid, hn, rfl, hchecks⟩ := of_run_readBeAddress h
    obtain ⟨honion, hchecks'⟩ := Decoder.run_ensure_bind_eq_ok_iff.1 hchecks
    obtain ⟨hwrapped, hpure⟩ := Decoder.run_ensure_bind_eq_ok_iff.1 hchecks'
    cases hpure
    exact ⟨⟨honion, hwrapped⟩, h₂.symm, (length_octets addr).trans hn.symm, rfl⟩
  · obtain ⟨x, rfl, hn, rfl⟩ := of_run_array h
    exact ⟨trivial, h₃.symm, x.length_eq.trans hn.symm, rfl⟩
  · obtain ⟨x, rfl, hn, rfl⟩ := of_run_array h
    exact ⟨trivial, h₄.symm, x.length_eq.trans hn.symm, rfl⟩
  · obtain ⟨x, rfl, hn, rfl⟩ := of_run_array h
    exact ⟨trivial, h₅.symm, x.length_eq.trans hn.symm, rfl⟩
  · obtain ⟨addr, mid, hn, rfl, hchecks⟩ := of_run_readBeAddress h
    obtain ⟨hmarker, hpure⟩ := Decoder.run_ensure_bind_eq_ok_iff.1 hchecks
    cases hpure
    exact ⟨hmarker, h₆.symm, (length_octets addr).trans hn.symm, rfl⟩
  · obtain ⟨buf, mid, hbuf, hpure⟩ := Decoder.run_bind_eq_ok_iff.1 h
    obtain ⟨rfl, rfl⟩ := Decoder.run_readExact_eq_ok_iff.1 hbuf
    cases hpure
    exact ⟨⟨h₁, h₂, h₃, h₄, h₅, h₆, hlen⟩, rfl, rfl, rfl⟩

theorem counts : Counts consensusEncode := by
  intro a w e
  obtain ⟨l, hl, rfl⟩ := consensusEncode_eq_ok_iff.1 e
  simp [lawful_len.counts _ _ hl, Nat.add_assoc]

theorem length_bytes_le {a : AddrV2} (ha : a.Representable) : a.bytes.length ≤ 512 := by
  cases a with
  | ipv4 addr => simp [bytes]
  | ipv6 addr => simp [bytes, length_octets]
  | torV2 addr => simp [bytes]
  | torV3 addr => simp [bytes]
  | i2p addr => simp [bytes]
  | cjdns addr => simp [bytes, length_octets]
  | unknown n bs => exact ha.2.2.2.2.2.2

theorem roundTrips : RoundTrips consensusEncode consensusDecode Representable := by
  intro a w ha e rest
  obtain ⟨l, hl, rfl⟩ := consensusEncode_eq_ok_iff.1 e
  rw [Written.bytes_append, Written.bytes_append, List.append_assoc, List.append_assoc,
    consensusDecode, Decoder.run_bind_of_ok (run_u8 a.network _),
    Decoder.run_bind_of_ok (lawful_len.roundTrips _ l trivial hl _),
    Decoder.run_ensure_bind_of (length_bytes_le ha)]
  exact decodeBytes_bytes ha rest

theorem canonical : Canonical consensusEncode consensusDecode Representable := by
  intro bs a rest h
  unfold consensusDecode at h
  obtain ⟨networkId, mid₁, hid, hlen⟩ := Decoder.run_bind_eq_ok_iff.1 h
  obtain ⟨len, mid₂, hl, hcheck⟩ := Decoder.run_bind_eq_ok_iff.1 hlen
  obtain ⟨hle, hbytes⟩ := Decoder.run_ensure_bind_eq_ok_iff.1 hcheck
  obtain rfl := eq_of_run_u8 hid
  obtain ⟨-, l, hw', rfl⟩ := lawful_len.canonical _ _ _ hl
  obtain ⟨ha, rfl, rfl, rfl⟩ := of_decodeBytes hle hbytes
  exact ⟨ha, _, consensusEncode_eq_ok_iff.2 ⟨l, hw', rfl⟩, by simp⟩

theorem lawful : codec.IsLawful Representable := .ofDecode ⟨counts, roundTrips, canonical⟩

theorem exists_encode {a : AddrV2} (ha : a.Representable) : ∃ w, a.consensusEncode = .ok w := by
  have hlt : a.bytes.length < 2 ^ 64 := (length_bytes_le ha).trans_lt (by decide)
  obtain ⟨l, hl⟩ := exists_encodeLen hlt
  exact ⟨_, consensusEncode_eq_ok_iff.2 ⟨l, hl, rfl⟩⟩

end AddrV2

/-- Address received from BIP155 addrv2 message. -/
structure AddrV2Message where
  time : UInt32
  services : ServiceFlags
  addr : AddrV2
  port : UInt16
  deriving DecidableEq

namespace AddrV2Message

/-- The fields as they are written: the services as a `VarInt`. -/
def equiv : AddrV2Message ≃ UInt32 × VarInt × AddrV2 × UInt16 where
  toFun m := (m.time, ⟨m.services⟩, m.addr, m.port)
  invFun p := ⟨p.1, p.2.1.val, p.2.2.1, p.2.2.2⟩
  left_inv _ := rfl
  right_inv _ := rfl

def codec : Codec AddrV2Message :=
  .ofDecode
    (fun m => (u32.consensusEncode.seq (VarInt.consensusEncode.seq
      (AddrV2.consensusEncode.seq encodeWord))) (equiv m))
    (equiv.symm <$> u32.consensusDecode.seq (VarInt.consensusDecode.seq
      (AddrV2.consensusDecode.seq decodePort)))

theorem lawful : codec.IsLawful fun m => m.addr.Representable :=
  .ofDecode (((lawful_u32.finite.seq (VarInt.lawful.finite.seq
    (AddrV2.lawful.finite.seq lawful_port))).xmap equiv).congr fun m => by simp [equiv])

end AddrV2Message

/-- Every address that a decoder can return is read back from its encoding, with no byte more or
less; and whatever bytes are accepted, as an address or as an entry of a message, are the encoding of
the value that was read. -/
theorem AddrV2.encoding_is_canonical :
    (∀ a : AddrV2, a.Representable → ∃ w, codec.consensusEncode a = .ok w ∧
      w.len = w.bytes.length ∧ ∀ rest, codec.consensusDecode.run (w.bytes ++ rest) = .ok (a, rest)) ∧
    (∀ raw rest a, codec.consensusDecode.run raw = .ok (a, rest) →
      ∃ w, codec.consensusEncode a = .ok w ∧ raw = w.bytes ++ rest) ∧
    (∀ raw rest m, AddrV2Message.codec.consensusDecode.run raw = .ok (m, rest) →
      ∃ w, AddrV2Message.codec.consensusEncode m = .ok w ∧ raw = w.bytes ++ rest) := by
  refine ⟨?_, ?_, ?_⟩
  · intro a ha
    obtain ⟨w, hw⟩ := exists_encode ha
    exact ⟨w, hw, counts a w hw, roundTrips a w ha hw⟩
  · intro raw rest a h
    exact (canonical raw a rest h).2
  · intro raw rest m h
    exact (AddrV2Message.lawful.finite.canonical raw m rest h).2

/-- A CJDNS address, and an unknown network in a message. -/
theorem AddrV2.encoding_is_canonical_cjdns :
    (∃ w, codec.consensusEncode (cjdns ⟨[0xFC01, 1, 2, 3, 4, 5, 6, 7], rfl⟩) = .ok w ∧
      w.len = w.bytes.length ∧ ∀ rest, codec.consensusDecode.run (w.bytes ++ rest) =
        .ok (cjdns ⟨[0xFC01, 1, 2, 3, 4, 5, 6, 7], rfl⟩, rest)) ∧
    (∃ w, codec.consensusEncode (unknown 170 [1, 2, 3, 4]) = .ok w ∧
      [170, 4, 1, 2, 3, 4] = w.bytes ++ []) ∧
    ∃ w, AddrV2Message.codec.consensusEncode ⟨7, 9, unknown 153 [0xAB, 0xAB], 8333⟩ = .ok w ∧
      [7, 0, 0, 0, 9, 153, 2, 0xAB, 0xAB, 0x20, 0x8D] = w.bytes ++ [] :=
  ⟨encoding_is_canonical.1 _ (show (0xFC01 : UInt16) >>> 8 = 0xFC by decide),
    encoding_is_canonical.2.1 _ _ _ (by decide), encoding_is_canonical.2.2 _ _ _ (by decide)⟩

end RustDogecoin
