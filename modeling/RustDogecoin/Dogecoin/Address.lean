import RustDogecoin.Base58
import RustDogecoin.Dogecoin.Params

/-!
# Dogecoin addresses

The address of `dogecoin/address/mod.rs`: a pubkey hash or a script hash with its network, shown as
base58 text with a checksum after a prefix byte for the kind and the network.  Testnet and regtest
share the prefix byte of script hashes, so a parsed address does not always have one network.
-/

namespace RustDogecoin

namespace Dogecoin

/-! ## Addresses and their text -/

def PUBKEY_ADDRESS_PREFIX_MAINNET : UInt8 := 0x1e

def PUBKEY_ADDRESS_PREFIX_TESTNET : UInt8 := 0x71

def PUBKEY_ADDRESS_PREFIX_REGTEST : UInt8 := 0x6f

def SCRIPT_ADDRESS_PREFIX_MAINNET : UInt8 := 0x16

def SCRIPT_ADDRESS_PREFIX_TESTNET : UInt8 := 0xc4

def SCRIPT_ADDRESS_PREFIX_REGTEST : UInt8 := 0xc4

abbrev PubkeyHash := U8Array 20

abbrev ScriptHash := U8Array 20

/-- The inner representation of an address, without the network validation tag. -/
inductive AddressInner where
  | p2pkh (hash : PubkeyHash) (network : Network)
  | p2sh (hash : ScriptHash) (network : Network)
  deriving DecidableEq, Repr

/-- The data encoded by an `Address`. -/
inductive AddressData where
  | p2pkh (pubkeyHash : PubkeyHash)
  | p2sh (scriptHash : ScriptHash)
  deriving DecidableEq, Repr

/-- The two implementations of the trait `NetworkValidation`. -/
inductive NetworkValidation where
  | networkChecked
  | networkUnchecked

/-- A Dogecoin address; `V` says whether its network has been checked. -/
structure Address (V : NetworkValidation) where
  inner : AddressInner
  deriving DecidableEq, Repr

/-- The prefix byte of a pubkey hash on a network. -/
def pubkeyPrefix : Network → UInt8
  | .dogecoin => PUBKEY_ADDRESS_PREFIX_MAINNET
  | .testnet => PUBKEY_ADDRESS_PREFIX_TESTNET
  | .regtest => PUBKEY_ADDRESS_PREFIX_REGTEST

/-- The prefix byte of a script hash on a network. -/
def scriptPrefix : Network → UInt8
  | .dogecoin => SCRIPT_ADDRESS_PREFIX_MAINNET
  | .testnet => SCRIPT_ADDRESS_PREFIX_TESTNET
  | .regtest => SCRIPT_ADDRESS_PREFIX_REGTEST

/-- The twenty-one bytes that are shown. -/
def AddressInner.prefixed : AddressInner → Bytes
  | p2pkh hash network => pubkeyPrefix network :: hash.toList
  | p2sh hash network => scriptPrefix network :: hash.toList

/-- `fmt::Display for AddressInner`. -/
def AddressInner.display (a : AddressInner) : Outcome Empty String :=
  Base58.encodeCheckToFmt a.prefixed

namespace Address

variable {V : NetworkValidation}

/-- `fmt::Display for Address`. -/
def display (a : Address .networkChecked) : Outcome Empty String := a.inner.display

/-- Marks the network of this address as unchecked. -/
def intoUnchecked (a : Address V) : Address .networkUnchecked := ⟨a.inner⟩

/-- Marks, without any additional checks, network of this address as checked. -/
def assumeChecked (a : Address .networkUnchecked) : Address .networkChecked := ⟨a.inner⟩

/-- Gets the address data from this address. -/
def toAddressData (a : Address .networkChecked) : AddressData :=
  match a.inner with
  | .p2pkh hash _ => .p2pkh hash
  | .p2sh hash _ => .p2sh hash

end Address

/-- Address parsing error. -/
inductive ParseError where
  | base58 (e : Base58.Error)
  | legacyAddressTooLong (length : ℕ)
  | invalidBase58PayloadLength (length : ℕ)
  | invalidLegacyPrefix (invalid : UInt8)
  | networkValidation (required : Network) (address : Address .networkUnchecked)
  deriving DecidableEq, Repr

namespace Address

/-- The kind and the network of a prefix byte; the script prefix that testnet and regtest share is
read as testnet. -/
def ofPrefixed (prefixByte : UInt8) (data : U8Array 20) : Outcome ParseError AddressInner :=
  if prefixByte = PUBKEY_ADDRESS_PREFIX_MAINNET then .ok (.p2pkh data .dogecoin)
  else if prefixByte = PUBKEY_ADDRESS_PREFIX_TESTNET then .ok (.p2pkh data .testnet)
  else if prefixByte = PUBKEY_ADDRESS_PREFIX_REGTEST then .ok (.p2pkh data .regtest)
  else if prefixByte = SCRIPT_ADDRESS_PREFIX_MAINNET then .ok (.p2sh data .dogecoin)
  else if prefixByte = SCRIPT_ADDRESS_PREFIX_TESTNET then .ok (.p2sh data .testnet)
  else .err (.invalidLegacyPrefix prefixByte)

/-- `FromStr for Address<NetworkUnchecked>`. -/
def fromStr (s : String) : Outcome ParseError (Address .networkUnchecked) := do
  .ensure ((asBytes s).length ≤ 50) (.legacyAddressTooLong (asBytes s).length)
  let data ← (Base58.decodeCheck s).mapErr .base58
  .ensure (data.length = 21) (.invalidBase58PayloadLength (asBytes s).length)
  match data with
  | [] => .panic .unwrap
  | prefixByte :: data =>
    if h : data.length = 20 then
      let inner ← ofPrefixed prefixByte ⟨data, h⟩
      return ⟨inner⟩
    else .panic .unwrap

/-- Parsed addresses do not always have *one* network: testnet and regtest share a prefix. -/
def isValidForNetwork (a : Address .networkUnchecked) (n : Network) : Bool :=
  match a.inner with
  | .p2pkh _ network => network == n
  | .p2sh _ .dogecoin => n == .dogecoin
  | .p2sh _ .testnet => n == .testnet || n == .regtest
  | .p2sh _ .regtest => n == .testnet || n == .regtest

/-- Checks whether network of this address is as required. -/
def requireNetwork (a : Address .networkUnchecked) (required : Network) :
    Outcome ParseError (Address .networkChecked) :=
  if a.isValidForNetwork required then .ok a.assumeChecked
  else .err (.networkValidation required a)

end Address

/-! ## Prefix bytes -/

/-- The prefix byte of an address. -/
def AddressInner.prefixByte : AddressInner → UInt8
  | p2pkh _ network => pubkeyPrefix network
  | p2sh _ network => scriptPrefix network

/-- The address of the same kind and payload on the network `n`. -/
def AddressInner.onNetwork (n : Network) : AddressInner → AddressInner
  | p2pkh hash _ => p2pkh hash n
  | p2sh hash _ => p2sh hash n

def AddressInner.payload : AddressInner → U8Array 20
  | p2pkh hash _ => hash
  | p2sh hash _ => hash

/-- The address that is read back from the text of `a`. -/
def AddressInner.asRead : AddressInner → AddressInner
  | p2sh hash .regtest => p2sh hash .testnet
  | a => a

namespace Address

theorem prefixed_eq (a : AddressInner) : a.prefixed = a.prefixByte :: a.payload.toList := by
  cases a <;> rfl

theorem length_prefixed (a : AddressInner) : a.prefixed.length = 21 := by
  rw [prefixed_eq, List.length_cons, a.payload.length_eq]

theorem ofPrefixed_prefixByte (a : AddressInner) : ofPrefixed a.prefixByte a.payload = .ok a.asRead := by
  rcases a with ⟨hash, n⟩ | ⟨hash, n⟩ <;> cases n <;> rfl

theorem prefixed_of_ofPrefixed {prefixByte : UInt8} {data : U8Array 20} {a : AddressInner}
    (h : ofPrefixed prefixByte data = .ok a) : a.prefixed = prefixByte :: data.toList := by
  unfold ofPrefixed at h
  split_ifs at h with h₁ h₂ h₃ h₄ h₅ <;> cases h
  · rw [h₁]; rfl
  · rw [h₂]; rfl
  · rw [h₃]; rfl
  · rw [h₄]; rfl
  · rw [h₅]; rfl

/-- A text is accepted exactly if it is the base58 text of some address, of at most fifty bytes. -/
theorem fromStr_eq_ok_iff {s : String} {a : Address .networkUnchecked} :
    fromStr s = .ok a ↔ (asBytes s).length ≤ 50 ∧
      ∃ prefixByte data, Base58.decodeCheck s = .ok (prefixByte :: data.toList) ∧
        ofPrefixed prefixByte data = .ok a.inner := by
  unfold fromStr
  constructor
  · intro h
    obtain ⟨hlen, h⟩ := Outcome.ensure_bind_eq_ok_iff.1 h
    obtain ⟨bytes, hdec, h⟩ := Outcome.bind_eq_ok_iff.1 h
    obtain ⟨-, h⟩ := Outcome.ensure_bind_eq_ok_iff.1 h
    refine ⟨hlen, ?_⟩
    rw [Outcome.mapErr_eq_ok_iff] at hdec
    rcases bytes with _ | ⟨prefixByte, data⟩
    · cases h
    · simp only at h
      split_ifs at h with hdata
      obtain ⟨inner, hinner, h⟩ := Outcome.bind_eq_ok_iff.1 h
      cases h
      exact ⟨prefixByte, ⟨data, hdata⟩, hdec, hinner⟩
  · rintro ⟨hlen, prefixByte, data, hdec, hinner⟩
    rw [Outcome.ensure_of hlen, Outcome.ok_bind, hdec, Outcome.mapErr, Outcome.ok_bind,
      Outcome.ensure_of (by simp), Outcome.ok_bind]
    simp only [data.length_eq, dif_pos]
    rw [hinner]
    rfl

/-! ## Parsing what was shown -/

theorem exists_display (a : AddressInner) : ∃ s, a.display = .ok s :=
  ⟨_, Base58.formatIter_eq _⟩

theorem fromStr_of_display {a : AddressInner} {s : String} (h : a.display = .ok s) :
    fromStr s = .ok ⟨a.asRead⟩ := by
  have hlen := Base58.length_formatIter_le h
  rw [Base58.withChecksum, List.length_append, length_prefixed, Base58.length_checksum] at hlen
  have hdec := Base58.encodeCheckToFmt_eq_ok_iff.1 h
  rw [prefixed_eq] at hdec
  exact fromStr_eq_ok_iff.2 ⟨hlen, _, _, hdec, ofPrefixed_prefixByte a⟩

theorem display_of_fromStr {s : String} {a : Address .networkUnchecked} (h : fromStr s = .ok a) :
    a.inner.display = .ok s := by
  obtain ⟨-, prefixByte, data, hdec, hinner⟩ := fromStr_eq_ok_iff.1 h
  rw [← prefixed_of_ofPrefixed hinner] at hdec
  exact Base58.encodeCheckToFmt_eq_ok_iff.2 hdec

/-- The networks that a parsed address is valid for are those with its prefix byte. -/
theorem isValidForNetwork_asRead (a : AddressInner) (n : Network) :
    isValidForNetwork ⟨a.asRead⟩ n ↔ a.prefixByte = (a.onNetwork n).prefixByte := by
  rcases a with ⟨hash, m⟩ | ⟨hash, m⟩ <;> cases m <;> cases n <;>
    simp [AddressInner.asRead, isValidForNetwork, AddressInner.prefixByte, AddressInner.onNetwork] <;> decide

theorem exists_requireNetwork_iff (a : Address .networkUnchecked) (n : Network) :
    (∃ c, a.requireNetwork n = .ok c) ↔ a.isValidForNetwork n := by
  unfold requireNetwork
  split_ifs with h <;> simp [h]

/-- Parsing the text of an address gives its payload and, but for the script hashes of regtest, the
address; the text of a parsed address is the one that was parsed; and `require_network` looks at the
prefix byte that was shown. -/
theorem fromStr_display :
    (∀ a : Address .networkChecked, ∃ s p, a.display = .ok s ∧ fromStr s = .ok p ∧
      p.assumeChecked.toAddressData = a.toAddressData ∧
      ((∀ hash, a.inner ≠ .p2sh hash .regtest) → p = a.intoUnchecked) ∧
      ∀ hash, a.inner = .p2sh hash .regtest → p.inner = .p2sh hash .testnet) ∧
    (∀ s p, fromStr s = .ok p → p.assumeChecked.display = .ok s) ∧
    ∀ (a : Address .networkChecked) s p n, a.display = .ok s → fromStr s = .ok p →
      ((∃ c, p.requireNetwork n = .ok c) ↔ a.inner.prefixByte = (a.inner.onNetwork n).prefixByte) := by
  refine ⟨?_, fun s p h => display_of_fromStr h, ?_⟩
  · rintro ⟨a⟩
    obtain ⟨s, hs⟩ := exists_display a
    refine ⟨s, _, hs, fromStr_of_display hs, ?_, ?_, ?_⟩
    · rcases a with ⟨hash, n⟩ | ⟨hash, n⟩ <;> cases n <;> rfl
    · intro hne
      rcases a with ⟨hash, n⟩ | ⟨hash, n⟩
      · rfl
      · cases n
        · rfl
        · rfl
        · exact absurd rfl (hne hash)
    · rintro hash rfl
      rfl
  · rintro ⟨a⟩ s p n hs hp
    obtain rfl := Outcome.ok.inj ((fromStr_of_display hs).symm.trans hp)
    rw [exists_requireNetwork_iff, isValidForNetwork_asRead]

end Address

end Dogecoin

end RustDogecoin
