import RustDogecoin.Bip32
import RustDogecoin.Blockdata.Script

/-!
# Bitcoin addresses and their scripts

The address of `address/mod.rs`: a pubkey hash, a script hash or a witness program.  `script_pubkey` builds
the script of an address, `from_script` reads an address off a script, and `matches_script_pubkey` compares
the two without building the script.  Building and reading invert each other (`scriptPubkey_of_fromScript`,
`fromScript_scriptPubkey`).  The comparison leaves out the version of a witness program, and this is the only
case in which it does not tell whether the script is the one of the address (`agreesWithScript_iff`).
-/

namespace RustDogecoin

namespace Bitcoin

/-- `bitcoin::Network`. -/
inductive Network where
  | bitcoin
  | testnet
  | testnet4
  | signet
  | regtest
  deriving DecidableEq, Repr

/-- `From<Network> for NetworkKind`. -/
def Network.kind : Network → NetworkKind
  | bitcoin => .main
  | testnet | testnet4 | signet | regtest => .test

/-! ## Witness programs -/

def MIN_SIZE : ℕ := 2

def MAX_SIZE : ℕ := 40

/-- `WitnessProgram`, with the lengths its version allows. -/
structure WitnessProgram where
  version : WitnessVersion
  program : Bytes
  length_ge : MIN_SIZE ≤ program.length
  length_le : program.length ≤ MAX_SIZE
  length_v0 : version = .v0 → program.length = 20 ∨ program.length = 32
  deriving DecidableEq, Repr

/-- `witness_program::Error`. -/
inductive WitnessProgramError where
  | invalidLength (len : ℕ)
  | invalidSegwitV0Length (len : ℕ)
  deriving DecidableEq, Repr

/-- `WitnessProgram::new`. -/
def WitnessProgram.new (version : WitnessVersion) (bytes : Bytes) :
    Outcome WitnessProgramError WitnessProgram :=
  if hlen : bytes.length < MIN_SIZE ∨ MAX_SIZE < bytes.length then .err (.invalidLength bytes.length)
  else if hv0 : version = .v0 ∧ (bytes.length ≠ 20 ∧ bytes.length ≠ 32) then
    .err (.invalidSegwitV0Length bytes.length)
  else .ok ⟨version, bytes, by omega, by omega, fun hversion => by
    simp only [hversion, true_and, not_and_or, not_not] at hv0
    exact hv0⟩

/-- `ScriptBuf::new_witness_program_unchecked`, with its debug assertions. -/
def newWitnessProgramUnchecked (version : WitnessVersion) (program : PushBytes) :
    Outcome Empty ScriptBuf := do
  .require (2 ≤ program.bytes.length ∧ program.bytes.length ≤ 40) .assertion
  .require (version ≠ .v0 ∨ program.bytes.length = 20 ∨ program.bytes.length = 32) .assertion
  return (ScriptBuf.pushOpcode [] version.toOpcode).pushSlice program

/-! ## Addresses -/

/-- `KnownHrp`. -/
inductive KnownHrp where
  | mainnet
  | testnets
  | regtest
  deriving DecidableEq, Repr

/-- `KnownHrp::from_network`. -/
def KnownHrp.fromNetwork : Network → KnownHrp
  | .bitcoin => mainnet
  | .testnet | .testnet4 | .signet => testnets
  | .regtest => regtest

/-- `AddressInner`. -/
inductive AddressInner where
  | p2pkh (hash : PubkeyHash) (network : NetworkKind)
  | p2sh (hash : ScriptHash) (network : NetworkKind)
  | segwit (program : WitnessProgram) (hrp : KnownHrp)
  deriving DecidableEq, Repr

/-- `AddressData`. -/
inductive AddressData where
  | p2pkh (pubkeyHash : PubkeyHash)
  | p2sh (scriptHash : ScriptHash)
  | segwit (witnessProgram : WitnessProgram)
  deriving DecidableEq, Repr

/-- `Address<NetworkChecked>`. -/
structure Address where
  inner : AddressInner
  deriving DecidableEq, Repr

/-- `FromScriptError`. -/
inductive FromScriptError where
  | unrecognizedScript
  | witnessProgram (e : WitnessProgramError)
  | witnessVersion (invalid : UInt8)
  deriving DecidableEq, Repr

/-- Twenty bytes of a script as an array: the slice and the conversion panic if there are not as many. -/
def slice20 {ε : Type} (s : ScriptBuf) (start : ℕ) : Outcome ε (U8Array 20) :=
  if h : ((s.drop start).take 20).length = 20 then .ok ⟨(s.drop start).take 20, h⟩ else .panic .outOfBounds

theorem slice20_eq {ε : Type} {s : ScriptBuf} {start : ℕ} {hash : U8Array 20}
    (h : (s.drop start).take 20 = hash.toList) : (slice20 s start : Outcome ε (U8Array 20)) = .ok hash := by
  unfold slice20
  rw [dif_pos (by rw [h, hash.length_eq])]
  simp only [h]

/-- `WitnessProgram::program`. -/
def WitnessProgram.pushBytes (p : WitnessProgram) : PushBytes :=
  ⟨p.program, by have := p.length_le; rw [MAX_SIZE] at this; omega⟩

namespace Address

/-- `Address::p2pkh`. -/
def p2pkh (hash : PubkeyHash) (network : Network) : Address := ⟨.p2pkh hash network.kind⟩

/-- `Address::p2sh_from_hash`. -/
def p2shFromHash (hash : ScriptHash) (network : Network) : Address := ⟨.p2sh hash network.kind⟩

/-- `Address::from_witness_program`. -/
def fromWitnessProgram (program : WitnessProgram) (network : Network) : Address :=
  ⟨.segwit program (.fromNetwork network)⟩

/-- `Address::to_address_data`. -/
def toAddressData (a : Address) : AddressData :=
  match a.inner with
  | .p2pkh hash _ => .p2pkh hash
  | .p2sh hash _ => .p2sh hash
  | .segwit program _ => .segwit program

/-- `Address::from_script`. -/
def fromScript (s : ScriptBuf) (network : Network) : Outcome FromScriptError Address :=
  if Script.isP2pkh s then do
    let hash ← slice20 s 3
    return p2pkh hash network
  else if Script.isP2sh s then do
    let hash ← slice20 s 2
    return p2shFromHash hash network
  else if Script.isWitnessProgram s then
    match s.head? with
    | none => .panic .unwrap
    | some opcode => do
      let version ← (WitnessVersion.tryFromOpcode opcode).mapErr .witnessVersion
      let program ← (WitnessProgram.new version (s.drop 2)).mapErr .witnessProgram
      return fromWitnessProgram program network
  else .err .unrecognizedScript

/-- `Address::script_pubkey`. -/
def scriptPubkey (a : Address) : Outcome Empty ScriptBuf :=
  match a.inner with
  | .p2pkh hash _ => .ok (ScriptBuf.newP2pkh hash)
  | .p2sh hash _ => .ok (ScriptBuf.newP2sh hash)
  | .segwit program _ => newWitnessProgramUnchecked program.version program.pushBytes

/-- `Address::matches_script_pubkey`. -/
def matchesScriptPubkey (a : Address) (s : ScriptBuf) : Bool :=
  match a.inner with
  | .p2pkh hash _ => if Script.isP2pkh s then (s.drop 3).take 20 == hash.toList else false
  | .p2sh hash _ => if Script.isP2sh s then (s.drop 2).take 20 == hash.toList else false
  | .segwit program _ => if Script.isWitnessProgram s then s.drop 2 == program.program else false

/-! ### Building and reading -/

/-- The script of a witness program. -/
theorem newWitnessProgramUnchecked_eq (p : WitnessProgram) :
    newWitnessProgramUnchecked p.version p.pushBytes =
      .ok (p.version.toOpcode :: UInt8.ofNat p.program.length :: p.program) := by
  have hmin : 2 ≤ p.program.length := p.length_ge
  have hmax : p.program.length ≤ 40 := p.length_le
  have hv0 : p.version ≠ .v0 ∨ p.program.length = 20 ∨ p.program.length = 32 :=
    or_iff_not_imp_left.2 fun h => p.length_v0 (not_not.1 h)
  have hlt : p.pushBytes.bytes.length < 0x4c := by
    show p.program.length < 0x4c
    omega
  unfold newWitnessProgramUnchecked
  rw [Outcome.require_of (by exact ⟨hmin, hmax⟩), Outcome.ok_bind, Outcome.require_of (by exact hv0),
    Outcome.ok_bind, ScriptBuf.pushSlice_of_lt hlt]
  rfl

theorem new_eq_ok_iff {version : WitnessVersion} {bytes : Bytes} {p : WitnessProgram} :
    WitnessProgram.new version bytes = .ok p ↔ p.version = version ∧ p.program = bytes := by
  unfold WitnessProgram.new
  constructor
  · intro h
    split_ifs at h
    cases h
    exact ⟨rfl, rfl⟩
  · rintro ⟨rfl, rfl⟩
    have hmin := p.length_ge
    have hmax := p.length_le
    have hv0 := p.length_v0
    rw [dif_neg (by omega), dif_neg (by rintro ⟨h, hne⟩; exact (hv0 h).elim hne.1 hne.2)]

/-- The kinds of scripts differ in their first byte. -/
theorem toOpcode_ne (v : WitnessVersion) : v.toOpcode ≠ OP_DUP ∧ v.toOpcode ≠ OP_HASH160 := by
  cases v <;> decide

theorem isP2pkh_witness (v : WitnessVersion) (rest : Bytes) :
    Script.isP2pkh (v.toOpcode :: rest) = false := by
  have hne : (v.toOpcode == OP_DUP) = false := beq_eq_false_iff_ne.2 (toOpcode_ne v).1
  simp [Script.isP2pkh, hne]

theorem isP2sh_witness (v : WitnessVersion) (rest : Bytes) : Script.isP2sh (v.toOpcode :: rest) = false := by
  have hne : (v.toOpcode == OP_HASH160) = false := beq_eq_false_iff_ne.2 (toOpcode_ne v).2
  simp [Script.isP2sh, hne]

theorem fromScript_newP2pkh (hash : PubkeyHash) (network : Network) :
    fromScript (ScriptBuf.newP2pkh hash) network = .ok (p2pkh hash network) := by
  rw [fromScript, if_pos (Script.isP2pkh_newP2pkh hash), slice20_eq (ScriptBuf.take_drop_newP2pkh hash)]
  rfl

theorem fromScript_newP2sh (hash : ScriptHash) (network : Network) :
    fromScript (ScriptBuf.newP2sh hash) network = .ok (p2shFromHash hash network) := by
  rw [fromScript, Script.isP2pkh_newP2sh, if_neg Bool.false_ne_true,
    if_pos (Script.isP2sh_newP2sh hash), slice20_eq (ScriptBuf.take_drop_newP2sh hash)]
  rfl

/-- Reading the script of a witness program comes down to the lengths that its version allows. -/
theorem fromScript_witness (v : WitnessVersion) {program : Bytes} (hmin : 2 ≤ program.length)
    (hmax : program.length ≤ 40) (network : Network) :
    fromScript (v.toOpcode :: UInt8.ofNat program.length :: program) network =
      (fromWitnessProgram · network) <$> (WitnessProgram.new v program).mapErr .witnessProgram := by
  have hwitness : Script.isWitnessProgram (v.toOpcode :: UInt8.ofNat program.length :: program) = true :=
    Script.isWitnessProgram_iff.2 ⟨v, program, hmin, hmax, rfl⟩
  rw [fromScript, isP2pkh_witness, if_neg Bool.false_ne_true, isP2sh_witness, if_neg Bool.false_ne_true,
    if_pos hwitness]
  simp only [List.head?_cons, WitnessVersion.tryFromOpcode_toOpcode, Outcome.mapErr_ok, Outcome.ok_bind,
    List.drop_succ_cons, List.drop_zero]
  rfl

/-- The address that is read off a script has this script. -/
theorem scriptPubkey_of_fromScript {s : ScriptBuf} {network : Network} {b : Address}
    (h : fromScript s network = .ok b) : b.scriptPubkey = .ok s := by
  by_cases hpkh : Script.isP2pkh s = true
  · obtain ⟨hash, rfl⟩ := Script.isP2pkh_iff.1 hpkh
    rw [fromScript_newP2pkh] at h
    cases h
    rfl
  by_cases hsh : Script.isP2sh s = true
  · obtain ⟨hash, rfl⟩ := Script.isP2sh_iff.1 hsh
    rw [fromScript_newP2sh] at h
    cases h
    rfl
  by_cases hwitness : Script.isWitnessProgram s = true
  · obtain ⟨v, program, hmin, hmax, rfl⟩ := Script.isWitnessProgram_iff.1 hwitness
    rw [fromScript_witness v hmin hmax, Outcome.map_eq_ok_iff] at h
    obtain ⟨p, hp, rfl⟩ := h
    obtain ⟨rfl, rfl⟩ := new_eq_ok_iff.1 (Outcome.mapErr_eq_ok_iff.1 hp)
    exact newWitnessProgramUnchecked_eq p
  · rw [fromScript, if_neg hpkh, if_neg hsh, if_neg hwitness] at h
    cases h

/-- The script of an address is read back as an address with the same data. -/
theorem fromScript_scriptPubkey (a : Address) (network : Network) :
    ∃ s b, a.scriptPubkey = .ok s ∧ fromScript s network = .ok b ∧ b.toAddressData = a.toAddressData := by
  obtain ⟨inner⟩ := a
  cases inner with
  | p2pkh hash kind => exact ⟨_, _, rfl, fromScript_newP2pkh hash network, rfl⟩
  | p2sh hash kind => exact ⟨_, _, rfl, fromScript_newP2sh hash network, rfl⟩
  | segwit program hrp =>
    refine ⟨_, fromWitnessProgram program network, newWitnessProgramUnchecked_eq program, ?_, rfl⟩
    rw [fromScript_witness _ program.length_ge program.length_le, new_eq_ok_iff.2 ⟨rfl, rfl⟩]
    rfl

/-! ### Comparing with a script -/

/-- The script has the program of the address with another version. -/
def OtherVersion (a : Address) (s : ScriptBuf) : Prop :=
  ∃ program hrp version, a.inner = .segwit program hrp ∧ Script.witnessVersion s = some version ∧
    version ≠ program.version ∧ s.drop 2 = program.program

/-- What addresses and scripts have to do with each other: an address matches a script exactly if it is its
own, an address read off a script has this script, and the script of an address gives its data back. -/
def AgreesWithScript (a : Address) (s : ScriptBuf) (network : Network) : Prop :=
  (a.matchesScriptPubkey s = true ↔ a.scriptPubkey = .ok s) ∧
    (∀ b, fromScript s network = .ok b → b.scriptPubkey = .ok s) ∧
    ∃ script b, a.scriptPubkey = .ok script ∧ fromScript script network = .ok b ∧
      b.toAddressData = a.toAddressData

theorem matches_p2pkh_iff (hash : PubkeyHash) (kind : NetworkKind) (s : ScriptBuf) :
    matchesScriptPubkey ⟨.p2pkh hash kind⟩ s = true ↔ ScriptBuf.newP2pkh hash = s :=
  Script.matches_iff (fun _ => Script.isP2pkh_iff) ScriptBuf.take_drop_newP2pkh hash s

theorem matches_p2sh_iff (hash : ScriptHash) (kind : NetworkKind) (s : ScriptBuf) :
    matchesScriptPubkey ⟨.p2sh hash kind⟩ s = true ↔ ScriptBuf.newP2sh hash = s :=
  Script.matches_iff (fun _ => Script.isP2sh_iff) ScriptBuf.take_drop_newP2sh hash s

/-- A witness program matches every script that pushes it, whatever the version. -/
theorem matches_segwit_iff (program : WitnessProgram) (hrp : KnownHrp) (s : ScriptBuf) :
    matchesScriptPubkey ⟨.segwit program hrp⟩ s = true ↔
      ∃ v : WitnessVersion, v.toOpcode :: UInt8.ofNat program.program.length :: program.program = s := by
  constructor
  · intro h
    simp only [matchesScriptPubkey] at h
    split_ifs at h with hwitness
    obtain ⟨v, bytes, -, -, rfl⟩ := Script.isWitnessProgram_iff.1 hwitness
    simp only [List.drop_succ_cons, List.drop_zero, beq_iff_eq] at h
    subst h
    exact ⟨v, rfl⟩
  · rintro ⟨v, rfl⟩
    simp only [matchesScriptPubkey]
    rw [if_pos (Script.isWitnessProgram_iff.2
      ⟨v, program.program, program.length_ge, program.length_le, rfl⟩)]
    simp

theorem otherVersion_segwit_iff (program : WitnessProgram) (hrp : KnownHrp) (s : ScriptBuf) :
    OtherVersion ⟨.segwit program hrp⟩ s ↔ ∃ v : WitnessVersion, v ≠ program.version ∧
      v.toOpcode :: UInt8.ofNat program.program.length :: program.program = s := by
  constructor
  · rintro ⟨program', hrp', v, hinner, hv, hne, hdrop⟩
    cases hinner
    obtain ⟨bytes, -, -, rfl⟩ := Script.witnessVersion_eq_some_iff.1 hv
    simp only [List.drop_succ_cons, List.drop_zero] at hdrop
    subst hdrop
    exact ⟨v, hne, rfl⟩
  · rintro ⟨v, hne, rfl⟩
    refine ⟨program, hrp, v, rfl, ?_, hne, rfl⟩
    exact Script.witnessVersion_eq_some_iff.2
      ⟨program.program, program.length_ge, program.length_le, rfl⟩

/-- The comparison with a script goes wrong exactly where it does not look at the version. -/
theorem matchesScriptPubkey_iff (a : Address) (s : ScriptBuf) :
    (a.matchesScriptPubkey s = true ↔ a.scriptPubkey = .ok s) ↔ ¬a.OtherVersion s := by
  obtain ⟨inner⟩ := a
  cases inner with
  | p2pkh hash kind =>
    rw [matches_p2pkh_iff]
    refine iff_of_true ⟨congrArg Outcome.ok, Outcome.ok.inj⟩ ?_
    rintro ⟨_, _, _, h, -⟩
    cases h
  | p2sh hash kind =>
    rw [matches_p2sh_iff]
    refine iff_of_true ⟨congrArg Outcome.ok, Outcome.ok.inj⟩ ?_
    rintro ⟨_, _, _, h, -⟩
    cases h
  | segwit program hrp =>
    have hscript : scriptPubkey ⟨.segwit program hrp⟩ = .ok s ↔
        program.version.toOpcode :: UInt8.ofNat program.program.length :: program.program = s := by
      show newWitnessProgramUnchecked program.version program.pushBytes = .ok s ↔ _
      rw [newWitnessProgramUnchecked_eq, Outcome.ok.injEq]
    rw [matches_segwit_iff, otherVersion_segwit_iff, hscript]
    constructor
    · rintro h ⟨v, hne, hs⟩
      have hown := h.1 ⟨v, hs⟩
      rw [← hs] at hown
      exact hne (WitnessVersion.toOpcode_injective (List.cons.inj hown).1.symm)
    · intro h
      refine ⟨?_, fun hown => ⟨_, hown⟩⟩
      rintro ⟨v, hs⟩
      by_cases hv : v = program.version
      · rwa [← hv]
      · exact absurd ⟨v, hv, hs⟩ h

/-- Addresses and scripts agree, except for witness programs under another version. -/
theorem agreesWithScript_iff (a : Address) (s : ScriptBuf) (network : Network) :
    a.AgreesWithScript s network ↔ ¬a.OtherVersion s := by
  rw [← matchesScriptPubkey_iff]
  constructor
  · intro h
    exact h.1
  · intro h
    exact ⟨h, fun b => scriptPubkey_of_fromScript, fromScript_scriptPubkey a network⟩

/-- A taproot address matches the script that pushes its program as the hash of a witness script. -/
theorem not_agreesWithScript_sample :
    ¬(Address.mk (.segwit ⟨.v1, List.replicate 32 0, by decide, by decide, by decide⟩ .mainnet)).AgreesWithScript
      (OP_PUSHBYTES_0 :: OP_PUSHBYTES_32 :: List.replicate 32 0) .bitcoin := by
  intro h
  apply (matchesScriptPubkey_iff _ _).1 h.1
  exact ⟨_, _, .v0, rfl, rfl, by decide, rfl⟩

end Address

end Bitcoin

end RustDogecoin
