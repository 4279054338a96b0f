import RustDogecoin.Bitcoin.Address
import RustDogecoin.Dogecoin.Address

/-!
# Dogecoin addresses and their scripts

`from_script`, `script_pubkey` and `matches_script_pubkey` of `dogecoin/address/mod.rs`.  There are no
witness programs, so that a script is the one of at most one payload: building a script and reading it
invert each other, and the comparison goes with both.
-/

namespace RustDogecoin

namespace Dogecoin

open Bitcoin (FromScriptError slice20 slice20_eq)

namespace Address

/-- Creates a pay to public key hash address from a public key hash. -/
def p2pkh (hash : PubkeyHash) (network : Network) : Address .networkChecked := ⟨.p2pkh hash network⟩

/-- Creates a pay to script hash P2SH address from a script hash. -/
def p2shFromHash (hash : ScriptHash) (network : Network) : Address .networkChecked := ⟨.p2sh hash network⟩

/-- Constructs an address from an output script. -/
def fromScript (script : ScriptBuf) (network : Network) :
    Outcome FromScriptError (Address .networkChecked) :=
  if Script.isP2pkh script then do
    let hash ← slice20 script 3
    return p2pkh hash network
  else if Script.isP2sh script then do
    let hash ← slice20 script 2
    return p2shFromHash hash network
  else .err .unrecognizedScript

/-- Generates a script pubkey spending to this address. -/
def scriptPubkey (a : Address .networkChecked) : ScriptBuf :=
  match a.inner with
  | .p2pkh hash _ => ScriptBuf.newP2pkh hash
  | .p2sh hash _ => ScriptBuf.newP2sh hash

/-- Returns true if the address creates a particular script. -/
def matchesScriptPubkey (a : Address .networkChecked) (script : ScriptBuf) : Bool :=
  match a.inner with
  | .p2pkh hash _ => if Script.isP2pkh script then (script.drop 3).take 20 == hash.toList else false
  | .p2sh hash _ => if Script.isP2sh script then (script.drop 2).take 20 == hash.toList else false

/-- The script of an address gives its payload back, on the network that is asked for. -/
theorem fromScript_scriptPubkey (a : Address .networkChecked) (network : Network) :
    fromScript a.scriptPubkey network = .ok ⟨a.inner.onNetwork network⟩ := by
  obtain ⟨hash, m⟩ | ⟨hash, m⟩ := a
  · rw [scriptPubkey, fromScript, if_pos (Script.isP2pkh_newP2pkh hash),
      slice20_eq (ScriptBuf.take_drop_newP2pkh hash)]
    rfl
  · rw [scriptPubkey, fromScript, Script.isP2pkh_newP2sh, if_neg Bool.false_ne_true,
      if_pos (Script.isP2sh_newP2sh hash), slice20_eq (ScriptBuf.take_drop_newP2sh hash)]
    rfl

/-- Every script that is recognised is the one of an address. -/
theorem fromScript_cases (script : ScriptBuf) (network : Network) :
    (∃ a : Address .networkChecked, script = a.scriptPubkey) ∨
      fromScript script network = .err .unrecognizedScript ∧
        (¬∃ hash, script = ScriptBuf.newP2pkh hash) ∧ ¬∃ hash, script = ScriptBuf.newP2sh hash := by
  by_cases hpkh : Script.isP2pkh script = true
  · obtain ⟨hash, rfl⟩ := Script.isP2pkh_iff.1 hpkh
    exact .inl ⟨p2pkh hash network, rfl⟩
  · by_cases hsh : Script.isP2sh script = true
    · obtain ⟨hash, rfl⟩ := Script.isP2sh_iff.1 hsh
      exact .inl ⟨p2shFromHash hash network, rfl⟩
    · refine .inr ⟨?_, fun h => hpkh (Script.isP2pkh_iff.2 h), fun h => hsh (Script.isP2sh_iff.2 h)⟩
      rw [fromScript, if_neg hpkh, if_neg hsh]

theorem matchesScriptPubkey_iff (a : Address .networkChecked) (script : ScriptBuf) :
    a.matchesScriptPubkey script = true ↔ script = a.scriptPubkey := by
  rw [eq_comm (a := script)]
  obtain ⟨hash, m⟩ | ⟨hash, m⟩ := a
  · exact Script.matches_iff (fun _ => Script.isP2pkh_iff) ScriptBuf.take_drop_newP2pkh hash script
  · exact Script.matches_iff (fun _ => Script.isP2sh_iff) ScriptBuf.take_drop_newP2sh hash script

/-- Addresses and scripts go with each other: the script of an address is read as its payload, the scripts
that are read are those of some hash, and an address matches its own script only. -/
theorem fromScript_scriptPubkey_matches (a : Address .networkChecked) (script : ScriptBuf)
    (network : Network) :
    fromScript a.scriptPubkey network = .ok ⟨a.inner.onNetwork network⟩ ∧
    ((∃ b, fromScript script network = .ok b) ↔
      (∃ hash, script = ScriptBuf.newP2pkh hash) ∨ ∃ hash, script = ScriptBuf.newP2sh hash) ∧
    (∀ b, fromScript script network = .ok b → b.scriptPubkey = script) ∧
    (a.matchesScriptPubkey script = true ↔ script = a.scriptPubkey) := by
  refine ⟨fromScript_scriptPubkey a network, ?_, ?_, matchesScriptPubkey_iff a script⟩
  · rcases fromScript_cases script network with ⟨b, rfl⟩ | ⟨herr, hpkh, hsh⟩
    · refine iff_of_true ⟨_, fromScript_scriptPubkey b network⟩ ?_
      obtain ⟨hash, m⟩ | ⟨hash, m⟩ := b
      · exact .inl ⟨hash, rfl⟩
      · exact .inr ⟨hash, rfl⟩
    · rw [herr]
      simp [hpkh, hsh]
  · intro b hb
    rcases fromScript_cases script network with ⟨b', rfl⟩ | ⟨herr, -⟩
    · rw [fromScript_scriptPubkey] at hb
      cases hb
      obtain ⟨hash, m⟩ | ⟨hash, m⟩ := b' <;> rfl
    · rw [herr] at hb
      cases hb

/-- A script that is one byte too long is not recognised. -/
example : fromScript ([0xa9, 0x14] ++ List.replicate 20 0 ++ [0x87, 0x87]) .dogecoin =
    .err .unrecognizedScript := by decide

end Address

end Dogecoin

end RustDogecoin
