import RustDogecoin.Psbt.Fields

/-!
# Input and output maps come back from their bytes

The loop that reads a map is settled once for all maps (`run_decodePairs`, `of_decodePairs`).  A well-formed
input or output map is rebuilt from the pairs it is written as (`rebuilds_getPairs`), and reading a pair keeps
a map well-formed (`WellFormed.insertPair`).
-/

namespace RustDogecoin

namespace Psbt

open Raw Entries Taproot

variable {S : KeyFormats} {M : Type}

/-! ## The loop over pairs -/

section Loop

variable {step : M → Pair → Outcome (Error S) M} {m m' : M} {fuel : ℕ} {rest : Bytes}

theorem run_nextPair_eq_ok_iff {bs : Bytes} {x : Option Pair} :
    (nextPair (S := S)).run bs = .ok (x, rest) ↔
      (∃ pair, x = some pair ∧ (Pair.decode (S := S)).run bs = .ok (pair, rest)) ∨
        x = none ∧ bs = 0x00 :: rest := by
  change nextPair bs = .ok (x, rest) ↔ _
  unfold nextPair
  constructor
  · intro h
    split at h
    · rename_i pair r hpair
      cases h
      exact Or.inl ⟨pair, rfl, hpair⟩
    · rename_i hpair
      cases h
      obtain ⟨tail, rfl⟩ := Pair.exists_zero_of_noMorePairs hpair
      exact Or.inr ⟨rfl, rfl⟩
    · cases h
    · cases h
  · rintro (⟨pair, rfl, hpair⟩ | ⟨rfl, rfl⟩)
    · rw [hpair]
    · rw [Pair.run_decode_zero]
      rfl

/-- Pairs are read and inserted one after the other, up to the zero byte. -/
theorem run_decodePairs {ps : List Pair} {w : Written} (hw : Encoder.list Pair.serialize ps = .ok w)
    (hps : ∀ p ∈ ps, p.Storable) (hfold : ps.foldlM step m = .ok m') (hfuel : ps.length < fuel) :
    (decodePairs step fuel m).run (w.bytes ++ 0x00 :: rest) = .ok (m', rest) := by
  induction ps generalizing fuel m w with
  | nil =>
    obtain ⟨fuel, rfl⟩ := Nat.exists_eq_add_one.2 hfuel
    cases hw
    cases hfold
    rw [Written.bytes_empty, List.nil_append, decodePairs,
      Decoder.run_bind_of_ok (run_nextPair_eq_ok_iff.2 (Or.inr ⟨rfl, rfl⟩))]
    rfl
  | cons p ps ih =>
    obtain ⟨fuel, rfl⟩ := Nat.exists_eq_add_one.2 (Nat.zero_lt_of_lt hfuel)
    obtain ⟨u, v, hu, hv, rfl⟩ := Encoder.list_cons_eq_ok_iff.1 hw
    rw [List.forall_mem_cons] at hps
    rw [List.foldlM_cons] at hfold
    obtain ⟨m₁, hm₁, hfold⟩ := Outcome.bind_eq_ok_iff.1 hfold
    have hrun := Pair.lawful (S := S).roundTrips p u hps.1.withinLimits hu (v.bytes ++ 0x00 :: rest)
    rw [Written.bytes_append, List.append_assoc, decodePairs,
      Decoder.run_bind_of_ok (run_nextPair_eq_ok_iff.2 (Or.inl ⟨p, rfl, hrun⟩))]
    dsimp only
    rw [Decoder.run_bind_of_ok (Decoder.run_ofOutcome_eq_ok_iff.2 ⟨hm₁, rfl⟩)]
    exact ih hv hps.2 hfold (by simpa using hfuel)

theorem length_serialize_pos {p : Pair} {w : Written} (h : p.serialize = .ok w) : 0 < w.bytes.length := by
  rw [Pair.length_serialize h, Pair.size]
  omega

/-- What the loop reads are pairs and a zero byte, and what it returns are the pairs inserted. -/
theorem of_decodePairs {bs : Bytes} (hfuel : bs.length < fuel)
    (h : (decodePairs step fuel m).run bs = .ok (m', rest)) :
    ∃ ps w, Encoder.list Pair.serialize ps = .ok w ∧ bs = w.bytes ++ 0x00 :: rest ∧
      (∀ p ∈ ps, p.Storable) ∧ ps.foldlM step m = .ok m' := by
  induction fuel generalizing m bs with
  | zero => omega
  | succ fuel ih =>
    rw [decodePairs] at h
    obtain ⟨x, mid, hx, h⟩ := Decoder.run_bind_eq_ok_iff.1 h
    rcases run_nextPair_eq_ok_iff.1 hx with ⟨pair, rfl, hpair⟩ | ⟨rfl, rfl⟩
    · obtain ⟨m₁, mid', hstep, hrest⟩ := Decoder.run_bind_eq_ok_iff.1 h
      obtain ⟨hm₁, rfl⟩ := Decoder.run_ofOutcome_eq_ok_iff.1 hstep
      obtain ⟨hlimits, u, hu, rfl⟩ := Pair.lawful.canonical _ _ _ hpair
      have hpos := length_serialize_pos hu
      rw [List.length_append] at hfuel
      obtain ⟨ps, w, hw, rfl, hps, hfold⟩ := ih (by omega) hrest
      refine ⟨pair :: ps, u ++ w, Encoder.list_cons_eq_ok_iff.2 ⟨u, w, hu, hw, rfl⟩, by simp,
        List.forall_mem_cons.2 ⟨Pair.storable_of_serialize hu hlimits, hps⟩, ?_⟩
      rw [List.foldlM_cons, hm₁]
      exact hfold
    · cases h
      exact ⟨[], .empty, rfl, rfl, by simp, rfl⟩

end Loop

/-! ## Maps of pairs -/

section Maps

variable {N : Type} {getPairs : N → Outcome Empty (List Pair)} {step : M → Pair → Outcome (Error S) M}
  {empty : M} {Ok : M → Prop}

theorem serializeMap_eq_ok_iff {m : N} {w : Written} :
    serializeMap getPairs m = .ok w ↔ ∃ ps buf, getPairs m = .ok ps ∧
      Encoder.list Pair.serialize ps = .ok buf ∧ w = buf ++ .ofBytes [0x00] := by
  unfold serializeMap
  rw [Outcome.bind_eq_ok_iff]
  constructor
  · rintro ⟨ps, hps, h⟩
    obtain ⟨buf, hbuf, h⟩ := Outcome.bind_eq_ok_iff.1 h
    cases h
    exact ⟨ps, buf, hps, hbuf, rfl⟩
  · rintro ⟨ps, buf, hps, hbuf, rfl⟩
    exact ⟨ps, hps, by rw [hbuf]; rfl⟩

theorem exists_serializeMap {m : N} {m' : M} (h : Rebuilds step Pair.Storable (getPairs m) empty m') :
    ∃ w, serializeMap getPairs m = .ok w := by
  obtain ⟨ps, hps, hstore, -⟩ := h
  obtain ⟨buf, hbuf⟩ := Encoder.exists_list fun p hp => Pair.exists_serialize (hstore p hp)
  exact ⟨_, serializeMap_eq_ok_iff.2 ⟨ps, buf, hps, hbuf, rfl⟩⟩

/-- A map that is rebuilt from its pairs comes back from its bytes. -/
theorem run_decodeMap {m : N} {m' : M} {w : Written} (h : Rebuilds step Pair.Storable (getPairs m) empty m')
    (hw : serializeMap getPairs m = .ok w) (rest : Bytes) :
    (decodeMap step empty).run (w.bytes ++ rest) = .ok (m', rest) := by
  obtain ⟨ps, hps, hstore, hfold⟩ := h
  obtain ⟨qs, buf, hqs, hbuf, rfl⟩ := serializeMap_eq_ok_iff.1 hw
  obtain rfl := Outcome.ok.inj (hps.symm.trans hqs)
  have hlen := Encoder.length_le_of_list (fun _ _ => length_serialize_pos) hbuf
  have hbytes : (buf ++ Written.ofBytes [0x00]).bytes ++ rest = buf.bytes ++ 0x00 :: rest := by simp
  rw [hbytes]
  apply run_decodePairs hbuf hstore hfold
  rw [List.length_append]
  omega

/-- A map that was read has what insertions keep. -/
theorem of_decodeMap (hempty : Ok empty)
    (hstep : ∀ m p m', Ok m → p.Storable → step m p = .ok m' → Ok m') {bs rest : Bytes} {m : M}
    (h : (decodeMap step empty).run bs = .ok (m, rest)) : Ok m := by
  obtain ⟨ps, w, -, -, hps, hfold⟩ := of_decodePairs (Nat.lt_succ_self _) h
  exact foldlM_invariant hstep hps hempty hfold

/-- A field is rebuilt from its pairs, and the fields behind it follow. -/
theorem rebuilds_typed {C : Type} {push : C → Outcome Empty (List Pair)}
    {insert : C → Pair → Outcome (Error S) C} {none : C} {t : UInt8} {CanStore : C → Prop}
    (h : Stores push insert none (Typed t) CanStore) (L : Component M C)
    (hstep : ∀ m p, p.key.typeValue = t → step m p = L.set m <$> insert (L.get m) p) {m m' : M}
    (hm : L.get m = none) {c : C} (hc : CanStore c) {fields : List (Outcome Empty (List Pair))}
    (hfields : Rebuilds step Pair.Storable (concatPairs fields) (L.set m c) m') :
    Rebuilds step Pair.Storable (concatPairs (push c :: fields)) m m' :=
  rebuilds_cons (h.rebuilds L (fun m p hp => hstep m p hp.1) (fun _ hp => hp.2) hm hc) hfields

end Maps

/-! ## Input maps -/

namespace Input

/-- The map has no field for keys of this type. -/
def Unassigned (t : UInt8) : Prop :=
  t ∉ [PSBT_IN_NON_WITNESS_UTXO, PSBT_IN_WITNESS_UTXO, PSBT_IN_PARTIAL_SIG, PSBT_IN_SIGHASH_TYPE,
    PSBT_IN_REDEEM_SCRIPT, PSBT_IN_WITNESS_SCRIPT, PSBT_IN_BIP32_DERIVATION, PSBT_IN_FINAL_SCRIPTSIG,
    PSBT_IN_FINAL_SCRIPTWITNESS, PSBT_IN_RIPEMD160, PSBT_IN_SHA256, PSBT_IN_HASH160, PSBT_IN_HASH256,
    PSBT_IN_TAP_KEY_SIG, PSBT_IN_TAP_SCRIPT_SIG, PSBT_IN_TAP_LEAF_SCRIPT, PSBT_IN_TAP_BIP32_DERIVATION,
    PSBT_IN_TAP_INTERNAL_KEY, PSBT_IN_TAP_MERKLE_ROOT, PSBT_IN_PROPRIETARY]

/-- Every field can be stored and comes back. -/
structure WellFormed (m : Input S) : Prop where
  nonWitnessUtxo : FieldOk (S := S) .transaction PSBT_IN_NON_WITNESS_UTXO (fun _ => True) m.nonWitnessUtxo
  witnessUtxo : FieldOk (S := S) .txOut PSBT_IN_WITNESS_UTXO (fun _ => True) m.witnessUtxo
  partialSigs : MapOk (writeEntry (S := S) .publicKey .ecdsaSignature PSBT_IN_PARTIAL_SIG)
    (fun _ _ => True) m.partialSigs
  sighashType : FieldOk (S := S) .psbtSighashType PSBT_IN_SIGHASH_TYPE (fun _ => True) m.sighashType
  redeemScript : FieldOk (S := S) .bytes PSBT_IN_REDEEM_SCRIPT (fun _ => True) m.redeemScript
  witnessScript : FieldOk (S := S) .bytes PSBT_IN_WITNESS_SCRIPT (fun _ => True) m.witnessScript
  bip32Derivation : MapOk (writeEntry (S := S) .secp256k1PublicKey .keySource PSBT_IN_BIP32_DERIVATION)
    (fun _ => Format.SourceInRange) m.bip32Derivation
  finalScriptSig : FieldOk (S := S) .bytes PSBT_IN_FINAL_SCRIPTSIG (fun _ => True) m.finalScriptSig
  finalScriptWitness : FieldOk (S := S) .witness PSBT_IN_FINAL_SCRIPTWITNESS (fun _ => True)
    m.finalScriptWitness
  ripemd160Preimages : MapOk (writeEntry (S := S) (.hash 20) .bytes PSBT_IN_RIPEMD160)
    (fun k v => Ripemd160.hash v = k) m.ripemd160Preimages
  sha256Preimages : MapOk (writeEntry (S := S) (.hash 32) .bytes PSBT_IN_SHA256)
    (fun k v => Sha256.hash v = k) m.sha256Preimages
  hash160Preimages : MapOk (writeEntry (S := S) (.hash 20) .bytes PSBT_IN_HASH160)
    (fun k v => Hash160.hash v = k) m.hash160Preimages
  hash256Preimages : MapOk (writeEntry (S := S) (.hash 32) .bytes PSBT_IN_HASH256)
    (fun k v => Sha256d.hash v = k) m.hash256Preimages
  tapKeySig : FieldOk (S := S) .taprootSignature PSBT_IN_TAP_KEY_SIG (fun _ => True) m.tapKeySig
  tapScriptSigs : MapOk (writeEntry (S := S) .tapScriptSigKey .taprootSignature PSBT_IN_TAP_SCRIPT_SIG)
    (fun _ _ => True) m.tapScriptSigs
  tapScripts : MapOk (writeEntry (S := S) .controlBlock .versionedScript PSBT_IN_TAP_LEAF_SCRIPT)
    (fun _ _ => True) m.tapScripts
  tapKeyOrigins : MapOk (writeEntry (S := S) .xOnlyPublicKey .tapKeyOrigin PSBT_IN_TAP_BIP32_DERIVATION)
    (fun _ v => Format.SourceInRange v.2) m.tapKeyOrigins
  tapInternalKey : FieldOk (S := S) .xOnlyPublicKey PSBT_IN_TAP_INTERNAL_KEY (fun _ => True) m.tapInternalKey
  tapMerkleRoot : FieldOk (S := S) (.hash 32) PSBT_IN_TAP_MERKLE_ROOT (fun _ => True) m.tapMerkleRoot
  proprietary : MapOk writeProprietary (fun k _ => k.key.length ≤ 1024) m.proprietary
  unknown : MapOk writeUnknown (fun k _ => Unassigned k.typeValue) m.unknown

theorem insertPair_of_unassigned (m : Input S) {pair : Pair} (h : Unassigned pair.key.typeValue) :
    m.insertPair pair = ({ m with unknown := · }) <$> insertUnknown m.unknown pair := by
  simp only [Unassigned, List.mem_cons, List.not_mem_nil, or_false, not_or] at h
  simp only [insertPair, h, if_false]

/-- An input map is rebuilt from its pairs. -/
theorem rebuilds_getPairs (hS : S.Lawful) {m : Input S} (h : m.WellFormed) :
    Rebuilds insertPair Pair.Storable m.getPairs {} m := by
  unfold getPairs
  refine rebuilds_typed (stores_field Format.exact_transaction.lawful _)
    { get := Input.nonWitnessUtxo, set := fun m x => { m with nonWitnessUtxo := x } }
    (fun m p hp => by rw [insertPair, hp]; rfl) rfl h.nonWitnessUtxo ?_
  refine rebuilds_typed (stores_field Format.exact_txOut.lawful _)
    { get := Input.witnessUtxo, set := fun m x => { m with witnessUtxo := x } }
    (fun m p hp => by rw [insertPair, hp]; rfl) rfl h.witnessUtxo ?_
  refine rebuilds_typed (stores_map (keyLawful_publicKey hS) (Format.lawful_ecdsaSignature hS) _)
    { get := Input.partialSigs, set := fun m x => { m with partialSigs := x } }
    (fun m p hp => by rw [insertPair, hp]; rfl) rfl h.partialSigs ?_
  refine rebuilds_typed (stores_field Format.lawful_psbtSighashType _)
    { get := Input.sighashType, set := fun m x => { m with sighashType := x } }
    (fun m p hp => by rw [insertPair, hp]; rfl) rfl h.sighashType ?_
  refine rebuilds_typed (stores_field Format.exact_bytes.lawful _)
    { get := Input.redeemScript, set := fun m x => { m with redeemScript := x } }
    (fun m p hp => by rw [insertPair, hp]; rfl) rfl h.redeemScript ?_
  refine rebuilds_typed (stores_field Format.exact_bytes.lawful _)
    { get := Input.witnessScript, set := fun m x => { m with witnessScript := x } }
    (fun m p hp => by rw [insertPair, hp]; rfl) rfl h.witnessScript ?_
  refine rebuilds_typed (stores_map (keyLawful_secp256k1PublicKey hS) Format.lawful_keySource _)
    { get := Input.bip32Derivation, set := fun m x => { m with bip32Derivation := x } }
    (fun m p hp => by rw [insertPair, hp]; rfl) rfl h.bip32Derivation ?_
  refine rebuilds_typed (stores_field Format.exact_bytes.lawful _)
    { get := Input.finalScriptSig, set := fun m x => { m with finalScriptSig := x } }
    (fun m p hp => by rw [insertPair, hp]; rfl) rfl h.finalScriptSig ?_
  refine rebuilds_typed (stores_field Format.exact_witness.lawful _)
    { get := Input.finalScriptWitness, set := fun m x => { m with finalScriptWitness := x } }
    (fun m p hp => by rw [insertPair, hp]; rfl) rfl h.finalScriptWitness ?_
  refine rebuilds_typed (stores_preimages (by decide) (by decide) Ripemd160.hash .ripemd _)
    { get := Input.ripemd160Preimages, set := fun m x => { m with ripemd160Preimages := x } }
    (fun m p hp => by rw [insertPair, hp]; rfl) rfl h.ripemd160Preimages ?_
  refine rebuilds_typed (stores_preimages (by decide) (by decide) Sha256.hash .sha256 _)
    { get := Input.sha256Preimages, set := fun m x => { m with sha256Preimages := x } }
    (fun m p hp => by rw [insertPair, hp]; rfl) rfl h.sha256Preimages ?_
  refine rebuilds_typed (stores_preimages (by decide) (by decide) Hash160.hash .hash160 _)
    { get := Input.hash160Preimages, set := fun m x => { m with hash160Preimages := x } }
    (fun m p hp => by rw [insertPair, hp]; rfl) rfl h.hash160Preimages ?_
  refine rebuilds_typed (stores_preimages (by decide) (by decide) Sha256d.hash .hash256 _)
    { get := Input.hash256Preimages, set := fun m x => { m with hash256Preimages := x } }
    (fun m p hp => by rw [insertPair, hp]; rfl) rfl h.hash256Preimages ?_
  refine rebuilds_typed (stores_field (Format.lawful_taprootSignature hS) _)
    { get := Input.tapKeySig, set := fun m x => { m with tapKeySig := x } }
    (fun m p hp => by rw [insertPair, hp]; rfl) rfl h.tapKeySig ?_
  refine rebuilds_typed (stores_map (keyLawful_tapScriptSigKey hS) (Format.lawful_taprootSignature hS) _)
    { get := Input.tapScriptSigs, set := fun m x => { m with tapScriptSigs := x } }
    (fun m p hp => by rw [insertPair, hp]; rfl) rfl h.tapScriptSigs ?_
  refine rebuilds_typed (stores_map (keyLawful_controlBlock hS) Format.lawful_versionedScript _)
    { get := Input.tapScripts, set := fun m x => { m with tapScripts := x } }
    (fun m p hp => by rw [insertPair, hp]; rfl) rfl h.tapScripts ?_
  refine rebuilds_typed (stores_map (keyLawful_xOnlyPublicKey hS) Format.lawful_tapKeyOrigin _)
    { get := Input.tapKeyOrigins, set := fun m x => { m with tapKeyOrigins := x } }
    (fun m p hp => by rw [insertPair, hp]; rfl) rfl h.tapKeyOrigins ?_
  refine rebuilds_typed (stores_field (Format.lawful_xOnlyPublicKey hS) _)
    { get := Input.tapInternalKey, set := fun m x => { m with tapInternalKey := x } }
    (fun m p hp => by rw [insertPair, hp]; rfl) rfl h.tapInternalKey ?_
  refine rebuilds_typed (stores_field (Format.lawful_hash (by decide)) _)
    { get := Input.tapMerkleRoot, set := fun m x => { m with tapMerkleRoot := x } }
    (fun m p hp => by rw [insertPair, hp]; rfl) rfl h.tapMerkleRoot ?_
  refine rebuilds_typed stores_proprietary
    { get := Input.proprietary, set := fun m x => { m with proprietary := x } }
    (fun m p hp => by rw [insertPair, hp]; rfl) rfl h.proprietary ?_
  refine rebuilds_cons ((stores_unknown Unassigned).rebuilds
    { get := Input.unknown, set := fun m x => { m with unknown := x } }
    (fun m p hp => insertPair_of_unassigned m hp.1) (fun _ hp => hp.2) rfl h.unknown) ?_
  exact rebuilds_nil _ _

/-- Reading a pair keeps an input map well-formed. -/
theorem WellFormed.insertPair (hS : S.Lawful) {m m' : Input S} (h : m.WellFormed) {pair : Pair}
    (hpair : pair.Storable) (hins : m.insertPair pair = .ok m') : m'.WellFormed := by
  unfold Input.insertPair at hins
  refine Outcome.of_ite_eq_ok hins (fun htype hins => ?_) fun h1 hins => ?_
  · obtain ⟨x, hx, rfl⟩ := of_map_insert_eq_ok
      (stores_field Format.exact_transaction.lawful _) htype hpair hins h.nonWitnessUtxo
    exact { h with nonWitnessUtxo := hx }
  refine Outcome.of_ite_eq_ok hins (fun htype hins => ?_) fun h2 hins => ?_
  · obtain ⟨x, hx, rfl⟩ := of_map_insert_eq_ok
      (stores_field Format.exact_txOut.lawful _) htype hpair hins h.witnessUtxo
    exact { h with witnessUtxo := hx }
  refine Outcome.of_ite_eq_ok hins (fun htype hins => ?_) fun h3 hins => ?_
  · obtain ⟨x, hx, rfl⟩ := of_map_insert_eq_ok
      (stores_map (keyLawful_publicKey hS) (Format.lawful_ecdsaSignature hS) _) htype hpair hins h.partialSigs
    exact { h with partialSigs := hx }
  refine Outcome.of_ite_eq_ok hins (fun htype hins => ?_) fun h4 hins => ?_
  · obtain ⟨x, hx, rfl⟩ := of_map_insert_eq_ok
      (stores_field Format.lawful_psbtSighashType _) htype hpair hins h.sighashType
    exact { h with sighashType := hx }
  refine Outcome.of_ite_eq_ok hins (fun htype hins => ?_) fun h5 hins => ?_
  · obtain ⟨x, hx, rfl⟩ := of_map_insert_eq_ok
      (stores_field Format.exact_bytes.lawful _) htype hpair hins h.redeemScript
    exact { h with redeemScript := hx }
  refine Outcome.of_ite_eq_ok hins (fun htype hins => ?_) fun h6 hins => ?_
  · obtain ⟨x, hx, rfl⟩ := of_map_insert_eq_ok
      (stores_field Format.exact_bytes.lawful _) htype hpair hins h.witnessScript
    exact { h with witnessScript := hx }
  refine Outcome.of_ite_eq_ok hins (fun htype hins => ?_) fun h7 hins => ?_
  · obtain ⟨x, hx, rfl⟩ := of_map_insert_eq_ok
      (stores_map (keyLawful_secp256k1PublicKey hS) Format.lawful_keySource _) htype hpair hins
      h.bip32Derivation
    exact { h with bip32Derivation := hx }
  refine Outcome.of_ite_eq_ok hins (fun htype hins => ?_) fun h8 hins => ?_
  · obtain ⟨x, hx, rfl⟩ := of_map_insert_eq_ok
      (stores_field Format.exact_bytes.lawful _) htype hpair hins h.finalScriptSig
    exact { h with finalScriptSig := hx }
  refine Outcome.of_ite_eq_ok hins (fun htype hins => ?_) fun h9 hins => ?_
  · obtain ⟨x, hx, rfl⟩ := of_map_insert_eq_ok
      (stores_field Format.exact_witness.lawful _) htype hpair hins h.finalScriptWitness
    exact { h with finalScriptWitness := hx }
  refine Outcome.of_ite_eq_ok hins (fun htype hins => ?_) fun h10 hins => ?_
  · obtain ⟨x, hx, rfl⟩ := of_map_insert_eq_ok
      (stores_preimages (by decide) (by decide) Ripemd160.hash .ripemd _) htype hpair hins h.ripemd160Preimages
    exact { h with ripemd160Preimages := hx }
  refine Outcome.of_ite_eq_ok hins (fun htype hins => ?_) fun h11 hins => ?_
  · obtain ⟨x, hx, rfl⟩ := of_map_insert_eq_ok
      (stores_preimages (by decide) (by decide) Sha256.hash .sha256 _) htype hpair hins h.sha256Preimages
    exact { h with sha256Preimages := hx }
  refine Outcome.of_ite_eq_ok hins (fun htype hins => ?_) fun h12 hins => ?_
  · obtain ⟨x, hx, rfl⟩ := of_map_insert_eq_ok
      (stores_preimages (by decide) (by decide) Hash160.hash .hash160 _) htype hpair hins h.hash160Preimages
    exact { h with hash160Preimages := hx }
  refine Outcome.of_ite_eq_ok hins (fun htype hins => ?_) fun h13 hins => ?_
  · obtain ⟨x, hx, rfl⟩ := of_map_insert_eq_ok
      (stores_preimages (by decide) (by decide) Sha256d.hash .hash256 _) htype hpair hins h.hash256Preimages
    exact { h with hash256Preimages := hx }
  refine Outcome.of_ite_eq_ok hins (fun htype hins => ?_) fun h14 hins => ?_
  · obtain ⟨x, hx, rfl⟩ := of_map_insert_eq_ok
      (stores_field (Format.lawful_taprootSignature hS) _) htype hpair hins h.tapKeySig
    exact { h with tapKeySig := hx }
  refine Outcome.of_ite_eq_ok hins (fun htype hins => ?_) fun h15 hins => ?_
  · obtain ⟨x, hx, rfl⟩ := of_map_insert_eq_ok
      (stores_map (keyLawful_tapScriptSigKey hS) (Format.lawful_taprootSignature hS) _) htype hpair hins
      h.tapScriptSigs
    exact { h with tapScriptSigs := hx }
  refine Outcome.of_ite_eq_ok hins (fun htype hins => ?_) fun h16 hins => ?_
  · obtain ⟨x, hx, rfl⟩ := of_map_insert_eq_ok
      (stores_map (keyLawful_controlBlock hS) Format.lawful_versionedScript _) htype hpair hins h.tapScripts
    exact { h with tapScripts := hx }
  refine Outcome.of_ite_eq_ok hins (fun htype hins => ?_) fun h17 hins => ?_
  · obtain ⟨x, hx, rfl⟩ := of_map_insert_eq_ok
      (stores_map (keyLawful_xOnlyPublicKey hS) Format.lawful_tapKeyOrigin _) htype hpair hins h.tapKeyOrigins
    exact { h with tapKeyOrigins := hx }
  refine Outcome.of_ite_eq_ok hins (fun htype hins => ?_) fun h18 hins => ?_
  · obtain ⟨x, hx, rfl⟩ := of_map_insert_eq_ok
      (stores_field (Format.lawful_xOnlyPublicKey hS) _) htype hpair hins h.tapInternalKey
    exact { h with tapInternalKey := hx }
  refine Outcome.of_ite_eq_ok hins (fun htype hins => ?_) fun h19 hins => ?_
  · obtain ⟨x, hx, rfl⟩ := of_map_insert_eq_ok
      (stores_field (Format.lawful_hash (by decide)) _) htype hpair hins h.tapMerkleRoot
    exact { h with tapMerkleRoot := hx }
  refine Outcome.of_ite_eq_ok hins (fun htype hins => ?_) fun h20 hins => ?_
  · obtain ⟨x, hx, rfl⟩ := of_map_insert_eq_ok stores_proprietary htype hpair hins h.proprietary
    exact { h with proprietary := hx }
  have hfree : Unassigned pair.key.typeValue := by
    simp only [Unassigned, List.mem_cons, List.not_mem_nil, or_false, not_or]
    exact ⟨h1, h2, h3, h4, h5, h6, h7, h8, h9, h10, h11, h12, h13, h14, h15, h16, h17, h18, h19, h20⟩
  obtain ⟨x, hx, rfl⟩ := Outcome.map_eq_ok_iff.1 hins
  exact { h with unknown := (stores_unknown Unassigned).ok_insert _ _ _ h.unknown ⟨hfree, hpair⟩ hx }

theorem wellFormed_empty : ({} : Input S).WellFormed := by
  constructor <;> simp [FieldOk, MapOk, BTreeMap.Forall]

/-- The conditions on an input map: preimages hash to their keys, proprietary keys have at most 1024 bytes
after the subtype, unknown keys are not known ones, and all pairs are within the limits. -/
structure Serializable (m : Input S) : Prop where
  ripemd160 : m.ripemd160Preimages.Forall fun hash preimage => Ripemd160.hash preimage = hash
  sha256 : m.sha256Preimages.Forall fun hash preimage => Sha256.hash preimage = hash
  hash160 : m.hash160Preimages.Forall fun hash preimage => Hash160.hash preimage = hash
  hash256 : m.hash256Preimages.Forall fun hash preimage => Sha256d.hash preimage = hash
  proprietary : m.proprietary.Forall fun k _ => k.key.length ≤ 1024
  unknown : m.unknown.Forall fun k _ => Unassigned k.typeValue
  limits : PairsWithinLimits m.getPairs

/-- The child numbers in the derivation paths of an input map are in range. -/
structure InRange (m : Input S) : Prop where
  bip32Derivation : m.bip32Derivation.Forall fun _ source => Format.SourceInRange source
  tapKeyOrigins : m.tapKeyOrigins.Forall fun _ origin => Format.SourceInRange origin.2

theorem Serializable.wellFormed {m : Input S} (h : m.Serializable) (hrange : m.InRange) : m.WellFormed := by
  have hlisted := listed_concatPairs_iff.1 h.limits.listed
  simp only [List.forall_mem_cons, List.not_mem_nil, false_imp_iff, implies_true, and_true] at hlisted
  obtain ⟨h1, h2, h3, h4, h5, h6, h7, h8, h9, h10, h11, h12, h13, h14, h15, h16, h17, h18, h19, h20, h21⟩ :=
    hlisted
  exact {
    nonWitnessUtxo := fieldOk_of_listed h1 fun _ _ => trivial
    witnessUtxo := fieldOk_of_listed h2 fun _ _ => trivial
    partialSigs := mapOk_of_listed h3 fun _ _ _ => trivial
    sighashType := fieldOk_of_listed h4 fun _ _ => trivial
    redeemScript := fieldOk_of_listed h5 fun _ _ => trivial
    witnessScript := fieldOk_of_listed h6 fun _ _ => trivial
    bip32Derivation := mapOk_of_listed h7 hrange.bip32Derivation
    finalScriptSig := fieldOk_of_listed h8 fun _ _ => trivial
    finalScriptWitness := fieldOk_of_listed h9 fun _ _ => trivial
    ripemd160Preimages := mapOk_of_listed h10 h.ripemd160
    sha256Preimages := mapOk_of_listed h11 h.sha256
    hash160Preimages := mapOk_of_listed h12 h.hash160
    hash256Preimages := mapOk_of_listed h13 h.hash256
    tapKeySig := fieldOk_of_listed h14 fun _ _ => trivial
    tapScriptSigs := mapOk_of_listed h15 fun _ _ _ => trivial
    tapScripts := mapOk_of_listed h16 fun _ _ _ => trivial
    tapKeyOrigins := mapOk_of_listed h17 hrange.tapKeyOrigins
    tapInternalKey := fieldOk_of_listed h18 fun _ _ => trivial
    tapMerkleRoot := fieldOk_of_listed h19 fun _ _ => trivial
    proprietary := mapOk_of_listed h20 h.proprietary
    unknown := mapOk_of_listed h21 h.unknown }

end Input

/-! ## Output maps -/

namespace Output

/-- The map has no field for keys of this type. -/
def Unassigned (t : UInt8) : Prop :=
  t ∉ [PSBT_OUT_REDEEM_SCRIPT, PSBT_OUT_WITNESS_SCRIPT, PSBT_OUT_BIP32_DERIVATION, PSBT_OUT_PROPRIETARY,
    PSBT_OUT_TAP_INTERNAL_KEY, PSBT_OUT_TAP_TREE, PSBT_OUT_TAP_BIP32_DERIVATION]

/-- Every field can be stored and comes back. -/
structure WellFormed (m : Output S) : Prop where
  redeemScript : FieldOk (S := S) .bytes PSBT_OUT_REDEEM_SCRIPT (fun _ => True) m.redeemScript
  witnessScript : FieldOk (S := S) .bytes PSBT_OUT_WITNESS_SCRIPT (fun _ => True) m.witnessScript
  bip32Derivation : MapOk (writeEntry (S := S) .secp256k1PublicKey .keySource PSBT_OUT_BIP32_DERIVATION)
    (fun _ => Format.SourceInRange) m.bip32Derivation
  tapInternalKey : FieldOk (S := S) .xOnlyPublicKey PSBT_OUT_TAP_INTERNAL_KEY (fun _ => True) m.tapInternalKey
  tapTree : FieldOk (S := S) .tapTree PSBT_OUT_TAP_TREE (fun tree => Built tree.nodeInfo) m.tapTree
  tapKeyOrigins : MapOk (writeEntry (S := S) .xOnlyPublicKey .tapKeyOrigin PSBT_OUT_TAP_BIP32_DERIVATION)
    (fun _ v => Format.SourceInRange v.2) m.tapKeyOrigins
  proprietary : MapOk writeProprietary (fun k _ => k.key.length ≤ 1024) m.proprietary
  unknown : MapOk writeUnknown (fun k _ => Unassigned k.typeValue) m.unknown

theorem insertPair_of_unassigned (m : Output S) {pair : Pair} (h : Unassigned pair.key.typeValue) :
    m.insertPair pair = ({ m with unknown := · }) <$> insertUnknown m.unknown pair := by
  simp only [Unassigned, List.mem_cons, List.not_mem_nil, or_false, not_or] at h
  simp only [insertPair, h, if_false]

/-- An output map is rebuilt from its pairs. -/
theorem rebuilds_getPairs (hS : S.Lawful) {m : Output S} (h : m.WellFormed) :
    Rebuilds insertPair Pair.Storable m.getPairs {} m := by
  unfold getPairs
  refine rebuilds_typed (stores_field Format.exact_bytes.lawful _)
    { get := Output.redeemScript, set := fun m x => { m with redeemScript := x } }
    (fun m p hp => by rw [insertPair, hp]; rfl) rfl h.redeemScript ?_
  refine rebuilds_typed (stores_field Format.exact_bytes.lawful _)
    { get := Output.witnessScript, set := fun m x => { m with witnessScript := x } }
    (fun m p hp => by rw [insertPair, hp]; rfl) rfl h.witnessScript ?_
  refine rebuilds_typed (stores_map (keyLawful_secp256k1PublicKey hS) Format.lawful_keySource _)
    { get := Output.bip32Derivation, set := fun m x => { m with bip32Derivation := x } }
    (fun m p hp => by rw [insertPair, hp]; rfl) rfl h.bip32Derivation ?_
  refine rebuilds_typed (stores_field (Format.lawful_xOnlyPublicKey hS) _)
    { get := Output.tapInternalKey, set := fun m x => { m with tapInternalKey := x } }
    (fun m p hp => by rw [insertPair, hp]; rfl) rfl h.tapInternalKey ?_
  refine rebuilds_typed (stores_field Format.lawful_tapTree _)
    { get := Output.tapTree, set := fun m x => { m with tapTree := x } }
    (fun m p hp => by rw [insertPair, hp]; rfl) rfl h.tapTree ?_
  refine rebuilds_typed (stores_map (keyLawful_xOnlyPublicKey hS) Format.lawful_tapKeyOrigin _)
    { get := Output.tapKeyOrigins, set := fun m x => { m with tapKeyOrigins := x } }
    (fun m p hp => by rw [insertPair, hp]; rfl) rfl h.tapKeyOrigins ?_
  refine rebuilds_typed stores_proprietary
    { get := Output.proprietary, set := fun m x => { m with proprietary := x } }
    (fun m p hp => by rw [insertPair, hp]; rfl) rfl h.proprietary ?_
  refine rebuilds_cons ((stores_unknown Unassigned).rebuilds
    { get := Output.unknown, set := fun m x => { m with unknown := x } }
    (fun m p hp => insertPair_of_unassigned m hp.1) (fun _ hp => hp.2) rfl h.unknown) ?_
  exact rebuilds_nil _ _

/-- Reading a pair keeps an output map well-formed. -/
theorem WellFormed.insertPair (hS : S.Lawful) {m m' : Output S} (h : m.WellFormed) {pair : Pair}
    (hpair : pair.Storable) (hins : m.insertPair pair = .ok m') : m'.WellFormed := by
  unfold Output.insertPair at hins
  refine Outcome.of_ite_eq_ok hins (fun htype hins => ?_) fun h1 hins => ?_
  · obtain ⟨x, hx, rfl⟩ := of_map_insert_eq_ok
      (stores_field Format.exact_bytes.lawful _) htype hpair hins h.redeemScript
    exact { h with redeemScript := hx }
  refine Outcome.of_ite_eq_ok hins (fun htype hins => ?_) fun h2 hins => ?_
  · obtain ⟨x, hx, rfl⟩ := of_map_insert_eq_ok
      (stores_field Format.exact_bytes.lawful _) htype hpair hins h.witnessScript
    exact { h with witnessScript := hx }
  refine Outcome.of_ite_eq_ok hins (fun htype hins => ?_) fun h3 hins => ?_
  · obtain ⟨x, hx, rfl⟩ := of_map_insert_eq_ok
      (stores_map (keyLawful_secp256k1PublicKey hS) Format.lawful_keySource _) htype hpair hins
      h.bip32Derivation
    exact { h with bip32Derivation := hx }
  refine Outcome.of_ite_eq_ok hins (fun htype hins => ?_) fun h4 hins => ?_
  · obtain ⟨x, hx, rfl⟩ := of_map_insert_eq_ok stores_proprietary htype hpair hins h.proprietary
    exact { h with proprietary := hx }
  refine Outcome.of_ite_eq_ok hins (fun htype hins => ?_) fun h5 hins => ?_
  · obtain ⟨x, hx, rfl⟩ := of_map_insert_eq_ok
      (stores_field (Format.lawful_xOnlyPublicKey hS) _) htype hpair hins h.tapInternalKey
    exact { h with tapInternalKey := hx }
  refine Outcome.of_ite_eq_ok hins (fun htype hins => ?_) fun h6 hins => ?_
  · obtain ⟨x, hx, rfl⟩ := of_map_insert_eq_ok
      (stores_field Format.lawful_tapTree _) htype hpair hins h.tapTree
    exact { h with tapTree := hx }
  refine Outcome.of_ite_eq_ok hins (fun htype hins => ?_) fun h7 hins => ?_
  · obtain ⟨x, hx, rfl⟩ := of_map_insert_eq_ok
      (stores_map (keyLawful_xOnlyPublicKey hS) Format.lawful_tapKeyOrigin _) htype hpair hins h.tapKeyOrigins
    exact { h with tapKeyOrigins := hx }
  have hfree : Unassigned pair.key.typeValue := by
    simp only [Unassigned, List.mem_cons, List.not_mem_nil, or_false, not_or]
    exact ⟨h1, h2, h3, h4, h5, h6, h7⟩
  obtain ⟨x, hx, rfl⟩ := Outcome.map_eq_ok_iff.1 hins
  exact { h with unknown := (stores_unknown Unassigned).ok_insert _ _ _ h.unknown ⟨hfree, hpair⟩ hx }

theorem wellFormed_empty : ({} : Output S).WellFormed := by
  constructor <;> simp [FieldOk, MapOk, BTreeMap.Forall]

/-- The conditions on an output map: the script tree, which has no hidden nodes, was built from leaves and
branches, proprietary keys have at most 1024 bytes after the subtype, unknown keys are not known ones, and
all pairs are within the limits. -/
structure Serializable (m : Output S) : Prop where
  tapTree : ∀ tree, m.tapTree = some tree → Built tree.nodeInfo
  proprietary : m.proprietary.Forall fun k _ => k.key.length ≤ 1024
  unknown : m.unknown.Forall fun k _ => Unassigned k.typeValue
  limits : PairsWithinLimits m.getPairs

/-- The child numbers in the derivation paths of an output map are in range. -/
structure InRange (m : Output S) : Prop where
  bip32Derivation : m.bip32Derivation.Forall fun _ source => Format.SourceInRange source
  tapKeyOrigins : m.tapKeyOrigins.Forall fun _ origin => Format.SourceInRange origin.2

theorem Serializable.wellFormed {m : Output S} (h : m.Serializable) (hrange : m.InRange) : m.WellFormed := by
  have hlisted := listed_concatPairs_iff.1 h.limits.listed
  simp only [List.forall_mem_cons, List.not_mem_nil, false_imp_iff, implies_true, and_true] at hlisted
  obtain ⟨h1, h2, h3, h4, h5, h6, h7, h8⟩ := hlisted
  exact {
    redeemScript := fieldOk_of_listed h1 fun _ _ => trivial
    witnessScript := fieldOk_of_listed h2 fun _ _ => trivial
    bip32Derivation := mapOk_of_listed h3 hrange.bip32Derivation
    tapInternalKey := fieldOk_of_listed h4 fun _ _ => trivial
    tapTree := fieldOk_of_listed h5 h.tapTree
    tapKeyOrigins := mapOk_of_listed h6 hrange.tapKeyOrigins
    proprietary := mapOk_of_listed h7 h.proprietary
    unknown := mapOk_of_listed h8 h.unknown }

end Output

end Psbt

end RustDogecoin
