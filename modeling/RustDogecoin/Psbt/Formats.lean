import RustDogecoin.Crypto.CurveFormats
import RustDogecoin.Psbt.Serialize
import RustDogecoin.Taproot.Leaves

/-!
# Laws of the byte forms

What a byte form gives back.  A format is `Lawful` on a set `P` of values when it reads the values in `P` back
from what it writes, up to the limit on the size of a vector, and when the values it reads are in `P` and
can be written again in about as many bytes as they were read from.  Formats that read only what they write
are `Exact`.
-/

namespace RustDogecoin

namespace Psbt

open Raw Taproot DepthFirst

variable {S : KeyFormats} {α : Type}

namespace Format

/-- The size of the largest control block; all other byte forms that may be longer than what they were
read from are shorter than that. -/
def MAX_FIXED_SIZE : ℕ := 33 + 32 * 128

/-- The laws of a format that reads exactly the values in `P`. -/
structure Lawful (f : Format S α) (P : α → Prop) : Prop where
  inverts : ∀ a w, P a → f.serialize a = .ok w → w.length ≤ MAX_VEC_SIZE → f.deserialize w = .ok a
  returns : ∀ bs a, bs.length ≤ MAX_VEC_SIZE → f.deserialize bs = .ok a →
    P a ∧ ∃ w, f.serialize a = .ok w ∧ w.length ≤ max bs.length MAX_FIXED_SIZE

/-- The format reads what it writes, and nothing else. -/
def Exact (f : Format S α) (P : α → Prop) : Prop :=
  ∀ bs a, bs.length ≤ MAX_VEC_SIZE → (f.deserialize bs = .ok a ↔ P a ∧ f.serialize a = .ok bs)

theorem Exact.lawful {f : Format S α} {P : α → Prop} (h : f.Exact P) : f.Lawful P where
  inverts a w ha hw hlen := (h w a hlen).2 ⟨ha, hw⟩
  returns bs a hlen ha := by
    obtain ⟨hP, hw⟩ := (h bs a hlen).1 ha
    exact ⟨hP, bs, hw, le_max_left _ _⟩

/-- A format with short byte forms, all of which are read back. -/
theorem Lawful.of_short {f : Format S α}
    (h : ∀ a, ∃ w, f.serialize a = .ok w ∧ f.deserialize w = .ok a ∧ w.length ≤ MAX_FIXED_SIZE) :
    f.Lawful fun _ => True where
  inverts a w _ hw _ := by
    obtain ⟨w', hw', ha, -⟩ := h a
    rwa [← Outcome.ok.inj (hw.symm.trans hw')] at ha
  returns bs a _ _ := by
    obtain ⟨w, hw, -, hlen⟩ := h a
    exact ⟨trivial, w, hw, hlen.trans (le_max_right _ _)⟩

/-! ## Consensus encodings -/

theorem deserialize_eq_ok_iff {c : Codec α} {data : Bytes} {a : α} :
    RustDogecoin.deserialize c data = .ok a ↔ c.consensusDecodeFromFiniteReader.run data = .ok (a, []) := by
  unfold RustDogecoin.deserialize
  rw [Outcome.bind_eq_ok_iff]
  constructor
  · rintro ⟨⟨a', rest⟩, hrun, h⟩
    obtain ⟨rfl, h⟩ := Outcome.ensure_bind_eq_ok_iff.1 h
    cases h
    exact hrun
  · intro h
    exact ⟨_, h, Outcome.ensure_bind_eq_ok_iff.2 ⟨rfl, rfl⟩⟩

/-- A lawful codec whose condition short encodings keep. -/
theorem exact_implPsbtDeSerialize {c : Codec α} {P : α → Prop} (h : c.IsLawful P)
    (hshort : ∀ a w, c.consensusEncode a = .ok w → w.bytes.length ≤ MAX_VEC_SIZE → P a) :
    (implPsbtDeSerialize c : Format S α).Exact fun _ => True := by
  intro bs a hlen
  show (RustDogecoin.deserialize c bs).mapErr _ = _ ↔ True ∧ Written.bytes <$> c.consensusEncode a = _
  rw [Outcome.mapErr_eq_ok_iff, deserialize_eq_ok_iff, Outcome.map_eq_ok_iff, true_and]
  constructor
  · intro hrun
    obtain ⟨-, w, hw, hbs⟩ := h.finite.canonical _ _ _ hrun
    exact ⟨w, hw, by rw [hbs, List.append_nil]⟩
  · rintro ⟨w, hw, rfl⟩
    have hrun := h.finite.roundTrips a w (hshort a w hw hlen) hw []
    rwa [List.append_nil] at hrun

theorem exact_txOut : (txOut : Format S TxOut).Exact fun _ => True :=
  exact_implPsbtDeSerialize TxOut.lawful fun _ _ _ _ => trivial

theorem exact_witness : (witness : Format S Witness).Exact fun _ => True := by
  apply exact_implPsbtDeSerialize Witness.lawful
  intro a w hw hlen
  apply Witness.indicesStart_le_of_fits
  intro w' hw'
  rwa [← Outcome.ok.inj (hw.symm.trans hw')]

/-- An element of a list is written in no more bytes than the list. -/
theorem length_le_of_mem {enc : Encoder α} {as : List α} {ws : Written} (h : enc.list as = .ok ws) {a : α}
    (ha : a ∈ as) : ∃ w, enc a = .ok w ∧ w.bytes.length ≤ ws.bytes.length := by
  induction as generalizing ws with
  | nil => cases ha
  | cons b as ih =>
    obtain ⟨u, v, hu, hv, rfl⟩ := Encoder.list_cons_eq_ok_iff.1 h
    rw [Written.bytes_append, List.length_append]
    rcases List.mem_cons.1 ha with rfl | ha
    · exact ⟨u, hu, Nat.le_add_right _ _⟩
    · obtain ⟨w, hw, hle⟩ := ih hv ha
      exact ⟨w, hw, hle.trans (Nat.le_add_left _ _)⟩

/-- A transaction within the limit has witnesses within the limit. -/
theorem indicesStart_le_of_length_le {tx : Transaction} {w : Written}
    (h : Transaction.codec.consensusEncode tx = .ok w) (hlen : w.bytes.length ≤ MAX_VEC_SIZE) :
    ∀ t ∈ tx.input, t.witness.repr.indicesStart ≤ MAX_VEC_SIZE := by
  intro t ht
  cases hseg : tx.usesSegwitSerialization with
  | false =>
    rw [(Transaction.usesSegwitSerialization_eq_false_iff.1 hseg).1 t ht]
    exact Nat.zero_le _
  | true =>
    obtain ⟨v, i, o, ws, l, -, -, -, hws, -, rfl⟩ := (Transaction.consensusEncode_segwit hseg).1 h
    obtain ⟨u, hu, hle⟩ := length_le_of_mem hws (List.mem_map_of_mem ht)
    apply Witness.indicesStart_le_of_fits
    intro u' hu'
    rw [← Outcome.ok.inj (hu.symm.trans hu')]
    simp only [Written.bytes_append, List.length_append] at hlen
    omega

theorem exact_transaction : (transaction : Format S Transaction).Exact fun _ => True :=
  exact_implPsbtDeSerialize Transaction.lawful fun _ _ => indicesStart_le_of_length_le

theorem exact_bytes : (bytes : Format S Bytes).Exact fun _ => True := by
  intro bs a _
  simp [bytes, eq_comm]

/-! ## Hashes, keys and signatures -/

theorem lawful_hash {n : ℕ} (hn : n ≤ MAX_FIXED_SIZE) : (hash n : Format S (U8Array n)).Lawful fun _ => True := by
  refine .of_short fun h => ⟨h.toList, rfl, ?_, h.length_eq.trans_le hn⟩
  exact Outcome.mapErr_eq_ok_iff.2 (hashFromSlice_toList h)

theorem lawful_publicKey (hS : S.Lawful) : (publicKey : Format S (PublicKey S)).Lawful fun _ => True := by
  refine .of_short fun k => ⟨k.toBytes, rfl, ?_, k.length_toBytes.trans (by decide)⟩
  exact Outcome.mapErr_eq_ok_iff.2 (PublicKey.fromSlice_toBytes hS k)

theorem lawful_secp256k1PublicKey (hS : S.Lawful) :
    (secp256k1PublicKey : Format S S.PublicKey).Lawful fun _ => True := by
  refine .of_short fun k => ⟨(S.serialize k).toList, rfl, ?_, (S.serialize k).length_eq.trans_le (by decide)⟩
  exact Outcome.mapErr_eq_ok_iff.2 (by rw [hS.publicKey, Outcome.ofExcept_ok])

theorem lawful_ecdsaSignature (hS : S.Lawful) :
    (ecdsaSignature : Format S (Ecdsa.Signature S)).Lawful fun _ => True := by
  refine .of_short fun sig => ⟨sig.toVec, rfl, ?_, sig.length_toVec.trans (by decide)⟩
  exact Outcome.mapErr_eq_ok_iff.2 (Ecdsa.Signature.fromSlice_toVec hS sig)

theorem lawful_xOnlyPublicKey (hS : S.Lawful) :
    (xOnlyPublicKey : Format S S.XOnlyPublicKey).Lawful fun _ => True := by
  refine .of_short fun k =>
    ⟨(S.xOnlySerialize k).toList, rfl, ?_, (S.xOnlySerialize k).length_eq.trans_le (by decide)⟩
  exact Outcome.mapErr_eq_ok_iff.2 (by rw [hS.xOnly, Outcome.ofExcept_ok])

theorem lawful_taprootSignature (hS : S.Lawful) :
    (taprootSignature : Format S (Taproot.Signature S)).Lawful fun _ => True := by
  refine .of_short fun sig => ⟨sig.toVec, rfl, ?_, sig.length_toVec.trans (by decide)⟩
  exact Outcome.mapErr_eq_ok_iff.2 (Taproot.Signature.fromSlice_toVec hS sig)

theorem lawful_controlBlock (hS : S.Lawful) : (controlBlock : Format S (ControlBlock S)).Lawful fun _ => True := by
  refine .of_short fun cb => ⟨cb.serialize, rfl, ?_, ?_⟩
  · exact Outcome.mapErr_eq_ok_iff.2 (ControlBlock.decode_serialize hS cb)
  · have hbranch : cb.merkleBranch.hashes.length ≤ 128 := cb.merkleBranch.length_le
    rw [ControlBlock.length_serialize, MAX_FIXED_SIZE]
    omega

theorem lawful_psbtSighashType : (psbtSighashType : Format S PsbtSighashType).Lawful fun _ => True := by
  refine .of_short fun ty => ⟨leBytes 4 ty.inner.toNat, rfl, ?_, by rw [length_leBytes]; decide⟩
  have hrun := run_u32 ty.inner []
  rw [List.append_nil] at hrun
  have hraw : RustDogecoin.deserialize u32 (leBytes 4 ty.inner.toNat) = .ok ty.inner :=
    deserialize_eq_ok_iff.2 hrun
  show (RustDogecoin.deserialize u32 _).mapErr _ >>= _ = _
  rw [hraw]
  rfl

theorem lawful_tapScriptSigKey (hS : S.Lawful) :
    (tapScriptSigKey : Format S (S.XOnlyPublicKey ×ₗ U8Array 32)).Lawful fun _ => True := by
  refine .of_short fun k => ⟨_, rfl, ?_, ?_⟩
  · have hkey : (xOnlyPublicKey : Format S _).deserialize (S.xOnlySerialize (ofLex k).1).toList =
        .ok (ofLex k).1 := Outcome.mapErr_eq_ok_iff.2 (by rw [hS.xOnly, Outcome.ofExcept_ok])
    have hhash : (hash 32 : Format S _).deserialize (ofLex k).2.toList = .ok (ofLex k).2 :=
      Outcome.mapErr_eq_ok_iff.2 (hashFromSlice_toList _)
    refine Outcome.ensure_bind_eq_ok_iff.2 ⟨by simp, ?_⟩
    rw [List.take_left' (U8Array.length_eq _), List.drop_left' (U8Array.length_eq _), hkey,
      Outcome.ok_bind, hhash]
    rfl
  · rw [List.length_append, U8Array.length_eq, U8Array.length_eq]
    decide

theorem lawful_versionedScript :
    (versionedScript : Format S (ScriptBuf × LeafVersion)).Lawful fun _ => True where
  inverts v w _ h _ := by
    obtain rfl : v.1 ++ [v.2.toConsensus] = w := Outcome.ok.inj h
    refine Outcome.ensure_bind_eq_ok_iff.2 ⟨by simp, ?_⟩
    rw [List.getLastD_concat, LeafVersion.fromConsensus_toConsensus, List.dropLast_concat]
    rfl
  returns bs v _ h := by
    obtain ⟨hne, h⟩ := Outcome.ensure_bind_eq_ok_iff.1 h
    obtain ⟨ver, -, h⟩ := Outcome.bind_eq_ok_iff.1 h
    cases h
    have hpos : 0 < bs.length := List.length_pos_iff.2 hne
    refine ⟨trivial, bs.dropLast ++ [ver.toConsensus], rfl, le_max_of_le_left ?_⟩
    rw [List.length_append, List.length_dropLast, List.length_singleton]
    omega

/-! ## Key sources -/

theorem length_pathBytes (path : List Bip32.ChildNumber) : (pathBytes path).length = 4 * path.length := by
  induction path with
  | nil => rfl
  | cons c path ih =>
    rw [pathBytes, List.flatMap_cons, List.length_append, length_leBytes, ← pathBytes, ih, List.length_cons]
    omega

theorem readPath_pathBytes {path : List Bip32.ChildNumber} (h : ∀ c ∈ path, c.InRange) {fuel : ℕ}
    (hfuel : path.length ≤ fuel) : (readPath fuel (pathBytes path) : Outcome (Error S) _) = .ok path := by
  induction path generalizing fuel with
  | nil => cases fuel <;> rfl
  | cons c path ih =>
    obtain ⟨fuel, rfl⟩ : ∃ n, fuel = n + 1 := Nat.exists_eq_add_one.2 (by simp at hfuel; omega)
    rw [List.forall_mem_cons] at h
    have hne : pathBytes (c :: path) ≠ [] := by
      rw [← List.length_pos_iff, length_pathBytes]
      simp
    have hrun : u32.consensusDecode.run (pathBytes (c :: path)) = .ok (c.toU32, pathBytes path) :=
      run_u32 c.toU32 (pathBytes path)
    rw [readPath, if_neg hne, hrun, Outcome.mapErr_ok, Outcome.ok_bind]
    dsimp only
    rw [ih h.2 (by simpa using hfuel), Bip32.ChildNumber.ofU32_toU32 h.1]
    rfl

theorem of_readPath {fuel : ℕ} {d : Bytes} {path : List Bip32.ChildNumber} (hfuel : d.length ≤ fuel)
    (h : (readPath fuel d : Outcome (Error S) _) = .ok path) :
    (∀ c ∈ path, c.InRange) ∧ (pathBytes path).length = d.length := by
  induction fuel generalizing d path with
  | zero =>
    cases h
    obtain rfl := List.length_eq_zero_iff.1 (Nat.le_zero.1 hfuel)
    exact ⟨by simp, rfl⟩
  | succ fuel ih =>
    rw [readPath] at h
    split_ifs at h with hd
    · cases h
      exact ⟨by simp, by rw [hd]; rfl⟩
    · obtain ⟨⟨index, d'⟩, hindex, h⟩ := Outcome.bind_eq_ok_iff.1 h
      obtain ⟨tail, htail, h⟩ := Outcome.bind_eq_ok_iff.1 h
      cases h
      obtain rfl := eq_of_run_u32 (Outcome.mapErr_eq_ok_iff.1 hindex)
      rw [List.length_append, length_leBytes] at hfuel
      obtain ⟨hrange, hlen⟩ := ih (by omega) htail
      refine ⟨List.forall_mem_cons.2 ⟨Bip32.ChildNumber.inRange_ofU32 _, hrange⟩, ?_⟩
      rw [length_pathBytes] at hlen ⊢
      rw [List.length_append, length_leBytes, ← hlen, List.length_cons]
      omega

/-- The child numbers of a derivation path are in range. -/
def SourceInRange (source : KeySource) : Prop := ∀ c ∈ source.2, c.InRange

theorem deserialize_keySource {source : KeySource} (h : SourceInRange source) :
    (keySource : Format S _).deserialize (source.1.toList ++ pathBytes source.2) = .ok source := by
  have htake : (source.1.toList ++ pathBytes source.2).take 4 = source.1.toList :=
    List.take_left' source.1.length_eq
  have hlen : ((source.1.toList ++ pathBytes source.2).take 4).length = 4 := by
    rw [htake, source.1.length_eq]
  have hfuel : source.2.length ≤ (source.1.toList ++ pathBytes source.2).length := by
    rw [List.length_append, length_pathBytes]
    omega
  show dite _ _ _ = _
  rw [dif_pos hlen, List.drop_left' source.1.length_eq, readPath_pathBytes h hfuel]
  exact congrArg Outcome.ok (Prod.ext (U8Array.ext htake) rfl)

theorem of_deserialize_keySource {bs : Bytes} {source : KeySource}
    (h : (keySource : Format S _).deserialize bs = .ok source) :
    SourceInRange source ∧ (source.1.toList ++ pathBytes source.2).length = bs.length := by
  change dite _ _ _ = _ at h
  split_ifs at h with hlen
  obtain ⟨path, hpath, h⟩ := Outcome.bind_eq_ok_iff.1 h
  cases h
  obtain ⟨hrange, hpathLen⟩ := of_readPath (by simp) hpath
  refine ⟨hrange, ?_⟩
  rw [List.length_append, hpathLen]
  simp only [List.length_drop, List.length_take] at hlen ⊢
  omega

theorem lawful_keySource : (keySource : Format S KeySource).Lawful SourceInRange where
  inverts source w hrange hw _ := by
    obtain rfl := Outcome.ok.inj hw
    exact deserialize_keySource hrange
  returns bs source _ h := by
    obtain ⟨hrange, hlen⟩ := of_deserialize_keySource h
    exact ⟨hrange, _, rfl, hlen.le.trans (le_max_left _ _)⟩

theorem lawful_tapKeyOrigin :
    (tapKeyOrigin : Format S (List (U8Array 32) × KeySource)).Lawful fun v => SourceInRange v.2 where
  inverts v w hrange hw _ := by
    obtain ⟨hashes, hhashes, hw⟩ := Outcome.bind_eq_ok_iff.1 hw
    cases hw
    have hrun := (lawful_vec (lawful_u8Array 32)).finite.roundTrips v.1 hashes (fun _ _ => trivial) hhashes
      (v.2.1.toList ++ pathBytes v.2.2)
    show Outcome.mapErr _ (StateT.run _ _) >>= _ = _
    rw [hrun, Outcome.mapErr_ok, Outcome.ok_bind]
    dsimp only
    rw [deserialize_keySource hrange]
    rfl
  returns bs v _ h := by
    obtain ⟨⟨hashes, rest⟩, hhashes, h⟩ := Outcome.bind_eq_ok_iff.1 h
    obtain ⟨source, hsource, h⟩ := Outcome.bind_eq_ok_iff.1 h
    cases h
    obtain ⟨-, u, hu, rfl⟩ := (lawful_vec (lawful_u8Array 32)).finite.canonical _ _ _
      (Outcome.mapErr_eq_ok_iff.1 hhashes)
    obtain ⟨hrange, hlen⟩ := of_deserialize_keySource hsource
    refine ⟨hrange, u.bytes ++ (source.1.toList ++ pathBytes source.2), ?_, ?_⟩
    · show (vec (u8Array 32)).consensusEncode hashes >>= _ = _
      rw [hu]
      rfl
    · rw [List.length_append, hlen, List.length_append]
      exact le_max_left _ _

/-! ## Script trees -/

/-- A known leaf whose script has a length that can be written. -/
def Writable : TapLeaf → Prop
  | .script script _ => script.length < 2 ^ 64
  | .hidden _ => False

/-- The bytes of a known leaf. -/
def leafBytes : ℕ × TapLeaf → Bytes
  | (depth, .script script version) => UInt8.ofNat depth :: version.toConsensus :: elementBytes script
  | (_, .hidden _) => []

theorem vecU8_eq_ok_iff {data : Bytes} {w : Written} :
    vecU8.consensusEncode data = .ok w ↔ data.length < 2 ^ 64 ∧
      w = VarInt.written ⟨UInt64.ofNat data.length⟩ ++ .ofBytes data := by
  show consensusEncodeWithSize data = _ ↔ _
  rw [consensusEncodeWithSize_eq_ok_iff]
  constructor
  · rintro ⟨u, hu, rfl⟩
    obtain ⟨hlt, hu⟩ := encodeLen_eq_ok_iff.1 hu
    exact ⟨hlt, by rw [← Outcome.ok.inj hu]⟩
  · rintro ⟨hlt, rfl⟩
    exact ⟨_, encodeLen_eq_ok_iff.2 ⟨hlt, rfl⟩, rfl⟩

theorem run_elementBytes {data : Bytes} (h : data.length < 2 ^ 64) (rest : Bytes) :
    vecU8.consensusDecodeFromFiniteReader.run (elementBytes data ++ rest) = .ok (data, rest) := by
  have hrun := lawful_vecU8.finite.roundTrips data _ trivial (vecU8_eq_ok_iff.2 ⟨h, rfl⟩) rest
  rwa [Written.bytes_append, Written.bytes_ofBytes] at hrun

theorem writeLeaves_eq_ok_iff {leaves : List LeafNode} (h : ∀ l ∈ leaves, l.leaf.isHidden = false)
    {w : Bytes} : writeLeaves leaves = .ok w ↔ (∀ l ∈ leaves, Writable l.leaf) ∧
      w = leaves.flatMap fun l => leafBytes (l.merkleBranch.hashes.length, l.leaf) := by
  induction leaves generalizing w with
  | nil => simp [writeLeaves, eq_comm]
  | cons l leaves ih =>
    obtain ⟨leaf, branch⟩ := l
    rw [List.forall_mem_cons] at h
    cases leaf with
    | hidden hash => cases h.1
    | script script version =>
      rw [writeLeaves, Outcome.bind_eq_ok_iff, List.forall_mem_cons, List.flatMap_cons]
      constructor
      · rintro ⟨u, hu, hw⟩
        obtain ⟨tail, htail, hw⟩ := Outcome.bind_eq_ok_iff.1 hw
        cases hw
        obtain ⟨hlt, rfl⟩ := vecU8_eq_ok_iff.1 hu
        obtain ⟨hall, rfl⟩ := (ih h.2).1 htail
        exact ⟨⟨hlt, hall⟩, by simp [leafBytes, elementBytes]⟩
      · rintro ⟨⟨hlt, hall⟩, rfl⟩
        refine ⟨_, vecU8_eq_ok_iff.2 ⟨hlt, rfl⟩, ?_⟩
        rw [(ih h.2).2 ⟨hall, rfl⟩]
        simp [leafBytes, elementBytes]

/-- Reading the bytes of leaves adds them to the builder. -/
theorem readLeaves_leafBytes {calls : List Add} (h : ∀ call ∈ calls, Writable call.leaf) {fuel : ℕ}
    (hfuel : calls.length ≤ fuel) {b b' : TaprootBuilder} (hadd : b.addAll calls = .ok b') :
    (readLeaves fuel b (calls.flatMap fun call => leafBytes (TaprootBuilder.callOf call)) :
      Outcome (Error S) _) = .ok b' := by
  induction calls generalizing fuel b with
  | nil =>
    cases hadd
    cases fuel <;> rfl
  | cons call calls ih =>
    obtain ⟨fuel, rfl⟩ : ∃ n, fuel = n + 1 := Nat.exists_eq_add_one.2 (by simp at hfuel; omega)
    rw [List.forall_mem_cons] at h
    obtain ⟨depth, leaf⟩ := call
    cases leaf with
    | hidden hash => exact h.1.elim
    | script script version =>
      rw [TaprootBuilder.addAll, List.foldlM_cons, Outcome.bind_eq_ok_iff] at hadd
      obtain ⟨b₁, hb₁, hadd⟩ := hadd
      have hleaf : b.addLeafWithVer depth script version = .ok b₁ := hb₁
      rw [List.flatMap_cons, TaprootBuilder.callOf, leafBytes, List.cons_append, List.cons_append,
        readLeaves, run_elementBytes h.1, Outcome.mapErr_ok, Outcome.ok_bind]
      dsimp only
      rw [LeafVersion.fromConsensus_toConsensus, Outcome.mapErr_ok, Outcome.ok_bind, UInt8.ofNat_toNat,
        hleaf, Outcome.mapErr_ok, Outcome.ok_bind]
      exact ih h.2 (by simpa using hfuel) hadd

/-- What is read as leaves was as long as the bytes of the leaves. -/
theorem of_readLeaves {fuel : ℕ} {b b' : TaprootBuilder} {bs : Bytes} (hfuel : bs.length ≤ fuel)
    (h : (readLeaves fuel b bs : Outcome (Error S) _) = .ok b') :
    ∃ calls : List Add, (∀ call ∈ calls, Writable call.leaf) ∧ b.addAll calls = .ok b' ∧
      (calls.flatMap fun call => leafBytes (TaprootBuilder.callOf call)).length = bs.length := by
  induction fuel generalizing b bs with
  | zero =>
    cases h
    obtain rfl := List.length_eq_zero_iff.1 (Nat.le_zero.1 hfuel)
    exact ⟨[], by simp, rfl, rfl⟩
  | succ fuel ih =>
    rcases bs with _ | ⟨depth, _ | ⟨version, bs⟩⟩
    · cases h
      exact ⟨[], by simp, rfl, rfl⟩
    · cases h
    · rw [readLeaves] at h
      obtain ⟨⟨script, rest⟩, hscript, h⟩ := Outcome.bind_eq_ok_iff.1 h
      obtain ⟨ver, -, h⟩ := Outcome.bind_eq_ok_iff.1 h
      obtain ⟨b₁, hb₁, hrest⟩ := Outcome.bind_eq_ok_iff.1 h
      obtain ⟨-, u, hu, rfl⟩ := lawful_vecU8.finite.canonical _ _ _ (Outcome.mapErr_eq_ok_iff.1 hscript)
      obtain ⟨hlt, rfl⟩ := vecU8_eq_ok_iff.1 hu
      simp only [List.length_cons, List.length_append] at hfuel
      obtain ⟨calls, hcalls, hadd, hlen⟩ := ih (by omega) hrest
      refine ⟨⟨depth, .script script ver⟩ :: calls, List.forall_mem_cons.2 ⟨hlt, hcalls⟩, ?_, ?_⟩
      · have hfirst : b.add ⟨depth, .script script ver⟩ = .ok b₁ := Outcome.mapErr_eq_ok_iff.1 hb₁
        rw [TaprootBuilder.addAll, List.foldlM_cons, hfirst]
        exact hadd
      · rw [List.flatMap_cons, List.length_append, hlen]
        simp [TaprootBuilder.callOf, leafBytes, elementBytes]
        omega

theorem tryIntoTaptree_eq_ok_iff {b : TaprootBuilder} {tree : TapTree} :
    b.tryIntoTaptree = .ok tree ↔ b.tryIntoNodeInfo = .ok tree.nodeInfo := by
  rw [TaprootBuilder.tryIntoTaptree, Outcome.bind_eq_ok_iff]
  constructor
  · rintro ⟨node, hnode, h⟩
    split_ifs at h
    cases h
    exact hnode
  · intro h
    exact ⟨_, h, dif_pos tree.not_hidden⟩

theorem length_le_leafBytes {calls : List Add} (h : ∀ call ∈ calls, Writable call.leaf) :
    calls.length ≤ (calls.flatMap fun call => leafBytes (TaprootBuilder.callOf call)).length := by
  induction calls with
  | nil => simp
  | cons call calls ih =>
    rw [List.forall_mem_cons] at h
    have htail := ih h.2
    obtain ⟨depth, leaf⟩ := call
    cases leaf with
    | hidden hash => exact h.1.elim
    | script script version =>
      rw [List.flatMap_cons, List.length_append, List.length_cons, TaprootBuilder.callOf, leafBytes,
        List.length_cons]
      omega

theorem deserialize_tapTree {tree : TapTree} {w : Bytes} (h : Built tree.nodeInfo)
    (hw : (tapTree : Format S TapTree).serialize tree = .ok w) :
    (tapTree : Format S TapTree).deserialize w = .ok tree := by
  obtain ⟨⟨b, hb, hinto⟩, hknown⟩ := exists_builder h tree.not_hidden
  obtain ⟨hwritable, rfl⟩ := (writeLeaves_eq_ok_iff hknown).1 hw
  have hbytes : (tree.nodeInfo.leaves.map addOf).flatMap (fun call =>
      leafBytes (TaprootBuilder.callOf call)) = tree.nodeInfo.leaves.flatMap fun l =>
        leafBytes (l.merkleBranch.hashes.length, l.leaf) := by
    rw [List.flatMap_map]
    exact List.flatMap_congr fun l _ => by rw [callOf_addOf]
  have hall : ∀ call ∈ tree.nodeInfo.leaves.map addOf, Writable call.leaf := by
    intro call hcall
    obtain ⟨l, hl, rfl⟩ := List.mem_map.1 hcall
    exact hwritable l hl
  have hread := readLeaves_leafBytes (S := S) hall (length_le_leafBytes hall) hb
  rw [hbytes] at hread
  show readLeaves _ _ _ >>= _ = _
  rw [hread, Outcome.ok_bind, Outcome.mapErr_eq_ok_iff, tryIntoTaptree_eq_ok_iff, hinto]

/-- The leaves of a tree, added at their depths in their order, are accepted one after the other and make up
a finished tree; what the tree is written as is read as the same tree, leaf by leaf. -/
theorem tapTree_roundTrip {tree : TapTree} (h : Built tree.nodeInfo)
    (hscript : ∀ leaf ∈ tree.scriptLeaves, leaf.script.length < 2 ^ 64) :
    (∀ k, ∃ b, TaprootBuilder.addAll .new ((tree.scriptLeaves.map ScriptLeaf.add).take k) = .ok b) ∧
    (∃ b, TaprootBuilder.addAll .new (tree.scriptLeaves.map ScriptLeaf.add) = .ok b ∧
      b.isFinalizable = true) ∧
    ∃ w, (tapTree : Format S TapTree).serialize tree = .ok w ∧
      (tapTree : Format S TapTree).deserialize w = .ok tree := by
  obtain ⟨⟨b, hb, hinto⟩, hknown⟩ := exists_builder h tree.not_hidden
  have hcalls : tree.scriptLeaves.map ScriptLeaf.add = tree.nodeInfo.leaves.map addOf :=
    map_add_scriptLeavesOf hknown
  have hwritable : ∀ l ∈ tree.nodeInfo.leaves, Writable l.leaf := by
    intro l hl
    have hmem : addOf l ∈ tree.scriptLeaves.map ScriptLeaf.add := by
      rw [hcalls]
      exact List.mem_map_of_mem hl
    obtain ⟨leaf, hleaf, heq⟩ := List.mem_map.1 hmem
    have hadd : TapLeaf.script leaf.script leaf.version = l.leaf := congrArg Add.leaf heq
    rw [← hadd]
    exact hscript leaf hleaf
  have hw := (writeLeaves_eq_ok_iff hknown).2 ⟨hwritable, rfl⟩
  rw [hcalls]
  exact ⟨TaprootBuilder.addAll_take hb, ⟨b, hb, TaprootBuilder.isFinalizable_of_tryIntoNodeInfo hinto⟩, _, hw,
    deserialize_tapTree h hw⟩

/-- Two scripts. -/
theorem tapTree_roundTrip_sample : ∃ tree : TapTree, tree.scriptLeaves.length = 2 ∧
    ∃ w, (tapTree : Format KeyFormats.curve TapTree).serialize tree = .ok w ∧
      (tapTree : Format KeyFormats.curve TapTree).deserialize w = .ok tree := by
  have hcombine := (isNode_leaf (.script [0x51] .tapScript)).combine
    (isNode_leaf (.script [0x52, 0x53] .tapScript)) (by simp [LeafTree.walk, TAPROOT_CONTROL_MAX_NODE_COUNT])
  obtain ⟨n, -, hn⟩ := hcombine
  have hknown := isHidden_eq_false_of_describes hn.toDescribes
  have hperm := hn.leaves_perm
  have hscripts := congrArg List.length (map_add_scriptLeavesOf hknown)
  refine ⟨⟨n, by rw [hn.hidden_eq]; rfl⟩, ?_, ?_⟩
  · rw [List.length_map, List.length_map] at hscripts
    have hlen := hperm.length_eq
    rw [List.length_map] at hlen
    exact hscripts.trans hlen
  · refine (tapTree_roundTrip (built_of_nodeOf hn.node_eq) fun leaf hleaf => ?_).2.2
    have hadd : leaf.add ∈ n.leaves.map addOf := by
      rw [← map_add_scriptLeavesOf hknown]
      exact List.mem_map_of_mem hleaf
    obtain ⟨l, hl, heq⟩ := List.mem_map.1 hadd
    have hleaf : l.leaf = .script leaf.script leaf.version := congrArg Add.leaf heq
    have hmem := hperm.subset (List.mem_map_of_mem hl)
    simp [knownLeaves, LeafTree.walk, TapLeaf.isHidden, hleaf] at hmem
    rcases hmem with ⟨-, hs, -⟩ | ⟨-, hs, -⟩ <;> rw [hs] <;> decide

/-- The leaves of a tree that was read are those it was read from, in another order. -/
theorem of_deserialize_tapTree {bs : Bytes} {tree : TapTree}
    (h : (tapTree : Format S TapTree).deserialize bs = .ok tree) :
    Built tree.nodeInfo ∧ ∃ w, (tapTree : Format S TapTree).serialize tree = .ok w ∧ w.length = bs.length := by
  obtain ⟨b, hb, h⟩ := Outcome.bind_eq_ok_iff.1 h
  rw [Outcome.mapErr_eq_ok_iff, tryIntoTaptree_eq_ok_iff] at h
  obtain ⟨calls, hcalls, hadd, hlen⟩ := of_readLeaves le_rfl hb
  obtain ⟨t, hwalk, hnode⟩ := TaprootBuilder.isNode_of_addAll hadd h
  have hperm := hnode.leaves_perm
  have hknown : knownLeaves t = calls.map TaprootBuilder.callOf := by
    rw [knownLeaves, hwalk, List.filter_eq_self]
    intro p hp
    obtain ⟨⟨depth, leaf⟩, hcall, rfl⟩ := List.mem_map.1 hp
    cases leaf with
    | script script version => rfl
    | hidden hash => exact (hcalls _ hcall).elim
  rw [hknown] at hperm
  have hwritable : ∀ l ∈ tree.nodeInfo.leaves, Writable l.leaf := by
    intro l hl
    obtain ⟨call, hcall, heq⟩ := List.mem_map.1 (hperm.subset (List.mem_map_of_mem hl))
    rw [← (Prod.mk.inj heq).2]
    exact hcalls call hcall
  refine ⟨built_of_nodeOf hnode.node_eq, _, (writeLeaves_eq_ok_iff
    (isHidden_eq_false_of_describes hnode.toDescribes)).2 ⟨hwritable, rfl⟩, ?_⟩
  have hbytes := (hperm.flatMap_right leafBytes).length_eq
  rwa [List.flatMap_map, List.flatMap_map, hlen] at hbytes

theorem lawful_tapTree : (tapTree : Format S TapTree).Lawful fun tree => Built tree.nodeInfo where
  inverts _ _ hbuilt hw _ := deserialize_tapTree hbuilt hw
  returns bs tree _ h := by
    obtain ⟨hbuilt, w, hw, hlen⟩ := of_deserialize_tapTree h
    exact ⟨hbuilt, w, hw, hlen.le.trans (le_max_left _ _)⟩

/-! ## The global map -/

/-- The fields of a transaction, in their order. -/
def fieldsCodec : Codec (Int32 × List TxIn × List TxOut × LockTime) :=
  i32.seq ((vec TxIn.codec).seq ((vec TxOut.codec).seq LockTime.codec))

theorem lawful_fieldsCodec : fieldsCodec.IsLawful fun f => ∀ t ∈ f.2.1, t.witness = Witness.new := by
  have h := lawful_i32.seq ((lawful_vec TxIn.lawful).seq ((lawful_vec TxOut.lawful).seq LockTime.lawful))
  exact h.congr fun f => by simp

/-- The fields of a transaction. -/
def txFields (tx : Transaction) : Int32 × List TxIn × List TxOut × LockTime :=
  (tx.version, tx.input, tx.output, tx.lockTime)

theorem serialize_unsignedTx_eq_ok_iff {tx : Transaction} {bs : Bytes} :
    (unsignedTx : Format S Transaction).serialize tx = .ok bs ↔
      ∃ w, fieldsCodec.consensusEncode (txFields tx) = .ok w ∧ w.bytes = bs := by
  simp only [unsignedTx, Outcome.bind_eq_ok_iff, Outcome.pure_eq_ok, Outcome.ok.injEq]
  constructor
  · rintro ⟨v, hv, i, hi, o, ho, l, hl, rfl⟩
    refine ⟨v ++ (i ++ (o ++ l)), ?_, by simp⟩
    exact Encoder.seq_eq_ok_iff.2 ⟨v, _, hv, Encoder.seq_eq_ok_iff.2
      ⟨i, _, hi, Encoder.seq_eq_ok_iff.2 ⟨o, l, ho, hl, rfl⟩, rfl⟩, rfl⟩
  · rintro ⟨w, hw, rfl⟩
    obtain ⟨v, w₁, hv, hw₁, rfl⟩ := Encoder.seq_eq_ok_iff.1 hw
    obtain ⟨i, w₂, hi, hw₂, rfl⟩ := Encoder.seq_eq_ok_iff.1 hw₁
    obtain ⟨o, l, ho, hl, rfl⟩ := Encoder.seq_eq_ok_iff.1 hw₂
    exact ⟨v, hv, i, hi, o, ho, l, hl, by simp⟩

theorem deserialize_unsignedTx_eq_ok_iff {tx : Transaction} {bs : Bytes} :
    (unsignedTx : Format S Transaction).deserialize bs = .ok tx ↔
      fieldsCodec.consensusDecode.run bs = .ok (txFields tx, []) := by
  show _ ↔ (Decoder.seq _ (Decoder.seq _ (Decoder.seq _ _))).run bs = _
  simp only [Decoder.run_seq_eq_ok_iff, unsignedTx, Outcome.bind_eq_ok_iff, Outcome.mapErr_eq_ok_iff,
    Prod.exists, Outcome.ensure_eq_ok_iff, Outcome.pure_eq_ok, Outcome.ok.injEq]
  constructor
  · rintro ⟨version, r₁, hversion, input, r₂, hinput, output, r₃, houtput, lockTime, r₄, hlock, -, rfl, rfl⟩
    exact ⟨r₁, hversion, r₂, hinput, r₃, houtput, hlock⟩
  · rintro ⟨r₁, hversion, r₂, hinput, r₃, houtput, hlock⟩
    exact ⟨_, r₁, hversion, _, r₂, hinput, _, r₃, houtput, _, [], hlock, (), rfl, rfl⟩

theorem exact_unsignedTx : (unsignedTx : Format S Transaction).Exact fun tx =>
    ∀ t ∈ tx.input, t.witness = Witness.new := by
  intro bs tx hlen
  rw [deserialize_unsignedTx_eq_ok_iff, lawful_fieldsCodec.agrees bs hlen, serialize_unsignedTx_eq_ok_iff]
  constructor
  · intro hrun
    obtain ⟨hnew, w, hw, hbs⟩ := lawful_fieldsCodec.finite.canonical _ _ _ hrun
    exact ⟨hnew, w, hw, by rw [hbs, List.append_nil]⟩
  · rintro ⟨hnew, w, hw, rfl⟩
    have hrun := lawful_fieldsCodec.finite.roundTrips (txFields tx) w hnew hw []
    rwa [List.append_nil] at hrun

theorem lawful_globalVersion : (globalVersion : Format S UInt32).Lawful fun version => version = 0 where
  inverts version w hversion hw _ := by
    subst hversion
    obtain rfl := Outcome.ok.inj hw
    rfl
  returns bs version _ h := by
    obtain ⟨-, h⟩ := Outcome.ensure_bind_eq_ok_iff.1 h
    obtain ⟨⟨v, rest⟩, -, h⟩ := Outcome.bind_eq_ok_iff.1 h
    obtain ⟨hv, h⟩ := Outcome.ensure_bind_eq_ok_iff.1 h
    cases h
    exact ⟨hv, _, rfl, le_max_of_le_right (by rw [length_leBytes]; decide)⟩

end Format

end Psbt

end RustDogecoin
