import RustDogecoin.Lib.Entries
import RustDogecoin.Psbt.Formats

/-!
# Fields as raw pairs

The pairs that `getPairs` writes for one field of a map, and what `insertPair` makes of them, in the sense of
`Entries.Stores`: for plain fields, for maps, for preimages, for extended public keys, and for proprietary
and unknown keys.
-/

namespace RustDogecoin

namespace Psbt

open Raw Entries

variable {S : KeyFormats} {α K V : Type}

/-! ## Pairs within the limits -/

/-- The pair can be written and is read back: the limit holds for the key, and for the value with its
length in front, which takes at most five bytes. -/
def Raw.Pair.Storable (p : Pair) : Prop :=
  p.key.key.length ≤ MAX_VEC_SIZE ∧ p.value.length + 5 ≤ MAX_VEC_SIZE

/-- The number of bytes of a pair. -/
def Raw.Pair.size (p : Pair) : ℕ :=
  (VarInt.mk (UInt64.ofNat (p.key.key.length + 1))).size + (p.key.key.length + 1) +
    ((VarInt.mk (UInt64.ofNat p.value.length)).size + p.value.length)

theorem size_len_le {n : ℕ} (h : n < 2 ^ 32) : (VarInt.mk (UInt64.ofNat n)).size ≤ 5 := by
  have hn : (UInt64.ofNat n).toNat = n := UInt64.toNat_ofNat_of_lt' (h.trans (by decide))
  unfold VarInt.size
  rw [hn]
  split_ifs <;> omega

theorem size_len_ge {n : ℕ} (h : 0xFFFF < n) (h' : n < 2 ^ 64) : 5 ≤ (VarInt.mk (UInt64.ofNat n)).size := by
  have hn : (UInt64.ofNat n).toNat = n := UInt64.toNat_ofNat_of_lt' h'
  unfold VarInt.size
  rw [hn]
  split_ifs <;> omega

theorem Raw.Key.length_serialize {k : Raw.Key} {w : Written} (h : k.serialize = .ok w) :
    w.bytes.length = (VarInt.mk (UInt64.ofNat (k.key.length + 1))).size + (k.key.length + 1) := by
  obtain ⟨len, key, hlen, hkey, rfl⟩ := Key.serialize_eq_ok_iff.1 h
  have hkeyLen := Encoder.length_list (k := 1) (fun a w e => by rw [← Outcome.ok.inj e]; rfl) hkey
  obtain ⟨-, hlen⟩ := encodeLen_eq_ok_iff.1 hlen
  obtain rfl := Outcome.ok.inj hlen
  simp only [Written.bytes_append, List.length_append, VarInt.length_written, Written.bytes_ofBytes,
    length_leBytes, hkeyLen]
  omega

theorem Raw.Pair.length_serialize {p : Pair} {w : Written} (h : p.serialize = .ok w) :
    w.bytes.length = p.size := by
  obtain ⟨u, v, hu, hv, rfl⟩ := Written.bind_append_eq_ok_iff.1 h
  obtain ⟨-, rfl⟩ := Format.vecU8_eq_ok_iff.1 hv
  simp only [Written.bytes_append, List.length_append, Key.length_serialize hu, VarInt.length_written,
    Written.bytes_ofBytes, Pair.size]

theorem Raw.Pair.exists_serialize {p : Pair} (h : p.Storable) : ∃ w, p.serialize = .ok w := by
  obtain ⟨hkey, hvalue⟩ := h
  rw [MAX_VEC_SIZE] at hkey hvalue
  obtain ⟨len, hlen⟩ := exists_encodeLen (n := p.key.key.length + 1) (by omega)
  have hbytes : ∀ b ∈ p.key.key, ∃ w, u8.consensusEncode b = .ok w := fun b _ => ⟨_, rfl⟩
  have hlt : p.value.length < 2 ^ 64 := by omega
  obtain ⟨key, hk⟩ := Encoder.exists_list hbytes
  obtain ⟨v, hv⟩ := exists_vecU8 hlt
  exact ⟨_, Written.bind_append_eq_ok_iff.2
    ⟨_, v, Key.serialize_eq_ok_iff.2 ⟨len, key, hlen, hk, rfl⟩, hv, rfl⟩⟩

theorem Raw.Pair.Storable.withinLimits {p : Pair} (h : p.Storable) : p.WithinLimits := by
  refine ⟨h.1, fun w hw => ?_⟩
  obtain ⟨-, rfl⟩ := Format.vecU8_eq_ok_iff.1 hw
  have hvalue := h.2
  have hsize := size_len_le (n := p.value.length) (by rw [MAX_VEC_SIZE] at hvalue; omega)
  simp only [Written.bytes_append, List.length_append, VarInt.length_written, Written.bytes_ofBytes]
  omega

theorem Raw.Pair.storable_of_serialize {p : Pair} {w : Written} (hw : p.serialize = .ok w)
    (h : p.WithinLimits) : p.Storable := by
  refine ⟨h.1, ?_⟩
  obtain ⟨u, v, -, hv, rfl⟩ := Written.bind_append_eq_ok_iff.1 hw
  have hfits := h.2 v hv
  obtain ⟨hlt, rfl⟩ := Format.vecU8_eq_ok_iff.1 hv
  simp only [Written.bytes_append, List.length_append, VarInt.length_written, Written.bytes_ofBytes] at hfits
  rcases Nat.lt_or_ge 0xFFFF p.value.length with hbig | hsmall
  · have := size_len_ge hbig hlt
    omega
  · rw [MAX_VEC_SIZE]
    omega

/-! ## Lists of pairs -/

/-- The run lists pairs that can all be stored. -/
def Listed (x : Outcome Empty (List Pair)) : Prop := ∃ ps, x = .ok ps ∧ ∀ p ∈ ps, p.Storable

theorem listed_concatPairs_iff {fields : List (Outcome Empty (List Pair))} :
    Listed (concatPairs fields) ↔ ∀ x ∈ fields, Listed x := by
  induction fields with
  | nil => exact iff_of_true ⟨[], rfl, by simp⟩ (by simp)
  | cons x fields ih =>
    rw [List.forall_mem_cons, ← ih]
    constructor
    · rintro ⟨ps, hps, hall⟩
      obtain ⟨qs, hqs, hps⟩ := Outcome.bind_eq_ok_iff.1 hps
      obtain ⟨rs, hrs, hps⟩ := Outcome.bind_eq_ok_iff.1 hps
      cases hps
      rw [List.forall_mem_append] at hall
      exact ⟨⟨qs, hqs, hall.1⟩, rs, hrs, hall.2⟩
    · rintro ⟨⟨qs, rfl, hq⟩, rs, hrs, hr⟩
      refine ⟨qs ++ rs, ?_, List.forall_mem_append.2 ⟨hq, hr⟩⟩
      rw [concatPairs, hrs]
      rfl

/-- The pairs can be written, and all of them are within the limits. -/
def PairsWithinLimits (x : Outcome Empty (List Pair)) : Prop :=
  ∃ ps w, x = .ok ps ∧ Encoder.list Pair.serialize ps = .ok w ∧ ∀ p ∈ ps, p.WithinLimits

theorem PairsWithinLimits.listed {x : Outcome Empty (List Pair)} (h : PairsWithinLimits x) : Listed x := by
  obtain ⟨ps, w, hps, hw, hall⟩ := h
  refine ⟨ps, hps, fun p hp => ?_⟩
  obtain ⟨u, hu, -⟩ := Format.length_le_of_mem hw hp
  exact Pair.storable_of_serialize hu (hall p hp)

theorem Listed.pairsWithinLimits {x : Outcome Empty (List Pair)} (h : Listed x) : PairsWithinLimits x := by
  obtain ⟨ps, hps, hall⟩ := h
  obtain ⟨w, hw⟩ := Encoder.exists_list fun p hp => Pair.exists_serialize (hall p hp)
  exact ⟨ps, w, hps, hw, fun p hp => (hall p hp).withinLimits⟩

theorem rebuilds_nil {M : Type} (step : M → Pair → Outcome (Error S) M) (m : M) :
    Rebuilds step Pair.Storable (concatPairs []) m m := ⟨[], rfl, by simp, rfl⟩

theorem rebuilds_cons {M : Type} {step : M → Pair → Outcome (Error S) M}
    {x : Outcome Empty (List Pair)} {fields : List (Outcome Empty (List Pair))} {m m₁ m' : M}
    (hx : Rebuilds step Pair.Storable x m m₁)
    (hfields : Rebuilds step Pair.Storable (concatPairs fields) m₁ m') :
    Rebuilds step Pair.Storable (concatPairs (x :: fields)) m m' := by
  obtain ⟨ps, rfl, hp, hm⟩ := hx
  obtain ⟨qs, hqs, hq, hm'⟩ := hfields
  refine ⟨ps ++ qs, ?_, List.forall_mem_append.2 ⟨hp, hq⟩, ?_⟩
  · rw [concatPairs, hqs]
    rfl
  · rw [List.foldlM_append, hm]
    exact hm'

/-! ## Fields -/

/-- A pair of the given type that can be stored. -/
def Typed (t : UInt8) (p : Pair) : Prop := p.key.typeValue = t ∧ p.Storable

/-- A pair of the type of a field keeps what the field needs to be stored. -/
theorem of_map_insert_eq_ok {C M : Type} {push : C → Outcome Empty (List Pair)}
    {insert : C → Pair → Outcome (Error S) C} {empty : C} {t : UInt8} {Ok : C → Prop}
    (h : Stores push insert empty (Typed t) Ok) {pair : Pair} (htype : pair.key.typeValue = t)
    (hpair : pair.Storable) {set : C → M} {c : C} {m : M} (hins : set <$> insert c pair = .ok m) (hc : Ok c) :
    ∃ x, Ok x ∧ set x = m := by
  obtain ⟨x, hx, rfl⟩ := Outcome.map_eq_ok_iff.1 hins
  exact ⟨x, h.ok_insert c pair x hc ⟨htype, hpair⟩ hx, rfl⟩

/-- The value of the field is in `P`, and its pair can be stored. -/
def FieldOk (f : Format S α) (t : UInt8) (P : α → Prop) (field : Option α) : Prop :=
  ∀ a, field = some a → P a ∧ ∃ w, f.serialize a = .ok w ∧ (Pair.mk ⟨t, []⟩ w).Storable

theorem insertField_eq_ok_iff {f : Format S α} {field field' : Option α} {pair : Pair} :
    insertField f field pair = .ok field' ↔
      pair.key.key = [] ∧ field = none ∧ ∃ a, f.deserialize pair.value = .ok a ∧ field' = some a := by
  unfold insertField
  cases field with
  | some a => split_ifs <;> simp_all
  | none =>
    split_ifs with hkey hnone
    · rw [Outcome.bind_eq_ok_iff]
      simp only [hkey, true_and, Outcome.pure_eq_ok, Outcome.ok.injEq]
      exact exists_congr fun a => and_congr_right fun _ => eq_comm
    · exact absurd rfl hnone
    · simp [hkey]

theorem stores_field {f : Format S α} {P : α → Prop} (h : f.Lawful P) (t : UInt8) :
    Stores (pushField f t) (insertField f) none (Typed t) (FieldOk f t P) where
  ok_empty := by
    intro a ha
    cases ha
  ok_insert field p field' _ hp hins := by
    obtain ⟨-, -, a, ha, rfl⟩ := insertField_eq_ok_iff.1 hins
    have hvalue : p.value.length + 5 ≤ MAX_VEC_SIZE := hp.2.2
    obtain ⟨hP, w, hw, hlen⟩ := h.returns p.value a (by omega) ha
    intro a' ha'
    cases ha'
    refine ⟨hP, w, hw, Nat.zero_le _, ?_⟩
    rw [MAX_VEC_SIZE, Format.MAX_FIXED_SIZE] at *
    dsimp only
    omega
  exists_push field hfield := by
    cases field with
    | none => exact ⟨[], rfl, by simp, rfl⟩
    | some a =>
      obtain ⟨hP, w, hw, hstore⟩ := hfield a rfl
      have hvalue : w.length + 5 ≤ MAX_VEC_SIZE := hstore.2
      refine ⟨[⟨⟨t, []⟩, w⟩], ?_, by simpa using ⟨rfl, hstore⟩, ?_⟩
      · rw [pushField, hw]
        rfl
      · rw [List.foldlM_cons, insertField_eq_ok_iff.2 ⟨rfl, rfl, a, h.inverts a w hP hw (by omega), rfl⟩]
        rfl

theorem fieldOk_of_listed {f : Format S α} {t : UInt8} {P : α → Prop} {field : Option α}
    (h : Listed (pushField f t field)) (hP : ∀ a, field = some a → P a) : FieldOk f t P field := by
  rintro a rfl
  obtain ⟨ps, hps, hall⟩ := h
  obtain ⟨w, hw, hps⟩ := Outcome.bind_eq_ok_iff.1 hps
  cases hps
  exact ⟨hP a rfl, w, hw, hall _ (List.mem_singleton.2 rfl)⟩

/-! ## Maps -/

theorem writeEntry_eq_ok_iff {fk : Format S K} {fv : Format S V} {t : UInt8} {k : K} {v : V} {p : Pair} :
    writeEntry fk fv t (k, v) = .ok p ↔
      ∃ key value, fk.serialize k = .ok key ∧ fv.serialize v = .ok value ∧ p = ⟨⟨t, key⟩, value⟩ := by
  unfold writeEntry
  rw [Outcome.bind_eq_ok_iff]
  constructor
  · rintro ⟨key, hkey, h⟩
    obtain ⟨value, hvalue, h⟩ := Outcome.bind_eq_ok_iff.1 h
    cases h
    exact ⟨key, value, hkey, hvalue, rfl⟩
  · rintro ⟨key, value, hkey, hvalue, rfl⟩
    exact ⟨key, hkey, by rw [hvalue]; rfl⟩

/-- A format for keys: it reads back what it writes, and writes something. -/
structure KeyLawful (fk : Format S K) : Prop where
  lawful : fk.Lawful fun _ => True
  ne_nil : ∀ k w, fk.serialize k = .ok w → w ≠ []

/-- A format whose byte forms are all longer than zero. -/
theorem KeyLawful.of_length {fk : Format S K} (h : fk.Lawful fun _ => True)
    (hlen : ∀ k w, fk.serialize k = .ok w → 0 < w.length) : KeyLawful fk :=
  ⟨h, fun k w hw => List.ne_nil_of_length_pos (hlen k w hw)⟩

theorem keyLawful_publicKey (hS : S.Lawful) : KeyLawful (Format.publicKey : Format S _) := by
  refine .of_length (Format.lawful_publicKey hS) fun k w hw => ?_
  obtain rfl := Outcome.ok.inj hw
  unfold PublicKey.toBytes
  split_ifs <;> simp

theorem keyLawful_secp256k1PublicKey (hS : S.Lawful) : KeyLawful (Format.secp256k1PublicKey : Format S _) := by
  refine .of_length (Format.lawful_secp256k1PublicKey hS) fun k w hw => ?_
  obtain rfl := Outcome.ok.inj hw
  simp

theorem keyLawful_xOnlyPublicKey (hS : S.Lawful) : KeyLawful (Format.xOnlyPublicKey : Format S _) := by
  refine .of_length (Format.lawful_xOnlyPublicKey hS) fun k w hw => ?_
  obtain rfl := Outcome.ok.inj hw
  simp

theorem keyLawful_tapScriptSigKey (hS : S.Lawful) : KeyLawful (Format.tapScriptSigKey : Format S _) := by
  refine .of_length (Format.lawful_tapScriptSigKey hS) fun k w hw => ?_
  obtain rfl := Outcome.ok.inj hw
  simp

theorem keyLawful_controlBlock (hS : S.Lawful) : KeyLawful (Format.controlBlock : Format S _) := by
  refine .of_length (Format.lawful_controlBlock hS) fun cb w hw => ?_
  obtain rfl := Outcome.ok.inj hw
  rw [Taproot.ControlBlock.length_serialize]
  omega

/-- Keys and values that were read can be stored again. -/
theorem exists_writeEntry {fk : Format S K} {fv : Format S V} {P : V → Prop} (hk : KeyLawful fk)
    (hv : fv.Lawful P) {pair : Pair} {k : K} {v : V} (hpair : pair.Storable)
    (hkey : fk.deserialize pair.key.key = .ok k) (hvalue : fv.deserialize pair.value = .ok v) (t : UInt8) :
    P v ∧ ∃ p, writeEntry fk fv t (k, v) = .ok p ∧ p.Storable := by
  obtain ⟨hkeyLen, hvalueLen⟩ := hpair
  obtain ⟨-, key, hkey', hlen⟩ := hk.lawful.returns _ _ hkeyLen hkey
  obtain ⟨hP, value, hvalue', hlen'⟩ := hv.returns _ _ (by omega) hvalue
  refine ⟨hP, _, writeEntry_eq_ok_iff.2 ⟨key, value, hkey', hvalue', rfl⟩, ?_⟩
  rw [MAX_VEC_SIZE, Format.MAX_FIXED_SIZE] at *
  constructor <;> dsimp only <;> rw [MAX_VEC_SIZE] <;> omega

variable [LinearOrder K]

/-- The entries of the map are in `P`, and their pairs can be stored. -/
def MapOk (write : K × V → Outcome Empty Pair) (P : K → V → Prop) (m : BTreeMap K V) : Prop :=
  m.Forall fun k v => P k v ∧ ∃ p, write (k, v) = .ok p ∧ p.Storable

theorem mapOk_of_listed {write : K × V → Outcome Empty Pair} {P : K → V → Prop} {m : BTreeMap K V}
    (h : Listed (m.toList.mapM write)) (hP : m.Forall P) : MapOk write P m := by
  intro k v hv
  refine ⟨hP k v hv, ?_⟩
  obtain ⟨ps, hps, hall⟩ := h
  have hmem : (k, v) ∈ m.toList := (m.mem_toList_iff k v).2 hv
  rw [Outcome.mapM_eq_ok_iff] at hps
  clear hv
  generalize m.toList = l at hps hmem
  induction hps with
  | nil => cases hmem
  | cons hp _ ih =>
    rw [List.forall_mem_cons] at hall
    rcases List.mem_cons.1 hmem with rfl | hmem
    · exact ⟨_, hp, hall.1⟩
    · exact ih hall.2 hmem

theorem whenVacant_eq_ok_iff {ε : Type} {m m' : BTreeMap K V} {k : K} {e : ε}
    {x : Outcome ε (BTreeMap K V)} : whenVacant m k e x = .ok m' ↔ m[k]? = none ∧ x = .ok m' := by
  unfold whenVacant
  cases m[k]? <;> simp

theorem insertMap_eq_ok_iff {fk : Format S K} {fv : Format S V} {m m' : BTreeMap K V} {pair : Pair} :
    insertMap fk fv m pair = .ok m' ↔ pair.key.key ≠ [] ∧ ∃ k v, fk.deserialize pair.key.key = .ok k ∧
      m[k]? = none ∧ fv.deserialize pair.value = .ok v ∧ m' = m.insert k v := by
  unfold insertMap
  split_ifs with hkey
  · rw [Outcome.bind_eq_ok_iff, and_iff_right hkey]
    apply exists_congr
    intro k
    rw [whenVacant_eq_ok_iff, Outcome.bind_eq_ok_iff]
    simp only [Outcome.pure_eq_ok, Outcome.ok.injEq, eq_comm (b := m')]
    constructor
    · rintro ⟨hk, hnone, v, hv, rfl⟩
      exact ⟨v, hk, hnone, hv, rfl⟩
    · rintro ⟨v, hk, hnone, hv, rfl⟩
      exact ⟨hk, hnone, v, hv, rfl⟩
  · simp [hkey]

theorem storesEntries_map {fk : Format S K} {fv : Format S V} {P : V → Prop} (hk : KeyLawful fk)
    (hv : fv.Lawful P) (t : UInt8) :
    StoresEntries (writeEntry fk fv t) (insertMap fk fv) (Typed t) fun k v =>
      P v ∧ ∃ p, writeEntry fk fv t (k, v) = .ok p ∧ p.Storable where
  insert_written := by
    rintro k v ⟨hP, p, hp, hstore⟩
    refine ⟨p, hp, ?_⟩
    obtain ⟨key, value, hkey, hvalue, rfl⟩ := writeEntry_eq_ok_iff.1 hp
    obtain ⟨hkeyLen, hvalueLen⟩ := hstore
    refine ⟨⟨rfl, hkeyLen, hvalueLen⟩, fun m hm => insertMap_eq_ok_iff.2 ⟨hk.ne_nil k key hkey, k, v, ?_⟩⟩
    dsimp only at hkeyLen hvalueLen
    exact ⟨hk.lawful.inverts k key trivial hkey hkeyLen, hm, hv.inverts v value hP hvalue (by omega), rfl⟩
  of_insert := by
    intro m m' p hp hins
    obtain ⟨-, k, v, hkey, hnone, hvalue, rfl⟩ := insertMap_eq_ok_iff.1 hins
    exact ⟨k, v, exists_writeEntry hk hv hp.2 hkey hvalue t, hnone, rfl⟩

theorem stores_map {fk : Format S K} {fv : Format S V} {P : V → Prop} (hk : KeyLawful fk)
    (hv : fv.Lawful P) (t : UInt8) :
    Stores (pushMap fk fv t) (insertMap fk fv) ∅ (Typed t) (MapOk (writeEntry fk fv t) fun _ => P) :=
  (storesEntries_map hk hv t).stores

/-! ## Preimages -/

theorem insertHashPair_eq_ok_iff {n : ℕ} {hashFn : Bytes → U8Array n} {hashType : PsbtHash}
    {m m' : BTreeMap (U8Array n) Bytes} {pair : Pair} :
    (insertHashPair hashFn hashType m pair : Outcome (Error S) _) = .ok m' ↔ pair.key.key ≠ [] ∧
      ∃ k, (Format.hash n : Format S _).deserialize pair.key.key = .ok k ∧ m[k]? = none ∧
        hashFn pair.value = k ∧ m' = m.insert k pair.value := by
  unfold insertHashPair
  split_ifs with hkey
  · simp [hkey]
  · rw [Outcome.bind_eq_ok_iff, and_iff_right hkey]
    refine exists_congr fun k => and_congr_right fun _ => ?_
    rw [whenVacant_eq_ok_iff]
    refine and_congr_right fun _ => ?_
    show (Outcome.ensure _ _ >>= _) = _ ↔ _
    rw [Outcome.ensure_bind_eq_ok_iff]
    simp only [Outcome.pure_eq_ok, Outcome.ok.injEq, eq_comm (b := m')]

theorem stores_preimages {n : ℕ} (hn : 0 < n) (hn' : n ≤ Format.MAX_FIXED_SIZE) (hashFn : Bytes → U8Array n)
    (hashType : PsbtHash) (t : UInt8) :
    Stores (pushMap (S := S) (.hash n) .bytes t) (insertHashPair (S := S) hashFn hashType) ∅ (Typed t)
      (MapOk (writeEntry (S := S) (.hash n) .bytes t) fun k v => hashFn v = k) := by
  have hk : KeyLawful (Format.hash n : Format S _) := by
    refine ⟨Format.lawful_hash hn', fun k w hw => ?_⟩
    obtain rfl := Outcome.ok.inj hw
    rw [← List.length_pos_iff, k.length_eq]
    exact hn
  have hv : (Format.bytes : Format S _).Lawful fun _ => True := Format.exact_bytes.lawful
  refine StoresEntries.stores ⟨?_, ?_⟩
  · rintro k v ⟨hhash, p, hp, hstore⟩
    obtain ⟨q, hq, hentry, -⟩ := (storesEntries_map hk hv t).insert_written k v ⟨trivial, p, hp, hstore⟩
    obtain rfl := Outcome.ok.inj (hp.symm.trans hq)
    obtain ⟨key, value, hkey, hvalue, rfl⟩ := writeEntry_eq_ok_iff.1 hp
    cases hvalue
    refine ⟨_, hp, hentry, fun m hm => insertHashPair_eq_ok_iff.2 ⟨hk.ne_nil k key hkey, k, ?_⟩⟩
    exact ⟨hk.lawful.inverts k key trivial hkey hstore.1, hm, hhash, rfl⟩
  · intro m m' p hp hins
    obtain ⟨-, k, hkey, hnone, hhash, rfl⟩ := insertHashPair_eq_ok_iff.1 hins
    exact ⟨k, p.value, ⟨hhash, (exists_writeEntry hk hv hp.2 hkey rfl t).2⟩, hnone, rfl⟩

/-! ## Proprietary and unknown keys -/

theorem writeProprietary_eq_ok_iff {k : ProprietaryKey} {v : Bytes} {p : Pair} :
    writeProprietary (k, v) = .ok p ↔ k.toKey = .ok p.key ∧ p.value = v := by
  unfold writeProprietary
  rw [Outcome.bind_eq_ok_iff]
  constructor
  · rintro ⟨key, hkey, h⟩
    cases h
    exact ⟨hkey, rfl⟩
  · rintro ⟨hkey, rfl⟩
    exact ⟨p.key, hkey, rfl⟩

/-- A proprietary key is inserted as it is written. -/
theorem of_insertProprietary {m m' : BTreeMap ProprietaryKey Bytes} {p : Pair}
    (h : (insertProprietary m p : Outcome (Error S) _) = .ok m') :
    ∃ k v, k.key.length ≤ 1024 ∧ writeProprietary (k, v) = .ok p ∧ m[k]? = none ∧ m' = m.insert k v := by
  obtain ⟨k, hk, h⟩ := Outcome.bind_eq_ok_iff.1 h
  obtain ⟨hnone, h⟩ := whenVacant_eq_ok_iff.1 h
  cases h
  obtain ⟨hkey, hlen⟩ := ProprietaryKey.toKey_of_tryFrom hk
  exact ⟨k, p.value, hlen, writeProprietary_eq_ok_iff.2 ⟨hkey, rfl⟩, hnone, rfl⟩

theorem stores_proprietary :
    Stores pushProprietary (insertProprietary (S := S)) ∅ (Typed 0xFC)
      (MapOk writeProprietary fun k _ => k.key.length ≤ 1024) := by
  refine StoresEntries.stores ⟨?_, ?_⟩
  · rintro k v ⟨hlen, p, hp, hstore⟩
    obtain ⟨hkey, rfl⟩ := writeProprietary_eq_ok_iff.1 hp
    have htype : p.key.typeValue = 0xFC := by
      obtain ⟨w, -, hw⟩ := ProprietaryKey.toKey_eq_ok_iff.1 hkey
      rw [hw]
    refine ⟨p, hp, ⟨htype, hstore⟩, fun m hm => ?_⟩
    unfold insertProprietary
    rw [ProprietaryKey.tryFrom_toKey hlen hkey hstore.1, Outcome.ok_bind]
    exact whenVacant_eq_ok_iff.2 ⟨hm, rfl⟩
  · intro m m' p hp hins
    obtain ⟨k, v, hlen, hwrite, hnone, rfl⟩ := of_insertProprietary hins
    exact ⟨k, v, ⟨hlen, p, hwrite, hp.2⟩, hnone, rfl⟩

/-- An unknown key is inserted as it is written. -/
theorem of_insertUnknown {m m' : BTreeMap Raw.Key Bytes} {p : Pair}
    (h : (insertUnknown m p : Outcome (Error S) _) = .ok m') :
    m[p.key]? = none ∧ m' = m.insert p.key p.value := by
  obtain ⟨hnone, h⟩ := whenVacant_eq_ok_iff.1 h
  cases h
  exact ⟨hnone, rfl⟩

/-- Keys of the types in `Unassigned` are unknown. -/
theorem stores_unknown (Unassigned : UInt8 → Prop) :
    Stores pushUnknown (insertUnknown (S := S)) ∅ (fun p => Unassigned p.key.typeValue ∧ p.Storable)
      (MapOk writeUnknown fun k _ => Unassigned k.typeValue) := by
  refine StoresEntries.stores ⟨?_, ?_⟩
  · rintro k v ⟨hfree, p, hp, hstore⟩
    cases hp
    exact ⟨_, rfl, ⟨hfree, hstore⟩, fun m hm => whenVacant_eq_ok_iff.2 ⟨hm, rfl⟩⟩
  · intro m m' p hp hins
    obtain ⟨hnone, rfl⟩ := of_insertUnknown hins
    exact ⟨p.key, p.value, ⟨hp.1, p, rfl, hp.2⟩, hnone, rfl⟩

/-! ## Extended public keys -/

theorem run_u32_of_le {bs : Bytes} (h : 4 ≤ bs.length) :
    u32.consensusDecode.run bs = .ok (UInt32.ofNat (leNat (bs.take 4)), bs.drop 4) := by
  have hread : (readSlice 4).run bs = .ok (bs.take 4, bs.drop 4) := if_pos h
  exact Decoder.run_bind_of_ok hread

/-- On whole numbers the two ways to read a derivation path agree. -/
theorem readPath_eq_readIndexes {n fuel : ℕ} {d : Bytes} (hd : d.length = 4 * n) (hfuel : n ≤ fuel) :
    (Format.readPath fuel d : Outcome (Error S) _) = .ok (readIndexes fuel d) := by
  induction n generalizing fuel d with
  | zero =>
    obtain rfl := List.length_eq_zero_iff.1 hd
    cases fuel <;> rfl
  | succ n ih =>
    obtain ⟨fuel, rfl⟩ : ∃ k, fuel = k + 1 := Nat.exists_eq_add_one.2 (by omega)
    have hne : d ≠ [] := List.ne_nil_of_length_pos (by omega)
    have hdrop : (d.drop 4).length = 4 * n := by rw [List.length_drop]; omega
    rw [Format.readPath, if_neg hne, readIndexes, run_u32_of_le (by omega), Outcome.mapErr_ok,
      Outcome.ok_bind]
    dsimp only
    rw [ih hdrop (by omega)]
    rfl

/-- An extended public key and its source, as they were read from a pair. -/
theorem of_insertXpub {m m' : BTreeMap (Bip32.Xpub S.toSecp256k1) KeySource} {p : Pair}
    (h : insertXpub m p = .ok m') :
    ∃ k v, k.childNumber.InRange ∧ Format.SourceInRange v ∧ m[k]? = none ∧ m' = m.insert k v ∧
      p.key.key.length = k.encode.length ∧ p.value.length = (v.1.toList ++ Format.pathBytes v.2).length := by
  have hne : p.key.key ≠ [] := by
    intro hnil
    rw [insertXpub, if_neg (not_not.2 hnil)] at h
    cases h
  rw [insertXpub, if_pos hne] at h
  obtain ⟨k, hk, h⟩ := Outcome.bind_eq_ok_iff.1 h
  obtain ⟨⟨-, hmod⟩, h⟩ := Outcome.ensure_bind_eq_ok_iff.1 h
  split_ifs at h with hfour
  obtain ⟨hnone, h⟩ := whenVacant_eq_ok_iff.1 h
  cases h
  obtain ⟨hlen, hrange⟩ := Bip32.Xpub.inRange_of_decode (Outcome.mapErr_eq_ok_iff.1 hk)
  have hfour' := hfour
  rw [List.length_take] at hfour'
  have hdrop : (p.value.drop 4).length = 4 * (p.value.length / 4 - 1) := by
    rw [List.length_drop]
    omega
  have hfuel : (p.value.drop 4).length ≤ p.value.length := by simp
  obtain ⟨hpath, hpathLen⟩ := Format.of_readPath (S := S) hfuel (readPath_eq_readIndexes hdrop (by omega))
  refine ⟨k, (⟨p.value.take 4, hfour⟩, readIndexes p.value.length (p.value.drop 4)), hrange, hpath, hnone,
    rfl, hlen.trans k.length_encode.symm, ?_⟩
  rw [List.length_append, hpathLen, hfour, List.length_drop]
  omega

theorem stores_xpub (hS : S.Lawful) :
    Stores pushXpub (insertXpub (S := S)) ∅ (Typed PSBT_GLOBAL_XPUB)
      (MapOk writeXpub fun k v => k.childNumber.InRange ∧ Format.SourceInRange v) := by
  refine StoresEntries.stores ⟨?_, ?_⟩
  · rintro k v ⟨⟨hrange, hsource⟩, p, hp, hstore⟩
    cases hp
    refine ⟨_, rfl, ⟨rfl, hstore⟩, fun m hm => ?_⟩
    have hne : k.encode ≠ [] := List.ne_nil_of_length_pos (by rw [k.length_encode]; decide)
    have htake : (v.1.toList ++ Format.pathBytes v.2).take 4 = v.1.toList := List.take_left' v.1.length_eq
    have hlen : (v.1.toList ++ Format.pathBytes v.2).length = 4 + 4 * v.2.length := by
      rw [List.length_append, v.1.length_eq, Format.length_pathBytes]
    have hread : readIndexes (v.1.toList ++ Format.pathBytes v.2).length (Format.pathBytes v.2) = v.2 := by
      have hfuel : v.2.length ≤ (v.1.toList ++ Format.pathBytes v.2).length := by omega
      have hpath := Format.readPath_pathBytes (S := S) hsource hfuel
      rw [readPath_eq_readIndexes (Format.length_pathBytes v.2) (by omega)] at hpath
      exact Outcome.ok.inj hpath
    unfold insertXpub
    dsimp only
    rw [if_pos hne, Bip32.Xpub.decode_encode_of_inRange hS hrange, Outcome.mapErr_ok, Outcome.ok_bind,
      Outcome.ensure_of ⟨List.ne_nil_of_length_pos (by omega), by omega⟩, Outcome.ok_bind,
      dif_pos (by rw [htake, v.1.length_eq]), List.drop_left' v.1.length_eq, hread]
    refine whenVacant_eq_ok_iff.2 ⟨hm, congrArg Outcome.ok (congrArg (m.insert k) ?_)⟩
    exact Prod.ext (U8Array.ext htake) rfl
  · intro m m' p hp hins
    obtain ⟨k, v, hrange, hsource, hnone, rfl, hkey, hvalue⟩ := of_insertXpub hins
    refine ⟨k, v, ⟨⟨hrange, hsource⟩, _, rfl, ?_⟩, hnone, rfl⟩
    exact ⟨hkey ▸ hp.2.1, hvalue ▸ hp.2.2⟩

end Psbt

end RustDogecoin
