import RustDogecoin.Crypto.CurveFormats
import RustDogecoin.Psbt.MapLaws
import Mathlib.Data.UInt

/-!
# Partially signed transactions come back from their bytes

The global map is rebuilt from its pairs like the other maps.  It is read from a bounded number of bytes, so
that writing again what was read must not take more of them: every pair that is read accounts for the bytes
of the pair that is written for it (`Global.size_insertPair_le`).  On top of the three kinds of maps, what
`deserialize` returns comes back from its bytes, and so does every transaction that keeps the conditions
`Serializable` and has child numbers in range.
-/

namespace RustDogecoin

namespace Psbt

open Raw Entries Taproot

variable {S : KeyFormats}

/-! ## The global map -/

namespace Global

/-- The map has no field for keys of this type. -/
def Unassigned (t : UInt8) : Prop :=
  t ∉ [PSBT_GLOBAL_UNSIGNED_TX, PSBT_GLOBAL_XPUB, PSBT_GLOBAL_VERSION, PSBT_GLOBAL_PROPRIETARY]

/-- Every field can be stored and comes back. -/
structure WellFormed (g : Global S) : Prop where
  tx : FieldOk (S := S) .unsignedTx PSBT_GLOBAL_UNSIGNED_TX (fun tx => ∀ t ∈ tx.input, t.witness = Witness.new)
    g.tx
  xpubMap : MapOk writeXpub (fun k v => k.childNumber.InRange ∧ Format.SourceInRange v) g.xpubMap
  version : FieldOk (S := S) .globalVersion PSBT_GLOBAL_VERSION (fun version => version = 0) g.version
  proprietary : MapOk writeProprietary (fun k _ => k.key.length ≤ 1024) g.proprietary
  unknowns : MapOk writeUnknown (fun k _ => Unassigned k.typeValue) g.unknowns

theorem insertPair_of_unassigned (g : Global S) {pair : Pair} (h : Unassigned pair.key.typeValue) :
    g.insertPair pair = ({ g with unknowns := · }) <$> insertUnknown g.unknowns pair := by
  simp only [Unassigned, List.mem_cons, List.not_mem_nil, or_false, not_or] at h
  simp only [insertPair, h, if_false]

theorem wellFormed_empty : ({} : Global S).WellFormed := by
  constructor <;> simp [FieldOk, MapOk, BTreeMap.Forall]

/-- Reading a pair keeps the global map well-formed. -/
theorem WellFormed.insertPair (hS : S.Lawful) {g g' : Global S} (h : g.WellFormed) {pair : Pair}
    (hpair : pair.Storable) (hins : g.insertPair pair = .ok g') : g'.WellFormed := by
  unfold Global.insertPair at hins
  refine Outcome.of_ite_eq_ok hins (fun htype hins => ?_) fun h1 hins => ?_
  · obtain ⟨x, hx, rfl⟩ := of_map_insert_eq_ok
      (stores_field Format.exact_unsignedTx.lawful _) htype hpair hins h.tx
    exact { h with tx := hx }
  refine Outcome.of_ite_eq_ok hins (fun htype hins => ?_) fun h2 hins => ?_
  · obtain ⟨x, hx, rfl⟩ := of_map_insert_eq_ok (stores_xpub hS) htype hpair hins h.xpubMap
    exact { h with xpubMap := hx }
  refine Outcome.of_ite_eq_ok hins (fun htype hins => ?_) fun h3 hins => ?_
  · obtain ⟨x, hx, rfl⟩ := of_map_insert_eq_ok
      (stores_field Format.lawful_globalVersion _) htype hpair hins h.version
    exact { h with version := hx }
  refine Outcome.of_ite_eq_ok hins (fun htype hins => ?_) fun h4 hins => ?_
  · obtain ⟨x, hx, rfl⟩ := of_map_insert_eq_ok stores_proprietary htype hpair hins h.proprietary
    exact { h with proprietary := hx }
  have hfree : Unassigned pair.key.typeValue := by
    simp only [Unassigned, List.mem_cons, List.not_mem_nil, or_false, not_or]
    exact ⟨h1, h2, h3, h4⟩
  obtain ⟨x, hx, rfl⟩ := Outcome.map_eq_ok_iff.1 hins
  exact { h with unknowns := (stores_unknown Unassigned).ok_insert _ _ _ h.unknowns ⟨hfree, hpair⟩ hx }

/-- The bytes of the pairs that are written for the map; a version of zero is not written. -/
def size (g : Global S) : ℕ :=
  total Pair.size (pushField (S := S) .unsignedTx PSBT_GLOBAL_UNSIGNED_TX g.tx) +
    (total Pair.size (pushXpub g.xpubMap) +
      (total Pair.size (pushProprietary g.proprietary) + total Pair.size (pushUnknown g.unknowns)))

theorem exists_write {K V : Type} [LinearOrder K] {write : K × V → Outcome Empty Pair} {P : K → V → Prop}
    {m : BTreeMap K V} (h : MapOk write P m) : ∀ e ∈ m.toList, ∃ p, write e = .ok p := by
  intro e he
  obtain ⟨-, p, hp, -⟩ := h e.1 e.2 ((m.mem_toList_iff e.1 e.2).1 he)
  exact ⟨p, hp⟩

/-- A pair that is read accounts for what is written for it. -/
theorem size_insertPair_le {g g' : Global S} (h : g.WellFormed) {pair : Pair} (hpair : pair.Storable)
    (hins : g.insertPair pair = .ok g') : g'.size ≤ g.size + pair.size := by
  unfold Global.insertPair at hins
  refine Outcome.of_ite_eq_ok hins (fun htype hins => ?_) fun h1 hins => ?_
  · obtain ⟨x, hx, rfl⟩ := Outcome.map_eq_ok_iff.1 hins
    obtain ⟨hkey, hnone, tx, htx, rfl⟩ := insertField_eq_ok_iff.1 hx
    have hvalue : pair.value.length + 5 ≤ MAX_VEC_SIZE := hpair.2
    obtain ⟨-, hw⟩ := (Format.exact_unsignedTx pair.value tx (by omega)).1 htx
    have hsize : total Pair.size (pushField (S := S) .unsignedTx PSBT_GLOBAL_UNSIGNED_TX (some tx)) =
        pair.size := by
      rw [pushField, hw]
      simp [total, Pair.size, hkey]
    simp only [size, hsize]
    omega
  refine Outcome.of_ite_eq_ok hins (fun htype hins => ?_) fun h2 hins => ?_
  · obtain ⟨x, hx, rfl⟩ := Outcome.map_eq_ok_iff.1 hins
    obtain ⟨k, v, -, -, hnone, rfl, hkey, hvalue⟩ := of_insertXpub hx
    have hsize := total_insert Pair.size (exists_write h.xpubMap) hnone (v := v) rfl
    rw [show Pair.size _ = pair.size by simp [Pair.size, hkey, hvalue]] at hsize
    simp only [size, pushXpub, hsize]
    omega
  refine Outcome.of_ite_eq_ok hins (fun htype hins => ?_) fun h3 hins => ?_
  · obtain ⟨x, hx, rfl⟩ := Outcome.map_eq_ok_iff.1 hins
    exact Nat.le_add_right _ _
  refine Outcome.of_ite_eq_ok hins (fun htype hins => ?_) fun h4 hins => ?_
  · obtain ⟨x, hx, rfl⟩ := Outcome.map_eq_ok_iff.1 hins
    obtain ⟨k, v, -, hwrite, hnone, rfl⟩ := of_insertProprietary hx
    have hsize := total_insert Pair.size (exists_write h.proprietary) hnone hwrite
    simp only [size, pushProprietary, hsize]
    omega
  · obtain ⟨x, hx, rfl⟩ := Outcome.map_eq_ok_iff.1 hins
    obtain ⟨hnone, rfl⟩ := of_insertUnknown hx
    have hsize := total_insert Pair.size (exists_write h.unknowns) hnone (v := pair.value) (p := pair) rfl
    simp only [size, pushUnknown, hsize]
    omega

end Global

/-- The global map of a transaction of version 0. -/
def toGlobal (p : Psbt S) : Global S where
  tx := some p.unsignedTx
  unknowns := p.unknown
  xpubMap := p.xpub
  proprietary := p.proprietary

/-- The global map is rebuilt from its pairs. -/
theorem rebuilds_getPairs (hS : S.Lawful) {p : Psbt S} (hversion : p.version = 0)
    (h : p.toGlobal.WellFormed) : Rebuilds Global.insertPair Pair.Storable p.getPairs {} p.toGlobal := by
  have hnone : (if 0 < p.version then some p.version else none) = none := by
    rw [hversion]
    rfl
  unfold getPairs
  rw [hnone]
  refine rebuilds_typed (stores_field Format.exact_unsignedTx.lawful _)
    { get := Global.tx, set := fun g x => { g with tx := x } }
    (fun m p hp => by rw [Global.insertPair, hp]; rfl) rfl h.tx ?_
  refine rebuilds_typed (stores_xpub hS)
    { get := Global.xpubMap, set := fun g x => { g with xpubMap := x } }
    (fun m p hp => by rw [Global.insertPair, hp]; rfl) rfl h.xpubMap ?_
  refine rebuilds_typed (stores_field Format.lawful_globalVersion _)
    { get := Global.version, set := fun g x => { g with version := x } }
    (fun m p hp => by rw [Global.insertPair, hp]; rfl) rfl h.version ?_
  refine rebuilds_typed stores_proprietary
    { get := Global.proprietary, set := fun g x => { g with proprietary := x } }
    (fun m p hp => by rw [Global.insertPair, hp]; rfl) rfl h.proprietary ?_
  refine rebuilds_cons ((stores_unknown Global.Unassigned).rebuilds
    { get := Global.unknowns, set := fun g x => { g with unknowns := x } }
    (fun g p hp => g.insertPair_of_unassigned hp.1) (fun _ hp => hp.2) rfl h.unknowns) ?_
  exact rebuilds_nil _ _

theorem sum_size_of_list {ps : List Pair} {w : Written} (h : Encoder.list Pair.serialize ps = .ok w) :
    w.bytes.length = (ps.map Pair.size).sum := by
  induction ps generalizing w with
  | nil =>
    cases h
    rfl
  | cons p ps ih =>
    obtain ⟨u, v, hu, hv, rfl⟩ := Encoder.list_cons_eq_ok_iff.1 h
    rw [Written.bytes_append, List.length_append, Pair.length_serialize hu, ih hv, List.map_cons,
      List.sum_cons]

theorem sum_size_of_concatPairs {fields : List (Outcome Empty (List Pair))} {ps : List Pair}
    (h : concatPairs fields = .ok ps) : (ps.map Pair.size).sum = (fields.map (total Pair.size)).sum := by
  induction fields generalizing ps with
  | nil =>
    cases h
    rfl
  | cons x fields ih =>
    obtain ⟨qs, hqs, h⟩ := Outcome.bind_eq_ok_iff.1 h
    obtain ⟨rs, hrs, h⟩ := Outcome.bind_eq_ok_iff.1 h
    cases h
    rw [List.map_append, List.sum_append, ih hrs, List.map_cons, List.sum_cons, hqs, total]

/-- The number of bytes of the global map. -/
theorem length_serializeMap {p : Psbt S} (hversion : p.version = 0) {w : Written}
    (hw : serializeMap getPairs p = .ok w) : w.bytes.length = p.toGlobal.size + 1 := by
  obtain ⟨ps, buf, hps, hbuf, rfl⟩ := serializeMap_eq_ok_iff.1 hw
  have hsum := sum_size_of_concatPairs hps
  have hnone : (if 0 < p.version then some p.version else none) = none := by
    rw [hversion]
    rfl
  rw [hnone] at hsum
  rw [Written.bytes_append, List.length_append, sum_size_of_list hbuf, hsum]
  simp [Global.size, toGlobal, pushField, total]

/-- The transaction with the global map `g` and nothing else. -/
def ofGlobal (g : Global S) (tx : Transaction) : Psbt S where
  unsignedTx := tx
  version := g.version.getD 0
  xpub := g.xpubMap
  proprietary := g.proprietary
  unknown := g.unknowns

theorem run_decodeGlobal_eq_ok_iff {bs rest : Bytes} {p : Psbt S} :
    decodeGlobal.run bs = .ok (p, rest) ↔ ∃ g tx, g.tx = some tx ∧ p = ofGlobal g tx ∧
      ((decodeMap Global.insertPair {}).limit MAX_VEC_SIZE).run bs = .ok (g, rest) := by
  unfold decodeGlobal
  rw [Decoder.run_bind_eq_ok_iff]
  constructor
  · rintro ⟨g, mid, hg, h⟩
    cases htx : g.tx with
    | none =>
      rw [htx] at h
      cases h
    | some tx =>
      rw [htx] at h
      cases h
      exact ⟨g, tx, htx, rfl, hg⟩
  · rintro ⟨g, tx, htx, rfl, hg⟩
    refine ⟨g, rest, hg, ?_⟩
    rw [htx]
    rfl

/-- What the global part of a transaction needs to come back. -/
structure GlobalOk (p : Psbt S) : Prop where
  version_eq : p.version = 0
  wellFormed : p.toGlobal.WellFormed
  size_lt : p.toGlobal.size < MAX_VEC_SIZE

/-- The global map comes back from its bytes. -/
theorem run_decodeGlobal (hS : S.Lawful) {p : Psbt S} (h : p.GlobalOk) {w : Written}
    (hw : serializeMap getPairs p = .ok w) (rest : Bytes) :
    (decodeGlobal (S := S)).run (w.bytes ++ rest) = .ok ({ p with inputs := [], outputs := [] }, rest) := by
  have hrebuilds := rebuilds_getPairs hS h.version_eq h.wellFormed
  have hlen : w.bytes.length ≤ MAX_VEC_SIZE := (length_serializeMap h.version_eq hw).trans_le h.size_lt
  refine run_decodeGlobal_eq_ok_iff.2 ⟨p.toGlobal, p.unsignedTx, rfl, ?_, ?_⟩
  · rw [ofGlobal, toGlobal, ← h.version_eq]
    rfl
  · exact Decoder.run_limit_append hlen (run_decodeMap hrebuilds hw) rest

theorem wellFormed_of_decodeGlobal (hS : S.Lawful) {bs rest : Bytes} {p : Psbt S}
    (h : decodeGlobal.run bs = .ok (p, rest)) : p.GlobalOk := by
  obtain ⟨g, tx, htx, rfl, hrun⟩ := run_decodeGlobal_eq_ok_iff.1 h
  obtain ⟨r, hrun, -⟩ := Decoder.run_limit_eq_ok_iff.1 hrun
  obtain ⟨ps, w, hw, hbytes, hps, hfold⟩ := of_decodePairs (Nat.lt_succ_self _) hrun
  obtain ⟨hg, hsize⟩ := foldlM_invariant_sum Pair.size (fun n (g : Global S) => g.WellFormed ∧ g.size ≤ n)
    (fun n g p g' hg hp hins => ⟨hg.1.insertPair hS hp hins,
      (g.size_insertPair_le hg.1 hp hins).trans (Nat.add_le_add_right hg.2 _)⟩)
    hps (n := 0) ⟨Global.wellFormed_empty, le_rfl⟩ hfold
  have hlen := congrArg List.length hbytes
  rw [List.length_append, sum_size_of_list hw, List.length_take, List.length_cons] at hlen
  obtain ⟨gtx, version, unknowns, xpubMap, proprietary⟩ := g
  cases htx
  refine ⟨?_, { hg with version := Global.wellFormed_empty.version }, ?_⟩
  · cases version with
    | none => rfl
    | some version => exact (hg.version version rfl).1
  · have hsize' : Global.size (S := S) ⟨some tx, none, unknowns, xpubMap, proprietary⟩ ≤ _ := hsize
    change Global.size (S := S) ⟨some tx, none, unknowns, xpubMap, proprietary⟩ < MAX_VEC_SIZE
    omega

/-! ## The whole format -/

theorem unsignedTxChecks_eq_ok_iff {p : Psbt S} {u : Unit} : p.unsignedTxChecks = .ok u ↔
    ∀ t ∈ p.unsignedTx.input, t.scriptSig = [] ∧ t.witness.isEmpty = true := by
  unfold unsignedTxChecks
  induction p.unsignedTx.input with
  | nil => exact iff_of_true rfl (by simp)
  | cons t input ih =>
    rw [List.forM_cons, List.forall_mem_cons, ← ih, Outcome.bind_eq_ok_iff]
    simp only [Outcome.ensure_bind_eq_ok_iff, Outcome.ensure_eq_ok_iff, exists_const]

theorem serializeToWriter_eq_ok_iff {p : Psbt S} {w : Written} :
    serializeToWriter p = .ok w ↔ ∃ global inputs outputs, serializeMap getPairs p = .ok global ∧
      (serializeMap Input.getPairs).list p.inputs = .ok inputs ∧
      (serializeMap Output.getPairs).list p.outputs = .ok outputs ∧
      w = .ofBytes MAGIC_BYTES.toList ++ (.ofBytes [PSBT_SERPARATOR] ++ (global ++ (inputs ++ outputs))) := by
  unfold serializeToWriter
  rw [Outcome.bind_eq_ok_iff]
  constructor
  · rintro ⟨global, hglobal, h⟩
    obtain ⟨inputs, hinputs, h⟩ := Outcome.bind_eq_ok_iff.1 h
    obtain ⟨outputs, houtputs, h⟩ := Outcome.bind_eq_ok_iff.1 h
    cases h
    exact ⟨global, inputs, outputs, hglobal, hinputs, houtputs, rfl⟩
  · rintro ⟨global, inputs, outputs, hglobal, hinputs, houtputs, rfl⟩
    refine ⟨global, hglobal, ?_⟩
    rw [hinputs, Outcome.ok_bind, houtputs]
    rfl

/-- What a transaction needs to come back from its bytes. -/
structure WellFormed (p : Psbt S) : Prop where
  globalOk : p.GlobalOk
  unsigned : ∀ t ∈ p.unsignedTx.input, t.scriptSig = [] ∧ t.witness.isEmpty = true
  length_inputs : p.inputs.length = p.unsignedTx.input.length
  length_outputs : p.outputs.length = p.unsignedTx.output.length
  inputs : ∀ m ∈ p.inputs, m.WellFormed
  outputs : ∀ m ∈ p.outputs, m.WellFormed

theorem roundTrips_input (hS : S.Lawful) :
    RoundTrips (serializeMap Input.getPairs) (Input.decode (S := S)) Input.WellFormed :=
  fun _ _ hm hw => run_decodeMap (Input.rebuilds_getPairs hS hm) hw

theorem roundTrips_output (hS : S.Lawful) :
    RoundTrips (serializeMap Output.getPairs) (Output.decode (S := S)) Output.WellFormed :=
  fun _ _ hm hw => run_decodeMap (Output.rebuilds_getPairs hS hm) hw

theorem WellFormed.exists_serializeToWriter (hS : S.Lawful) {p : Psbt S} (h : p.WellFormed) :
    ∃ w, serializeToWriter p = .ok w := by
  obtain ⟨global, hglobal⟩ :=
    exists_serializeMap (rebuilds_getPairs hS h.globalOk.version_eq h.globalOk.wellFormed)
  obtain ⟨inputs, hinputs⟩ := Encoder.exists_list fun m hm =>
    exists_serializeMap (Input.rebuilds_getPairs hS (h.inputs m hm))
  obtain ⟨outputs, houtputs⟩ := Encoder.exists_list fun m hm =>
    exists_serializeMap (Output.rebuilds_getPairs hS (h.outputs m hm))
  exact ⟨_, serializeToWriter_eq_ok_iff.2 ⟨global, inputs, outputs, hglobal, hinputs, houtputs, rfl⟩⟩

/-- A transaction comes back from its bytes, whatever follows them. -/
theorem WellFormed.run_deserializeFromReader (hS : S.Lawful) {p : Psbt S} (h : p.WellFormed) {w : Written}
    (hw : serializeToWriter p = .ok w) (rest : Bytes) :
    deserializeFromReader.run (w.bytes ++ rest) = .ok (p, rest) := by
  obtain ⟨global, inputs, outputs, hglobal, hinputs, houtputs, rfl⟩ := serializeToWriter_eq_ok_iff.1 hw
  have hchecks : unsignedTxChecks { p with inputs := [], outputs := [] } = .ok () :=
    unsignedTxChecks_eq_ok_iff.2 h.unsigned
  have hseparator : ∀ rest, u8.consensusDecode.run (PSBT_SERPARATOR :: rest) = .ok (PSBT_SERPARATOR, rest) :=
    fun rest => run_u8 PSBT_SERPARATOR rest
  unfold deserializeFromReader
  simp only [Written.bytes_append, Written.bytes_ofBytes, List.append_assoc]
  rw [Decoder.run_bind_of_ok (Decoder.run_mapErr_eq_ok_iff.2 (run_u8Array MAGIC_BYTES _)),
    Decoder.run_ensure_bind_of rfl, List.singleton_append,
    Decoder.run_bind_of_ok (Decoder.run_mapErr_eq_ok_iff.2 (hseparator _)), Decoder.run_ensure_bind_of rfl,
    Decoder.run_bind_of_ok (run_decodeGlobal hS h.globalOk hglobal _),
    Decoder.run_bind_of_ok (Decoder.run_ofOutcome_eq_ok_iff.2 ⟨hchecks, rfl⟩),
    Decoder.run_bind_of_ok ((roundTrips_input hS).times _ _ _ ⟨h.length_inputs, h.inputs⟩ hinputs _),
    Decoder.run_bind_of_ok ((roundTrips_output hS).times _ _ _ ⟨h.length_outputs, h.outputs⟩ houtputs _)]
  rfl

/-- What was read can come back. -/
theorem wellFormed_of_deserialize (hS : S.Lawful) {bytes : Bytes} {p : Psbt S}
    (h : deserialize bytes = .ok p) : p.WellFormed := by
  obtain ⟨⟨p', rest⟩, hrun, rfl⟩ := Outcome.map_eq_ok_iff.1 h
  obtain ⟨magic, r₁, -, h⟩ := Decoder.run_bind_eq_ok_iff.1 hrun
  obtain ⟨-, h⟩ := Decoder.run_ensure_bind_eq_ok_iff.1 h
  obtain ⟨separator, r₂, -, h⟩ := Decoder.run_bind_eq_ok_iff.1 h
  obtain ⟨-, h⟩ := Decoder.run_ensure_bind_eq_ok_iff.1 h
  obtain ⟨global, r₃, hglobal, h⟩ := Decoder.run_bind_eq_ok_iff.1 h
  obtain ⟨u, r₄, hchecks, h⟩ := Decoder.run_bind_eq_ok_iff.1 h
  obtain ⟨inputs, r₅, hinputs, h⟩ := Decoder.run_bind_eq_ok_iff.1 h
  obtain ⟨outputs, r₆, houtputs, h⟩ := Decoder.run_bind_eq_ok_iff.1 h
  cases h
  have hok := wellFormed_of_decodeGlobal hS hglobal
  exact {
    globalOk := ⟨hok.version_eq, hok.wellFormed, hok.size_lt⟩
    unsigned := unsignedTxChecks_eq_ok_iff.1 (Decoder.run_ofOutcome_eq_ok_iff.1 hchecks).1
    length_inputs := Decoder.length_of_times hinputs
    length_outputs := Decoder.length_of_times houtputs
    inputs := Decoder.forall_of_times (fun _ _ _ => of_decodeMap Input.wellFormed_empty
      fun _ _ _ hm hp hins => hm.insertPair hS hp hins) hinputs
    outputs := Decoder.forall_of_times (fun _ _ _ => of_decodeMap Output.wellFormed_empty
      fun _ _ _ hm hp hins => hm.insertPair hS hp hins) houtputs }

/-- A transaction can be written, and is read back from what was written. -/
def ComesBack (p : Psbt S) : Prop := ∃ w, p.serialize = .ok w ∧ deserialize w = .ok p

theorem WellFormed.comesBack (hS : S.Lawful) {p : Psbt S} (h : p.WellFormed) : p.ComesBack := by
  obtain ⟨w, hw⟩ := h.exists_serializeToWriter hS
  have hrun := h.run_deserializeFromReader hS hw []
  rw [List.append_nil] at hrun
  refine ⟨w.bytes, ?_, ?_⟩
  · rw [serialize, hw]
    rfl
  · rw [deserialize, hrun]
    rfl

/-- The conditions on a transaction: version 0, an unsigned transaction without scripts and witnesses, one map
for each input and each output, conditions on the maps, proprietary keys of at most 1024 bytes after the
subtype, unknown keys that are not known ones, and a global map and pairs within the limits. -/
structure Serializable (p : Psbt S) : Prop where
  version_eq : p.version = 0
  unsigned : ∀ t ∈ p.unsignedTx.input, t.scriptSig = [] ∧ t.witness.isEmpty = true
  length_inputs : p.inputs.length = p.unsignedTx.input.length
  length_outputs : p.outputs.length = p.unsignedTx.output.length
  inputs : ∀ m ∈ p.inputs, m.Serializable
  outputs : ∀ m ∈ p.outputs, m.Serializable
  proprietary : p.proprietary.Forall fun k _ => k.key.length ≤ 1024
  unknown : p.unknown.Forall fun k _ => Global.Unassigned k.typeValue
  limits : PairsWithinLimits p.getPairs
  length_le : ∀ w, serializeMap getPairs p = .ok w → w.bytes.length ≤ MAX_VEC_SIZE

/-- The child numbers of extended public keys and of derivation paths are below `2 ^ 31`. -/
structure InRange (p : Psbt S) : Prop where
  xpub : p.xpub.Forall fun k source => k.childNumber.InRange ∧ Format.SourceInRange source
  inputs : ∀ m ∈ p.inputs, m.InRange
  outputs : ∀ m ∈ p.outputs, m.InRange

theorem Serializable.globalOk {p : Psbt S} (h : p.Serializable) (hrange : p.InRange) : p.GlobalOk := by
  have hlisted := listed_concatPairs_iff.1 h.limits.listed
  simp only [List.forall_mem_cons, List.not_mem_nil, false_imp_iff, implies_true, and_true] at hlisted
  obtain ⟨htx, hxpub, -, hproprietary, hunknown⟩ := hlisted
  refine ⟨h.version_eq, ?_, ?_⟩
  · exact {
      tx := fieldOk_of_listed htx fun tx htx t ht => by
        cases htx
        exact Witness.isEmpty_iff.1 (h.unsigned t ht).2
      xpubMap := mapOk_of_listed hxpub hrange.xpub
      version := Global.wellFormed_empty.version
      proprietary := mapOk_of_listed hproprietary h.proprietary
      unknowns := mapOk_of_listed hunknown h.unknown }
  · obtain ⟨ps, buf, hps, hbuf, -⟩ := h.limits
    have hw := serializeMap_eq_ok_iff.2 ⟨ps, buf, hps, hbuf, rfl⟩
    have hlen := h.length_le _ hw
    rw [length_serializeMap h.version_eq hw] at hlen
    exact hlen

theorem Serializable.wellFormed {p : Psbt S} (h : p.Serializable) (hrange : p.InRange) : p.WellFormed where
  globalOk := h.globalOk hrange
  unsigned := h.unsigned
  length_inputs := h.length_inputs
  length_outputs := h.length_outputs
  inputs m hm := (h.inputs m hm).wellFormed (hrange.inputs m hm)
  outputs m hm := (h.outputs m hm).wellFormed (hrange.outputs m hm)

/-- What was read comes back when it is written again, and so does every transaction that keeps the
conditions and has child numbers in range. -/
theorem deserialize_serialize (hS : S.Lawful) :
    (∀ (bytes : Bytes) (p : Psbt S), deserialize bytes = .ok p → p.ComesBack) ∧
      ∀ p : Psbt S, p.Serializable → p.InRange → p.ComesBack :=
  ⟨fun _ _ h => (wellFormed_of_deserialize hS h).comesBack hS,
    fun _ h hrange => (h.wellFormed hrange).comesBack hS⟩

/-! ### A derivation path of one child number -/

/-- An extended public key. -/
def sampleXpub : Bip32.Xpub KeyFormats.curve.toSecp256k1 :=
  ⟨.main, 0, U8Array.replicate 4 0, .normal 0, KeyFormats.base, U8Array.replicate 32 0⟩

/-- A transaction with an extended public key whose derivation path is the given child number. -/
def samplePsbt (c : Bip32.ChildNumber) : Psbt KeyFormats.curve where
  unsignedTx := ⟨2, .blocks 0 zero_lt_threshold, [], []⟩
  xpub := (∅ : BTreeMap _ _).insert sampleXpub (U8Array.replicate 4 0, [c])

theorem toList_samplePsbt (c : Bip32.ChildNumber) :
    (samplePsbt c).xpub.toList = [(sampleXpub, U8Array.replicate 4 0, [c])] :=
  List.perm_singleton.1 (BTreeMap.perm_toList_insert (m := ∅) (by simp) _)

theorem pushUnsignedTx_samplePsbt :
    pushField (S := KeyFormats.curve) .unsignedTx PSBT_GLOBAL_UNSIGNED_TX
      (some ⟨2, .blocks 0 zero_lt_threshold, [], []⟩) = .ok [⟨⟨0x00, []⟩, [2, 0, 0, 0, 0, 0, 0, 0, 0, 0]⟩] := by
  decide +kernel

theorem getPairs_samplePsbt (c : Bip32.ChildNumber) : (samplePsbt c).getPairs =
    .ok [⟨⟨0x00, []⟩, [2, 0, 0, 0, 0, 0, 0, 0, 0, 0]⟩,
      ⟨⟨0x01, sampleXpub.encode⟩, [0, 0, 0, 0] ++ (leBytes 4 c.toU32.toNat ++ [])⟩] := by
  unfold getPairs pushXpub
  rw [toList_samplePsbt]
  unfold samplePsbt pushProprietary pushUnknown
  rw [pushUnsignedTx_samplePsbt]
  rfl

theorem storable_samplePsbt (c : Bip32.ChildNumber) : Listed (samplePsbt c).getPairs := by
  refine ⟨_, getPairs_samplePsbt c, ?_⟩
  rw [List.forall_mem_cons, List.forall_mem_singleton, Pair.Storable, Pair.Storable,
    Bip32.Xpub.length_encode, MAX_VEC_SIZE]
  simp

theorem serializable_samplePsbt (c : Bip32.ChildNumber) : (samplePsbt c).Serializable where
  version_eq := rfl
  unsigned := by simp [samplePsbt]
  length_inputs := rfl
  length_outputs := rfl
  inputs := by simp [samplePsbt]
  outputs := by simp [samplePsbt]
  proprietary := by simp [samplePsbt, BTreeMap.Forall]
  unknown := by simp [samplePsbt, BTreeMap.Forall]
  limits := (storable_samplePsbt c).pairsWithinLimits
  length_le := by
    intro w hw
    obtain ⟨ps, buf, hps, hbuf, rfl⟩ := serializeMap_eq_ok_iff.1 hw
    obtain rfl := Outcome.ok.inj ((getPairs_samplePsbt c).symm.trans hps)
    rw [Written.bytes_append, List.length_append, sum_size_of_list hbuf]
    simp only [List.map_cons, List.map_nil, Pair.size, Bip32.Xpub.length_encode, List.length_append,
      length_leBytes]
    decide

theorem inRange_samplePsbt {c : Bip32.ChildNumber} (h : c.InRange) : (samplePsbt c).InRange where
  xpub := by
    intro k source hk
    have hmem := ((samplePsbt c).xpub.mem_toList_iff k source).2 hk
    rw [toList_samplePsbt, List.mem_singleton] at hmem
    cases hmem
    exact ⟨by decide, by simpa [Format.SourceInRange] using h⟩
  inputs := by simp [samplePsbt]
  outputs := by simp [samplePsbt]

/-- A hardened child number comes back, from the bytes and from the conditions. -/
theorem deserialize_serialize_sample :
    (samplePsbt (.hardened 0)).Serializable ∧ (samplePsbt (.hardened 0)).InRange ∧
      (samplePsbt (.hardened 0)).ComesBack ∧
      ∃ bytes, deserialize bytes = .ok (samplePsbt (.hardened 0)) ∧ (samplePsbt (.hardened 0)).ComesBack := by
  have hserializable := serializable_samplePsbt (.hardened 0)
  have hrange : (samplePsbt (.hardened 0)).InRange := inRange_samplePsbt (by decide)
  have hback := (deserialize_serialize KeyFormats.curve_lawful).2 _ hserializable hrange
  obtain ⟨bytes, -, hbytes⟩ := id hback
  exact ⟨hserializable, hrange, hback, bytes, hbytes,
    (deserialize_serialize KeyFormats.curve_lawful).1 bytes _ hbytes⟩

theorem samplePsbt_ne : samplePsbt (.hardened 0) ≠ samplePsbt (.normal (2 ^ 31)) := by
  intro h
  have hlist := congrArg (fun p : Psbt KeyFormats.curve => p.xpub.toList) h
  simp only [toList_samplePsbt] at hlist
  cases hlist

/-- The same bytes stand for a hardened child number and for a normal one out of range, and are read as the
former. -/
theorem not_comesBack_samplePsbt :
    (samplePsbt (.normal (2 ^ 31))).Serializable ∧ ¬(samplePsbt (.normal (2 ^ 31))).ComesBack := by
  refine ⟨serializable_samplePsbt _, ?_⟩
  rintro ⟨w, hw, hback⟩
  have hrange : (samplePsbt (.hardened 0)).InRange := inRange_samplePsbt (by decide)
  obtain ⟨w', hw', hback'⟩ :=
    ((serializable_samplePsbt (.hardened 0)).wellFormed hrange).comesBack KeyFormats.curve_lawful
  have hbytes : (samplePsbt (.normal (2 ^ 31))).serialize = (samplePsbt (.hardened 0)).serialize := by
    unfold serialize serializeToWriter serializeMap
    rw [getPairs_samplePsbt, getPairs_samplePsbt]
    rfl
  obtain rfl : w = w' := Outcome.ok.inj (hw.symm.trans (hbytes.trans hw'))
  exact samplePsbt_ne (Outcome.ok.inj (hback'.symm.trans hback))

end Psbt

end RustDogecoin
