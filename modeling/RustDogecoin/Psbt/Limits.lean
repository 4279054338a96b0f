import RustDogecoin.Blockdata.Weight
import RustDogecoin.Psbt.RoundTrip

/-!
# Sizes in a transaction that was read

A value of a pair is at most `MAX_VEC_SIZE` bytes long.  So the scripts, witnesses and transactions of a
partially signed transaction that `deserialize` returned are within this limit, and so are their parts.
-/

namespace RustDogecoin

/-! ## Parts of what was written -/

theorem TxIn.length_scriptSig_lt {t : TxIn} {w : Written} (h : TxIn.codec.consensusEncode t = .ok w) :
    t.scriptSig.length < w.bytes.length := by
  obtain ⟨o, v, ho, hv, rfl⟩ := Encoder.seq_eq_ok_iff.1 h
  obtain ⟨s, n, hs, hn, rfl⟩ := Encoder.seq_eq_ok_iff.1 hv
  obtain ⟨-, rfl⟩ := Psbt.Format.vecU8_eq_ok_iff.1 hs
  have hpos := (VarInt.mk (UInt64.ofNat t.scriptSig.length)).size_pos
  simp only [Written.bytes_append, List.length_append, Written.bytes_ofBytes, VarInt.length_written,
    TxIn.fields] at hpos ⊢
  omega

theorem TxOut.length_scriptPubkey_lt {o : TxOut} {w : Written} (h : TxOut.codec.consensusEncode o = .ok w) :
    o.scriptPubkey.length < w.bytes.length := by
  obtain ⟨v, s, hv, hs, rfl⟩ := Encoder.seq_eq_ok_iff.1 h
  obtain ⟨-, rfl⟩ := Psbt.Format.vecU8_eq_ok_iff.1 hs
  have hpos := (VarInt.mk (UInt64.ofNat o.scriptPubkey.length)).size_pos
  simp only [Written.bytes_append, List.length_append, Written.bytes_ofBytes, VarInt.length_written,
    TxOut.equiv, Equiv.coe_fn_mk] at hpos ⊢
  omega

/-- The length of a vector and the size of an element of it are within the bytes of the vector. -/
theorem length_vec_le {α : Type} {c : Codec α} {size : α → ℕ}
    (hsize : ∀ a w, c.consensusEncode a = .ok w → size a < w.bytes.length) {as : List α} {w : Written}
    (h : (vec c).consensusEncode as = .ok w) :
    as.length ≤ w.bytes.length ∧ ∀ a ∈ as, size a ≤ w.bytes.length := by
  obtain ⟨u, v, -, hv, rfl⟩ := Encoder.counted_eq_ok_iff.1 h
  rw [Written.bytes_append, List.length_append]
  constructor
  · have hlen := Encoder.length_le_of_list (fun a w ha => (Nat.zero_le _).trans_lt (hsize a w ha)) hv
    omega
  · intro a ha
    obtain ⟨x, hx, hle⟩ := Psbt.Format.length_le_of_mem hv ha
    have hlt := hsize a x hx
    omega

/-- A transaction whose inputs and outputs were written within the limit. -/
theorem Transaction.limited_of_encode {tx : Transaction} {i o : Written}
    (hi : (vec TxIn.codec).consensusEncode tx.input = .ok i) (hilen : i.bytes.length ≤ MAX_VEC_SIZE)
    (ho : (vec TxOut.codec).consensusEncode tx.output = .ok o) (holen : o.bytes.length ≤ MAX_VEC_SIZE)
    (hwitness : ∀ t ∈ tx.input, t.witness.repr.indicesStart ≤ MAX_VEC_SIZE) : tx.Limited := by
  obtain ⟨hinput, hscriptSig⟩ := length_vec_le (fun _ _ => TxIn.length_scriptSig_lt) hi
  obtain ⟨houtput, hscriptPubkey⟩ := length_vec_le (fun _ _ => TxOut.length_scriptPubkey_lt) ho
  exact {
    input := hinput.trans hilen
    scriptSig := fun t ht => (hscriptSig t ht).trans hilen
    witness := hwitness
    output := houtput.trans holen
    scriptPubkey := fun out hout => (hscriptPubkey out hout).trans holen }

namespace Psbt

open Raw

variable {S : KeyFormats}

theorem limited_transaction {tx : Transaction} {w : Bytes}
    (h : (Format.transaction : Format S Transaction).serialize tx = .ok w) (hlen : w.length ≤ MAX_VEC_SIZE) :
    tx.Limited := by
  obtain ⟨u, hu, rfl⟩ := Outcome.map_eq_ok_iff.1 h
  have hwitness := Format.indicesStart_le_of_length_le hu hlen
  cases hseg : tx.usesSegwitSerialization with
  | false =>
    obtain ⟨v, i, o, l, -, hi, ho, -, rfl⟩ := (Transaction.consensusEncode_legacy hseg).1 hu
    simp only [Written.bytes_append, List.length_append] at hlen
    exact Transaction.limited_of_encode hi (by omega) ho (by omega) hwitness
  | true =>
    obtain ⟨v, i, o, ws, l, -, hi, ho, -, -, rfl⟩ := (Transaction.consensusEncode_segwit hseg).1 hu
    simp only [Written.bytes_append, List.length_append] at hlen
    exact Transaction.limited_of_encode hi (by omega) ho (by omega) hwitness

theorem limited_unsignedTx {tx : Transaction} {w : Bytes}
    (h : (Format.unsignedTx : Format S Transaction).serialize tx = .ok w) (hlen : w.length ≤ MAX_VEC_SIZE)
    (hnew : ∀ t ∈ tx.input, t.witness = Witness.new) : tx.Limited := by
  obtain ⟨u, hu, rfl⟩ := Format.serialize_unsignedTx_eq_ok_iff.1 h
  obtain ⟨v, u₁, -, hu₁, rfl⟩ := Encoder.seq_eq_ok_iff.1 hu
  obtain ⟨i, u₂, hi, hu₂, rfl⟩ := Encoder.seq_eq_ok_iff.1 hu₁
  obtain ⟨o, l, ho, -, rfl⟩ := Encoder.seq_eq_ok_iff.1 hu₂
  simp only [Written.bytes_append, List.length_append] at hlen
  apply Transaction.limited_of_encode hi (by omega) ho (by omega)
  intro t ht
  rw [hnew t ht]
  exact Nat.zero_le _

/-! ## What was read -/

/-- The parts of an input map are within the limit. -/
structure Input.Limited (m : Input S) : Prop where
  nonWitnessUtxo : ∀ tx, m.nonWitnessUtxo = some tx → tx.Limited
  witnessUtxo : ∀ out, m.witnessUtxo = some out → out.scriptPubkey.length ≤ MAX_VEC_SIZE
  redeemScript : ∀ script, m.redeemScript = some script → script.length ≤ MAX_VEC_SIZE
  witnessScript : ∀ script, m.witnessScript = some script → script.length ≤ MAX_VEC_SIZE
  finalScriptSig : ∀ script, m.finalScriptSig = some script → script.length ≤ MAX_VEC_SIZE
  finalScriptWitness : ∀ w, m.finalScriptWitness = some w → w.repr.indicesStart ≤ MAX_VEC_SIZE

/-- The parts of a partially signed transaction are within the limit, and there is a map for every input. -/
structure Limited (p : Psbt S) : Prop where
  unsignedTx : p.unsignedTx.Limited
  length_inputs : p.inputs.length = p.unsignedTx.input.length
  inputs : ∀ m ∈ p.inputs, m.Limited

/-- The bytes of a field that is well-formed are within the limit. -/
theorem exists_of_fieldOk {α : Type} {f : Format S α} {t : UInt8} {P : α → Prop} {field : Option α}
    (h : FieldOk f t P field) {a : α} (ha : field = some a) :
    P a ∧ ∃ w, f.serialize a = .ok w ∧ w.length ≤ MAX_VEC_SIZE := by
  obtain ⟨hP, w, hw, -, hlen⟩ := h a ha
  have hvalue : w.length + 5 ≤ MAX_VEC_SIZE := hlen
  exact ⟨hP, w, hw, by omega⟩

theorem length_le_of_fieldOk {t : UInt8} {P : Bytes → Prop} {field : Option Bytes}
    (h : FieldOk (S := S) .bytes t P field) {bs : Bytes} (hbs : field = some bs) : bs.length ≤ MAX_VEC_SIZE := by
  obtain ⟨-, w, hw, hlen⟩ := exists_of_fieldOk h hbs
  cases hw
  exact hlen

theorem Input.WellFormed.limited {m : Input S} (h : m.WellFormed) : m.Limited where
  nonWitnessUtxo tx htx := by
    obtain ⟨-, w, hw, hlen⟩ := exists_of_fieldOk h.nonWitnessUtxo htx
    exact limited_transaction hw hlen
  witnessUtxo out hout := by
    obtain ⟨-, w, hw, hlen⟩ := exists_of_fieldOk h.witnessUtxo hout
    obtain ⟨u, hu, rfl⟩ := Outcome.map_eq_ok_iff.1 hw
    exact (TxOut.length_scriptPubkey_lt hu).le.trans hlen
  redeemScript _ := length_le_of_fieldOk h.redeemScript
  witnessScript _ := length_le_of_fieldOk h.witnessScript
  finalScriptSig _ := length_le_of_fieldOk h.finalScriptSig
  finalScriptWitness w hw := by
    obtain ⟨-, bs, hbs, hlen⟩ := exists_of_fieldOk h.finalScriptWitness hw
    obtain ⟨u, hu, rfl⟩ := Outcome.map_eq_ok_iff.1 hbs
    apply Witness.indicesStart_le_of_fits
    intro u' hu'
    rwa [← Outcome.ok.inj (hu.symm.trans hu')]

theorem WellFormed.limited {p : Psbt S} (h : p.WellFormed) : p.Limited where
  unsignedTx := by
    obtain ⟨hnew, w, hw, hlen⟩ := exists_of_fieldOk h.globalOk.wellFormed.tx rfl
    exact limited_unsignedTx hw hlen hnew
  length_inputs := h.length_inputs
  inputs m hm := (h.inputs m hm).limited

/-- What was read is within the limits. -/
theorem limited_of_deserialize (hS : S.Lawful) {bytes : Bytes} {p : Psbt S}
    (h : deserialize bytes = .ok p) : p.Limited := (wellFormed_of_deserialize hS h).limited

end Psbt

end RustDogecoin
