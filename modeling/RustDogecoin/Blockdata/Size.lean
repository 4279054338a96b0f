import RustDogecoin.Blockdata.Block
import RustDogecoin.Blockdata.Weight

/-!
# Sizes as lengths of encodings

`base_size`, `total_size` and `weight` of `blockdata/transaction.rs` and `blockdata/block.rs` add up
lengths of scripts and witnesses and sizes of their counts.  Each encoder is measured by such a sum
(`Measures`), by the rule for the layout that it writes, and the sizes of the source are these sums.
-/

namespace RustDogecoin

/-- A sum in `usize` is returned if it fits. -/
theorem require_usize_eq_ok_iff {ε : Type} {sum n : ℕ} :
    (do
      .require (sum < 2 ^ 64) .overflow
      return sum : Outcome ε ℕ) = .ok n ↔ n = sum ∧ n < 2 ^ 64 := by
  rw [Outcome.require_bind_eq_ok_iff]
  constructor
  · rintro ⟨hlt, e⟩
    cases e
    exact ⟨rfl, hlt⟩
  · rintro ⟨rfl, hlt⟩
    exact ⟨hlt, rfl⟩

/-! ## Inputs, outputs and witnesses -/

theorem OutPoint.measures : Measures OutPoint.codec.consensusEncode fun _ => 36 :=
  ((measures_u8Array 32).seq measures_u32).comp OutPoint.equiv

theorem TxIn.measures : Measures TxIn.codec.consensusEncode TxIn.baseSize := by
  have h := OutPoint.measures.seq (measures_vecU8.seq measures_u32)
  apply (h.comp TxIn.fields).congr
  intro t
  show 36 + (VarInt.sizeOfLen t.scriptSig.length + t.scriptSig.length + 4) = t.baseSize
  unfold TxIn.baseSize
  omega

theorem TxOut.measures : Measures TxOut.codec.consensusEncode TxOut.size := by
  have h := measures_u64.seq measures_vecU8
  apply (h.comp TxOut.equiv).congr
  intro o
  show 8 + (VarInt.sizeOfLen o.scriptPubkey.length + o.scriptPubkey.length) = o.size
  unfold TxOut.size
  omega

theorem LockTime.measures : Measures LockTime.codec.consensusEncode fun _ => 4 :=
  measures_u32.comp LockTime.equiv

namespace Witness

/-- The number of bytes that the encoder writes for a witness. -/
def encodedSize (w : Witness) : ℕ := VarInt.sizeOfLen w.repr.witnessElements + w.repr.indicesStart

theorem measures : Measures codec.consensusEncode encodedSize := by
  rintro ⟨r, elems, hp, rfl⟩ v e
  obtain ⟨u, hu, rfl⟩ := WitnessRepr.consensusEncode_pack.1 e
  rw [List.length_append, measures_len _ _ hu]
  rfl

/-- `Witness::size` adds up the elements that the iterator returns, so it is the size of what is
written as long as the iterator reaches all of them. -/
theorem size_eq {w : Witness} (h : w.repr.content.length < 2 ^ 63) :
    w.repr.size = .ok w.encodedSize := by
  obtain ⟨r, elems, hp, rfl⟩ := w
  have hholds : (pack elems).Holds elems := ⟨rfl, hp, h⟩
  exact hholds.size_eq

end Witness

theorem TxIn.totalSize_eq {t : TxIn} (h : t.witness.repr.content.length < 2 ^ 63) :
    t.totalSize = .ok (t.baseSize + t.witness.encodedSize) := by
  rw [TxIn.totalSize, Witness.size_eq h]
  rfl

/-! ## Transactions -/

namespace Transaction

variable {tx : Transaction} {w : Written}

/-- No vector of the transaction takes more than `isize::MAX` bytes, as no vector does. -/
structure Allocated (tx : Transaction) : Prop where
  input : tx.input.length < 2 ^ 63
  scriptSig : ∀ t ∈ tx.input, t.scriptSig.length < 2 ^ 63
  witness : ∀ t ∈ tx.input, t.witness.repr.content.length < 2 ^ 63
  output : tx.output.length < 2 ^ 63
  scriptPubkey : ∀ o ∈ tx.output, o.scriptPubkey.length < 2 ^ 63

theorem lt_of_lt_isize {n : ℕ} (h : n < 2 ^ 63) : n < 2 ^ 64 := h.trans (by decide)

theorem Allocated.sized (h : tx.Allocated) : tx.Sized where
  input_lt := lt_of_lt_isize h.input
  output_lt := lt_of_lt_isize h.output
  scriptSig_lt t ht := lt_of_lt_isize (h.scriptSig t ht)
  scriptPubkey_lt o ho := lt_of_lt_isize (h.scriptPubkey o ho)

/-- The serialization without marker, flag and witnesses, the one that `compute_txid` hashes. -/
def encodeStripped : Encoder Transaction := fun tx => do
  let version ← i32.consensusEncode tx.version
  let input ← (vec TxIn.codec).consensusEncode tx.input
  let output ← (vec TxOut.codec).consensusEncode tx.output
  let lockTime ← LockTime.codec.consensusEncode tx.lockTime
  return version ++ input ++ output ++ lockTime

theorem computeTxid_eq (tx : Transaction) :
    tx.computeTxid = (fun w => Sha256d.hash w.bytes) <$> encodeStripped tx := by
  simp only [computeTxid, encodeStripped, map_bind, Outcome.pure_eq_ok, Outcome.map_ok]

theorem encodeStripped_eq_ok_iff : encodeStripped tx = .ok w ↔
    ∃ v i o l, i32.consensusEncode tx.version = .ok v ∧
      (vec TxIn.codec).consensusEncode tx.input = .ok i ∧
      (vec TxOut.codec).consensusEncode tx.output = .ok o ∧
      LockTime.codec.consensusEncode tx.lockTime = .ok l ∧ w = v ++ i ++ o ++ l :=
  Written.bind_append_four_eq_ok_iff

theorem exists_encodeStripped (h : tx.Sized) : ∃ w, encodeStripped tx = .ok w := by
  obtain ⟨i, hi⟩ := exists_inputs h
  obtain ⟨o, ho⟩ := exists_outputs h
  exact ⟨_, encodeStripped_eq_ok_iff.2 ⟨_, i, o, _, rfl, hi, ho, rfl, rfl⟩⟩

/-- The layout of `base_size`. -/
theorem measures_encodeStripped : Measures encodeStripped baseSize := by
  intro tx w e
  obtain ⟨v, i, o, l, hv, hi, ho, hl, rfl⟩ := encodeStripped_eq_ok_iff.1 e
  simp only [Written.bytes_append, List.length_append]
  rw [measures_i32 _ _ hv, measures_vec TxIn.measures _ _ hi, measures_vec TxOut.measures _ _ ho,
    LockTime.measures _ _ hl, baseSize]
  dsimp only
  omega

/-- The number of bytes that the encoder writes for all witnesses. -/
def witnessSize (tx : Transaction) : ℕ := (tx.input.map fun t => t.witness.encodedSize).sum

/-- The number of bytes that the encoder writes: in the segwit layout, two for marker and flag and
those of the witnesses come in addition. -/
def encodedSize (tx : Transaction) : ℕ :=
  tx.baseSize + if tx.usesSegwitSerialization then 2 + tx.witnessSize else 0

theorem measures : Measures consensusEncode encodedSize := by
  intro tx w e
  cases hseg : tx.usesSegwitSerialization with
  | false =>
    have hstripped := encodeStripped_eq_ok_iff.2 ((consensusEncode_legacy hseg).1 e)
    rw [measures_encodeStripped _ _ hstripped, encodedSize, hseg]
    rfl
  | true =>
    obtain ⟨v, i, o, ws, l, hv, hi, ho, hws, hl, rfl⟩ := (consensusEncode_segwit hseg).1 e
    have hstripped := encodeStripped_eq_ok_iff.2 ⟨v, i, o, l, hv, hi, ho, hl, rfl⟩
    have hbase := measures_encodeStripped _ _ hstripped
    have hwitness : ws.bytes.length = tx.witnessSize := by
      apply (Witness.measures.list _ _ hws).trans
      simp only [List.map_map, Function.comp_def, witnessSize]
    simp only [Written.bytes_append, List.length_append, length_leBytes] at hbase ⊢
    rw [encodedSize, hseg, if_pos rfl, ← hbase, hwitness]
    omega

theorem totalSize_eq (h : ∀ t ∈ tx.input, t.witness.repr.content.length < 2 ^ 63) :
    tx.totalSize = .ok tx.encodedSize := by
  cases hseg : tx.usesSegwitSerialization with
  | false =>
    have hsizes : (tx.input.mapM fun input =>
        if tx.usesSegwitSerialization then input.totalSize else .ok input.baseSize) =
          .ok (tx.input.map TxIn.baseSize) := by
      apply Outcome.mapM_of_forall
      intro t ht
      rw [hseg]
      rfl
    rw [totalSize_of_mapM hsizes, encodedSize, baseSize, hseg]
    simp only [Bool.false_eq_true, if_false]
  | true =>
    have hsizes : (tx.input.mapM fun input =>
        if tx.usesSegwitSerialization then input.totalSize else .ok input.baseSize) =
          .ok (tx.input.map fun t => t.baseSize + t.witness.encodedSize) := by
      apply Outcome.mapM_of_forall
      intro t ht
      rw [hseg, if_pos rfl, TxIn.totalSize_eq (h t ht)]
    rw [totalSize_of_mapM hsizes, encodedSize, baseSize, List.sum_map_add, hseg, witnessSize]
    simp only [if_true, Outcome.ok.injEq]
    omega

theorem weight_eq_ok_iff (h : ∀ t ∈ tx.input, t.witness.repr.content.length < 2 ^ 63) {wu : ℕ} :
    tx.weight = .ok wu ↔ wu = 3 * tx.baseSize + tx.encodedSize ∧ wu < 2 ^ 64 := by
  rw [weight, totalSize_eq h, Outcome.ok_bind, Nat.mul_comm 3]
  exact require_usize_eq_ok_iff

end Transaction

/-! ## Blocks -/

namespace Blockdata

namespace Block

/-- `Header::SIZE` and the number of transactions in front of their base sizes. -/
def baseSize (b : Block) : ℕ :=
  80 + VarInt.sizeOfLen b.txdata.length + (b.txdata.map Transaction.baseSize).sum

def totalSize (b : Block) : Outcome Empty ℕ := do
  let txSizes ← b.txdata.mapM Transaction.totalSize
  return 80 + VarInt.sizeOfLen b.txdata.length + txSizes.sum

/-- `Block::weight`, with the overflow of its largest sum. -/
def weight (b : Block) : Outcome Empty ℕ := do
  let totalSize ← b.totalSize
  let wu := b.baseSize * 3 + totalSize
  .require (wu < 2 ^ 64) .overflow
  return wu

variable {b : Block}

/-- The vectors of a block, as those of its transactions. -/
structure Allocated (b : Block) : Prop where
  txdata : b.txdata.length < 2 ^ 63
  transaction : ∀ tx ∈ b.txdata, tx.Allocated

/-- The block as a node sees it that does not know of witnesses. -/
def encodeStripped : Encoder Block := fun b =>
  (Header.codec.consensusEncode.seq (encodeLen.counted Transaction.encodeStripped)) (equiv b)

theorem exists_encodeStripped (h : b.Allocated) : ∃ w, encodeStripped b = .ok w :=
  Encoder.exists_seq b.header.exists_encode
    (Encoder.exists_counted (exists_encodeLen (Transaction.lt_of_lt_isize h.txdata)) fun tx ht =>
      Transaction.exists_encodeStripped (h.transaction tx ht).sized)

theorem exists_encode (h : b.Allocated) : ∃ w, codec.consensusEncode b = .ok w :=
  Encoder.exists_seq b.header.exists_encode
    (exists_txdata (Transaction.lt_of_lt_isize h.txdata) fun tx ht => (h.transaction tx ht).sized)

theorem measures_header : Measures Header.codec.consensusEncode fun _ => 80 :=
  fun _ _ e => Header.length_encode e

theorem measures_encodeStripped : Measures encodeStripped baseSize := by
  have h := measures_header.seq (measures_len.counted Transaction.measures_encodeStripped)
  apply (h.comp equiv).congr
  intro b
  show 80 + (VarInt.sizeOfLen b.txdata.length + (b.txdata.map Transaction.baseSize).sum) = _
  rw [← Nat.add_assoc, baseSize]

/-- The number of bytes that the encoder writes. -/
def encodedSize (b : Block) : ℕ :=
  80 + VarInt.sizeOfLen b.txdata.length + (b.txdata.map Transaction.encodedSize).sum

theorem measures : Measures codec.consensusEncode encodedSize := by
  have h := measures_header.seq (measures_vec (c := Transaction.codec) Transaction.measures)
  apply (h.comp equiv).congr
  intro b
  show 80 + (VarInt.sizeOfLen b.txdata.length + (b.txdata.map Transaction.encodedSize).sum) = _
  rw [← Nat.add_assoc, encodedSize]

theorem totalSize_eq (h : ∀ tx ∈ b.txdata, tx.Allocated) : b.totalSize = .ok b.encodedSize := by
  have hsizes := Outcome.mapM_of_forall fun tx ht => Transaction.totalSize_eq (h tx ht).witness
  rw [totalSize, hsizes]
  rfl

theorem weight_eq_ok_iff (h : ∀ tx ∈ b.txdata, tx.Allocated) {wu : ℕ} :
    b.weight = .ok wu ↔ wu = 3 * b.baseSize + b.encodedSize ∧ wu < 2 ^ 64 := by
  rw [weight, totalSize_eq h, Outcome.ok_bind, Nat.mul_comm 3]
  exact require_usize_eq_ok_iff

end Block

end Blockdata

/-! ## The sizes of the source -/

/-- What `base_size`, `total_size` and `weight` of a value say about its two serializations. -/
structure SizesOfEncodings {α : Type} (enc stripped : Encoder α) (baseSize : ℕ)
    (totalSize weight : Outcome Empty ℕ) (a : α) : Prop where
  total : ∃ w, enc a = .ok w ∧ w.len = w.bytes.length ∧ totalSize = .ok w.bytes.length
  base : ∃ w, stripped a = .ok w ∧ baseSize = w.bytes.length
  weight : ∃ total, totalSize = .ok total ∧
    ∀ wu, weight = .ok wu ↔ wu = 3 * baseSize + total ∧ wu < 2 ^ 64

theorem Transaction.sizes {tx : Transaction} (h : tx.Allocated) :
    SizesOfEncodings consensusEncode encodeStripped tx.baseSize tx.totalSize tx.weight tx := by
  obtain ⟨w, hw⟩ := exists_encode h.sized
  obtain ⟨s, hs⟩ := exists_encodeStripped h.sized
  have htotal : tx.totalSize = .ok w.bytes.length := by
    rw [totalSize_eq h.witness, measures _ _ hw]
  refine ⟨⟨w, hw, counts _ _ hw, htotal⟩, ⟨s, hs, (measures_encodeStripped _ _ hs).symm⟩, ?_⟩
  exact ⟨_, totalSize_eq h.witness, fun wu => weight_eq_ok_iff h.witness⟩

theorem Blockdata.Block.sizes {b : Block} (h : b.Allocated) :
    SizesOfEncodings codec.consensusEncode encodeStripped b.baseSize b.totalSize b.weight b := by
  obtain ⟨w, hw⟩ := exists_encode h
  obtain ⟨s, hs⟩ := exists_encodeStripped h
  have htotal : b.totalSize = .ok w.bytes.length := by
    rw [totalSize_eq h.transaction, measures _ _ hw]
  refine ⟨⟨w, hw, lawful.finite.counts _ _ hw, htotal⟩, ⟨s, hs, (measures_encodeStripped _ _ hs).symm⟩, ?_⟩
  exact ⟨_, totalSize_eq h.transaction, fun wu => weight_eq_ok_iff h.transaction⟩

/-- Sizes and weights of transactions and blocks are those of what the encoders write, and the base
size of a block adds up those of its transactions. -/
theorem Blockdata.sizes_eq_lengths :
    (∀ tx : Transaction, tx.Allocated → SizesOfEncodings Transaction.consensusEncode
      Transaction.encodeStripped tx.baseSize tx.totalSize tx.weight tx) ∧
    ∀ b : Block, b.Allocated →
      SizesOfEncodings Block.codec.consensusEncode Block.encodeStripped b.baseSize b.totalSize b.weight b ∧
      b.baseSize = 80 + VarInt.sizeOfLen b.txdata.length + (b.txdata.map Transaction.baseSize).sum :=
  ⟨fun _ h => Transaction.sizes h, fun _ h => ⟨Block.sizes h, rfl⟩⟩

/-- Two inputs, the second with a witness of one element. -/
def Transaction.mixed : Transaction where
  version := 2
  lockTime := .fromConsensus 0
  input := [⟨⟨.replicate 32 1, 0⟩, [0x51], 0, Witness.new⟩,
    ⟨⟨.replicate 32 2, 1⟩, [], 0, ⟨pack [[7]], [[7]], ⟨by decide, by decide⟩, rfl⟩⟩]
  output := [⟨100, [0x6A]⟩]

theorem Transaction.allocated_mixed : mixed.Allocated :=
  ⟨by decide, by decide, by decide, by decide, by decide⟩

theorem Blockdata.sizes_eq_lengths_mixed :
    SizesOfEncodings Transaction.consensusEncode Transaction.encodeStripped Transaction.mixed.baseSize
      Transaction.mixed.totalSize Transaction.mixed.weight .mixed ∧
    ∃ b : Block, b.txdata = [.mixed] ∧ SizesOfEncodings Block.codec.consensusEncode Block.encodeStripped
      b.baseSize b.totalSize b.weight b ∧
      b.baseSize = 80 + VarInt.sizeOfLen b.txdata.length + (b.txdata.map Transaction.baseSize).sum := by
  refine ⟨sizes_eq_lengths.1 _ Transaction.allocated_mixed,
    ⟨⟨1, .replicate 32 0, .replicate 32 0, 0, 0, 0⟩, [.mixed]⟩, rfl, sizes_eq_lengths.2 _ ⟨by decide, ?_⟩⟩
  intro tx htx
  rw [List.mem_singleton.1 htx]
  exact Transaction.allocated_mixed

end RustDogecoin
