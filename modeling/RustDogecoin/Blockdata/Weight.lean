import Mathlib.Algebra.Order.BigOperators.Group.List
import RustDogecoin.Blockdata.Transaction
import RustDogecoin.Blockdata.WitnessOps
import RustDogecoin.Lib.Entries

/-!
# Sizes and weights of transactions

`base_size`, `total_size` and `weight` of `blockdata/transaction.rs`.  The sums are taken in `usize`, so that
they can overflow; they do not for a transaction whose parts are within `MAX_VEC_SIZE` (`exists_weight`), and
a weight is never zero.
-/

namespace RustDogecoin

/-- `VarInt::from(len).size()`. -/
def VarInt.sizeOfLen (len : ℕ) : ℕ := (VarInt.mk (UInt64.ofNat len)).size

theorem VarInt.sizeOfLen_eq {n : ℕ} (h : n < 2 ^ 64) : sizeOfLen n =
    if n ≤ 0xFC then 1 else if n ≤ 0xFFFF then 3 else if n ≤ 0xFFFFFFFF then 5 else 9 := by
  have hval : (UInt64.ofNat n).toNat = n := UInt64.toNat_ofNat_of_lt' h
  rw [sizeOfLen, size]
  simp only [hval]

/-! ## What the encoders write -/

theorem measures_len : Measures encodeLen VarInt.sizeOfLen := fun _ _ e => length_encodeLen e

theorem measures_implIntEncodable {α : Type} (n : ℕ) (toNat : α → ℕ) (ofNat : ℕ → α) :
    Measures (implIntEncodable n toNat ofNat).consensusEncode fun _ => n := by
  intro a w e
  obtain rfl := Outcome.ok.inj e
  exact length_leBytes n (toNat a)

theorem measures_u8 : Measures u8.consensusEncode fun _ => 1 := measures_implIntEncodable 1 _ _

theorem measures_u32 : Measures u32.consensusEncode fun _ => 4 := measures_implIntEncodable 4 _ _

theorem measures_u64 : Measures u64.consensusEncode fun _ => 8 := measures_implIntEncodable 8 _ _

theorem measures_i32 : Measures i32.consensusEncode fun _ => 4 :=
  measures_implIntEncodable 4 (fun a : Int32 => a.toUInt32.toNat) _

theorem measures_u8Array (n : ℕ) : Measures (u8Array n).consensusEncode fun _ => n := by
  intro a w e
  obtain rfl := Outcome.ok.inj e
  exact a.length_eq

theorem measures_vecU8 : Measures vecU8.consensusEncode fun data =>
    VarInt.sizeOfLen data.length + data.length := by
  intro data w e
  obtain ⟨u, hu, rfl⟩ := consensusEncodeWithSize_eq_ok_iff.1 e
  rw [Written.bytes_append, List.length_append, measures_len _ _ hu]
  rfl

theorem measures_vec {α : Type} {c : Codec α} {size : α → ℕ} (h : Measures c.consensusEncode size) :
    Measures (vec c).consensusEncode fun as => VarInt.sizeOfLen as.length + (as.map size).sum :=
  measures_len.counted h

namespace TxIn

/-- `OutPoint::SIZE` and `Sequence::SIZE` around the script. -/
def baseSize (t : TxIn) : ℕ := 36 + VarInt.sizeOfLen t.scriptSig.length + t.scriptSig.length + 4

def totalSize (t : TxIn) : Outcome Empty ℕ := do
  let witnessSize ← t.witness.repr.size
  return t.baseSize + witnessSize

end TxIn

/-- `size_from_script_pubkey`, with `Amount::SIZE` in front. -/
def TxOut.size (o : TxOut) : ℕ := 8 + VarInt.sizeOfLen o.scriptPubkey.length + o.scriptPubkey.length

namespace Transaction

def baseSize (tx : Transaction) : ℕ :=
  4 + VarInt.sizeOfLen tx.input.length + (tx.input.map TxIn.baseSize).sum +
    VarInt.sizeOfLen tx.output.length + (tx.output.map TxOut.size).sum + 4

def totalSize (tx : Transaction) : Outcome Empty ℕ := do
  let usesSegwit := tx.usesSegwitSerialization
  let inputSizes ← tx.input.mapM fun input => if usesSegwit then input.totalSize else .ok input.baseSize
  return (4 + if usesSegwit then 2 else 0) + VarInt.sizeOfLen tx.input.length + inputSizes.sum +
    VarInt.sizeOfLen tx.output.length + (tx.output.map TxOut.size).sum + 4

/-- `Transaction::weight`; all terms are added in `usize`, so the largest sum decides about an overflow. -/
def weight (tx : Transaction) : Outcome Empty ℕ := do
  let totalSize ← tx.totalSize
  let wu := tx.baseSize * 3 + totalSize
  .require (wu < 2 ^ 64) .overflow
  return wu

end Transaction

/-! ## Bounds -/

theorem Witness.exists_size {w : Witness} (h : w.repr.indicesStart ≤ MAX_VEC_SIZE) :
    ∃ n, w.repr.size = .ok n ∧ n ≤ MAX_VEC_SIZE + 9 := by
  obtain ⟨r, elems, hp, rfl⟩ := w
  have hlen : (elems.flatMap elementBytes).length ≤ MAX_VEC_SIZE := h
  have hcount := length_le_flatMap elems
  have hmax : MAX_VEC_SIZE = 4000000 := rfl
  have hholds : (pack elems).Holds elems := by
    refine ⟨rfl, hp, ?_⟩
    rw [WitnessRepr.length_content_pack]
    omega
  refine ⟨_, hholds.size_eq, ?_⟩
  have hsize := (VarInt.mk (UInt64.ofNat elems.length)).size_le
  omega

theorem TxIn.baseSize_le {t : TxIn} (h : t.scriptSig.length ≤ MAX_VEC_SIZE) :
    t.baseSize ≤ MAX_VEC_SIZE + 49 := by
  have hsize := (VarInt.mk (UInt64.ofNat t.scriptSig.length)).size_le
  unfold TxIn.baseSize VarInt.sizeOfLen
  omega

theorem TxOut.size_le {o : TxOut} (h : o.scriptPubkey.length ≤ MAX_VEC_SIZE) : o.size ≤ MAX_VEC_SIZE + 17 := by
  have hsize := (VarInt.mk (UInt64.ofNat o.scriptPubkey.length)).size_le
  unfold TxOut.size VarInt.sizeOfLen
  omega

namespace Transaction

/-- Every part of the transaction is within `MAX_VEC_SIZE`. -/
structure Limited (tx : Transaction) : Prop where
  input : tx.input.length ≤ MAX_VEC_SIZE
  scriptSig : ∀ t ∈ tx.input, t.scriptSig.length ≤ MAX_VEC_SIZE
  witness : ∀ t ∈ tx.input, t.witness.repr.indicesStart ≤ MAX_VEC_SIZE
  output : tx.output.length ≤ MAX_VEC_SIZE
  scriptPubkey : ∀ o ∈ tx.output, o.scriptPubkey.length ≤ MAX_VEC_SIZE

variable {tx : Transaction}

theorem lt_of_le_maxVecSize {n : ℕ} (h : n ≤ MAX_VEC_SIZE) : n < 2 ^ 64 := h.trans_lt (by decide)

theorem Limited.sized (h : tx.Limited) : tx.Sized where
  input_lt := lt_of_le_maxVecSize h.input
  output_lt := lt_of_le_maxVecSize h.output
  scriptSig_lt t ht := lt_of_le_maxVecSize (h.scriptSig t ht)
  scriptPubkey_lt o ho := lt_of_le_maxVecSize (h.scriptPubkey o ho)

theorem Limited.exists_inputSize (h : tx.Limited) (usesSegwit : Bool) : ∀ t ∈ tx.input, ∃ n,
    (if usesSegwit then t.totalSize else .ok t.baseSize) = .ok n ∧ n ≤ 2 * MAX_VEC_SIZE + 58 := by
  intro t ht
  have hbase := TxIn.baseSize_le (h.scriptSig t ht)
  cases usesSegwit with
  | false => exact ⟨_, rfl, by omega⟩
  | true =>
    obtain ⟨n, hn, hle⟩ := Witness.exists_size (h.witness t ht)
    refine ⟨t.baseSize + n, ?_, by omega⟩
    rw [if_pos rfl, TxIn.totalSize, hn]
    rfl

/-- The terms of a sum over at most `MAX_VEC_SIZE` parts are bounded, so the sum is. -/
theorem sum_le_of_length_le {sizes : List ℕ} {n bound : ℕ} (hlen : sizes.length ≤ n)
    (h : ∀ size ∈ sizes, size ≤ bound) : sizes.sum ≤ n * bound := by
  have hsum : sizes.sum ≤ sizes.length * bound := List.sum_le_card_nsmul sizes bound h
  exact hsum.trans (Nat.mul_le_mul_right _ hlen)

theorem Limited.exists_inputSizes (h : tx.Limited) (usesSegwit : Bool) : ∃ sizes,
    (tx.input.mapM fun input => if usesSegwit then input.totalSize else .ok input.baseSize) = .ok sizes ∧
      sizes.sum ≤ MAX_VEC_SIZE * (2 * MAX_VEC_SIZE + 58) := by
  have hall := h.exists_inputSize usesSegwit
  choose! size hsize hle using hall
  refine ⟨tx.input.map size, Outcome.mapM_of_forall hsize, ?_⟩
  apply sum_le_of_length_le ((List.length_map _).trans_le h.input)
  intro n hn
  obtain ⟨t, ht, rfl⟩ := List.mem_map.1 hn
  exact hle t ht

theorem Limited.baseSize_le (h : tx.Limited) :
    tx.baseSize ≤ 26 + MAX_VEC_SIZE * (MAX_VEC_SIZE + 49) + MAX_VEC_SIZE * (MAX_VEC_SIZE + 17) := by
  have hinput : (tx.input.map TxIn.baseSize).sum ≤ MAX_VEC_SIZE * (MAX_VEC_SIZE + 49) := by
    apply sum_le_of_length_le ((List.length_map _).trans_le h.input)
    intro n hn
    obtain ⟨t, ht, rfl⟩ := List.mem_map.1 hn
    exact TxIn.baseSize_le (h.scriptSig t ht)
  have houtput : (tx.output.map TxOut.size).sum ≤ MAX_VEC_SIZE * (MAX_VEC_SIZE + 17) := by
    apply sum_le_of_length_le ((List.length_map _).trans_le h.output)
    intro n hn
    obtain ⟨o, ho, rfl⟩ := List.mem_map.1 hn
    exact TxOut.size_le (h.scriptPubkey o ho)
  have hnin := (VarInt.mk (UInt64.ofNat tx.input.length)).size_le
  have hnout := (VarInt.mk (UInt64.ofNat tx.output.length)).size_le
  unfold Transaction.baseSize VarInt.sizeOfLen
  omega

theorem totalSize_of_mapM {sizes : List ℕ} (h : (tx.input.mapM fun input =>
    if tx.usesSegwitSerialization then input.totalSize else .ok input.baseSize) = .ok sizes) :
    tx.totalSize = .ok ((4 + if tx.usesSegwitSerialization then 2 else 0) + VarInt.sizeOfLen tx.input.length +
      sizes.sum + VarInt.sizeOfLen tx.output.length + (tx.output.map TxOut.size).sum + 4) := by
  rw [totalSize, h]
  rfl

theorem baseSize_pos (tx : Transaction) : 0 < tx.baseSize := by
  unfold Transaction.baseSize
  omega

/-- The weight of a transaction within the limits does not overflow. -/
theorem Limited.exists_weight (h : tx.Limited) : ∃ wu, tx.weight = .ok wu := by
  obtain ⟨sizes, hsizes, hsum⟩ := h.exists_inputSizes tx.usesSegwitSerialization
  have hbase := h.baseSize_le
  have houtput : (tx.output.map TxOut.size).sum ≤ tx.baseSize := by
    unfold Transaction.baseSize
    omega
  have hnin := (VarInt.mk (UInt64.ofNat tx.input.length)).size_le
  have hnout := (VarInt.mk (UInt64.ofNat tx.output.length)).size_le
  have hmarker : (if tx.usesSegwitSerialization then 2 else 0) ≤ 2 := by
    split_ifs <;> decide
  refine ⟨_, Outcome.bind_eq_ok_iff.2 ⟨_, totalSize_of_mapM hsizes, Outcome.require_bind_eq_ok_iff.2 ⟨?_, rfl⟩⟩⟩
  unfold VarInt.sizeOfLen
  rw [MAX_VEC_SIZE] at hbase hsum
  omega

theorem weight_pos {wu : ℕ} (h : tx.weight = .ok wu) : 0 < wu := by
  obtain ⟨total, -, h⟩ := Outcome.bind_eq_ok_iff.1 h
  obtain ⟨-, h⟩ := Outcome.require_bind_eq_ok_iff.1 h
  cases h
  have hpos := tx.baseSize_pos
  omega

end Transaction

end RustDogecoin
