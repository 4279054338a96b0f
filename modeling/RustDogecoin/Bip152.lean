import RustDogecoin.Blockdata.Block

/-!
# Compact blocks

The structures of `bip152.rs`.  The indexes of a `BlockTransactionsRequest` are written as the
differences between one and the next, so an encoding has increasing indexes.
-/

namespace RustDogecoin

/-! ## Prefilled transactions -/

/-- A structure that is used for prefilled transactions in a compact block. -/
structure PrefilledTransaction where
  idx : UInt16
  tx : Transaction
  deriving DecidableEq

namespace PrefilledTransaction

def decodeIdx : Read UInt16 :=
  (fun idx => UInt16.ofNat idx.val.toNat) <$> VarInt.consensusDecode.guard (·.val.toNat < 2 ^ 16)
    fun _ => .parseFailed "BIP152 prefilled tx index out of bounds"

def encodeIdx : Encoder UInt16 := fun idx => VarInt.consensusEncode ⟨idx.toUInt64⟩

def equiv : PrefilledTransaction ≃ UInt16 × Transaction where
  toFun t := (t.idx, t.tx)
  invFun p := ⟨p.1, p.2⟩
  left_inv _ := rfl
  right_inv _ := rfl

def codec : Codec PrefilledTransaction :=
  .ofDecode (fun t => (encodeIdx.seq Transaction.codec.consensusEncode) (equiv t))
    (equiv.symm <$> decodeIdx.seq Transaction.codec.consensusDecode)

theorem lawful_idx : Lawful encodeIdx decodeIdx fun _ => True := by
  have h := (VarInt.lawful.finite.guard (·.val.toNat < 2 ^ 16)
    fun _ => EncodeError.parseFailed "BIP152 prefilled tx index out of bounds").retract
    (fun idx : UInt16 => ⟨idx.toUInt64⟩) (fun v => UInt16.ofNat v.val.toNat) ?_
  · apply h.congr
    intro idx
    simp only [UInt16.toNat_toUInt64, UInt16.ofNat_toNat, true_and, and_true, iff_true]
    exact idx.toNat_lt
  · rintro ⟨v⟩ ⟨-, hv⟩
    refine congrArg VarInt.mk (UInt64.toNat_inj.1 ?_)
    rw [UInt16.toNat_toUInt64, UInt16.toNat_ofNat_of_lt' hv]

/-- The transaction is decoded by `consensus_decode`, which looks at `MAX_VEC_SIZE` bytes. -/
theorem lawful : codec.IsLawful fun t =>
    (∀ i ∈ t.tx.input, i.witness.repr.indicesStart ≤ MAX_VEC_SIZE) ∧
      Fits Transaction.codec.consensusEncode MAX_VEC_SIZE t.tx :=
  .ofDecode (((lawful_idx.seq (Transaction.lawful.decode Transaction.bounded)).xmap equiv).congr
    fun t => by simp [equiv])

end PrefilledTransaction

/-! ## Compact blocks -/

abbrev ShortId := U8Array 6

/-- A structure to relay a block header, short IDs, and a select few transactions. -/
structure HeaderAndShortIds where
  header : PureHeader
  nonce : UInt64
  shortIds : List ShortId
  prefilledTxs : List PrefilledTransaction
  deriving DecidableEq

def HeaderAndShortIds.equiv :
    HeaderAndShortIds ≃ PureHeader × UInt64 × List ShortId × List PrefilledTransaction where
  toFun b := (b.header, b.nonce, b.shortIds, b.prefilledTxs)
  invFun p := ⟨p.1, p.2.1, p.2.2.1, p.2.2.2⟩
  left_inv _ := rfl
  right_inv _ := rfl

def HeaderAndShortIds.codec : Codec HeaderAndShortIds :=
  implConsensusEncoding HeaderAndShortIds.equiv
    (Blockdata.Header.codec.seq (u64.seq ((vec (u8Array 6)).seq (vec PrefilledTransaction.codec))))

theorem HeaderAndShortIds.lawful : HeaderAndShortIds.codec.IsLawful fun b =>
    ∀ t ∈ b.prefilledTxs, (∀ i ∈ t.tx.input, i.witness.repr.indicesStart ≤ MAX_VEC_SIZE) ∧
      Fits Transaction.codec.consensusEncode MAX_VEC_SIZE t.tx :=
  ((Blockdata.Header.lawful.seq (lawful_u64.seq ((lawful_vec (lawful_u8Array 6)).seq
    (lawful_vec PrefilledTransaction.lawful)))).implConsensusEncoding HeaderAndShortIds.equiv).congr
      fun _ => by simp [HeaderAndShortIds.equiv]

/-- A structure to provide some of the transactions in a block, as requested. -/
structure BlockTransactions where
  blockHash : BlockHash
  transactions : List Transaction
  deriving DecidableEq

def BlockTransactions.equiv : BlockTransactions ≃ BlockHash × List Transaction where
  toFun b := (b.blockHash, b.transactions)
  invFun p := ⟨p.1, p.2⟩
  left_inv _ := rfl
  right_inv _ := rfl

def BlockTransactions.codec : Codec BlockTransactions :=
  implConsensusEncoding BlockTransactions.equiv ((u8Array 32).seq (vec Transaction.codec))

theorem BlockTransactions.lawful : BlockTransactions.codec.IsLawful fun b =>
    ∀ tx ∈ b.transactions, ∀ i ∈ tx.input, i.witness.repr.indicesStart ≤ MAX_VEC_SIZE :=
  (((lawful_u8Array 32).seq Blockdata.lawful_txdata).implConsensusEncoding
    BlockTransactions.equiv).congr fun _ => by simp [BlockTransactions.equiv]

/-! ## Requests -/

/-- A structure to list transaction indexes in a block being requested. -/
structure BlockTransactionsRequest where
  blockHash : BlockHash
  indexes : List UInt64
  deriving DecidableEq

namespace BlockTransactionsRequest

/-- `mem::size_of::<Transaction>()` on a 64-bit machine: two vectors of 24 bytes, a lock time of 8 and
a version of 4, rounded up. -/
def SIZE_OF_TRANSACTION : ℕ := 64

/-- The loop over the indexes; both the difference and the next index are `u64`. -/
def encodeIndexes : ℕ → List UInt64 → Outcome Empty Written
  | _, [] => .ok .empty
  | lastIdx, idx :: indexes => do
    .require (lastIdx ≤ idx.toNat) .overflow
    let len ← VarInt.consensusEncode ⟨UInt64.ofNat (idx.toNat - lastIdx)⟩
    .require (idx.toNat + 1 < 2 ^ 64) .overflow
    let len' ← encodeIndexes (idx.toNat + 1) indexes
    return len ++ len'

def encodeCounted : Encoder (List UInt64) := fun indexes => do
  let len ← encodeLen indexes.length
  let len' ← encodeIndexes 0 indexes
  return len ++ len'

def decodeIndexes : ℕ → ℕ → Read (List UInt64)
  | 0, _ => return []
  | n + 1, lastIndex => do
    let differential ← VarInt.consensusDecode
    let idx := lastIndex + differential.val.toNat
    Decoder.ensure (idx < 2 ^ 64) (.parseFailed "block index overflow")
    Decoder.ensure (idx + 1 < 2 ^ 64) (.parseFailed "block index overflow")
    let indexes ← decodeIndexes n (idx + 1)
    return UInt64.ofNat idx :: indexes

def decodeCounted : Read (List UInt64) := do
  let nbIndexes ← decodeLen
  let byteSize := nbIndexes * SIZE_OF_TRANSACTION
  Decoder.ensure (byteSize < 2 ^ 64) (.parseFailed "Invalid length")
  Decoder.ensure (byteSize ≤ MAX_VEC_SIZE) (.oversizedVectorAllocation byteSize MAX_VEC_SIZE)
  decodeIndexes nbIndexes 0

def equiv : BlockTransactionsRequest ≃ BlockHash × List UInt64 where
  toFun r := (r.blockHash, r.indexes)
  invFun p := ⟨p.1, p.2⟩
  left_inv _ := rfl
  right_inv _ := rfl

def codec : Codec BlockTransactionsRequest :=
  .ofDecode (fun r => ((u8Array 32).consensusEncode.seq encodeCounted) (equiv r))
    (equiv.symm <$> (u8Array 32).consensusDecode.seq decodeCounted)

theorem encodeIndexes_cons_eq_ok_iff {lastIdx : ℕ} {idx : UInt64} {indexes : List UInt64}
    {w : Written} : encodeIndexes lastIdx (idx :: indexes) = .ok w ↔
      lastIdx ≤ idx.toNat ∧ idx.toNat + 1 < 2 ^ 64 ∧ ∃ v, encodeIndexes (idx.toNat + 1) indexes = .ok v ∧
        w = VarInt.written ⟨UInt64.ofNat (idx.toNat - lastIdx)⟩ ++ v := by
  rw [encodeIndexes]
  constructor
  · intro h
    obtain ⟨u, hu, h₁⟩ := Outcome.bind_eq_ok_iff.1 h
    obtain ⟨l, hl, h₂⟩ := Outcome.bind_eq_ok_iff.1 h₁
    obtain ⟨u', hu', h₃⟩ := Outcome.bind_eq_ok_iff.1 h₂
    obtain ⟨v, hv, h₄⟩ := Outcome.bind_eq_ok_iff.1 h₃
    obtain rfl := Outcome.ok.inj hl
    exact ⟨Outcome.require_eq_ok_iff.1 hu, Outcome.require_eq_ok_iff.1 hu', v, hv,
      (Outcome.ok.inj h₄).symm⟩
  · rintro ⟨hle, hlt, v, hv, rfl⟩
    rw [Outcome.require_of hle, Outcome.require_of hlt, hv]
    rfl

theorem counts_indexes {lastIdx : ℕ} {indexes : List UInt64} {w : Written}
    (h : encodeIndexes lastIdx indexes = .ok w) : w.len = w.bytes.length := by
  induction indexes generalizing lastIdx w with
  | nil =>
    obtain rfl := Outcome.ok.inj h
    rfl
  | cons idx indexes ih =>
    obtain ⟨-, -, v, hv, rfl⟩ := encodeIndexes_cons_eq_ok_iff.1 h
    simp [ih hv, VarInt.len_written, VarInt.length_written]

/-- Adding up the differences gives the indexes back. -/
theorem run_decodeIndexes {lastIdx : ℕ} {indexes : List UInt64} {w : Written}
    (h : encodeIndexes lastIdx indexes = .ok w) (rest : Bytes) :
    (decodeIndexes indexes.length lastIdx).run (w.bytes ++ rest) = .ok (indexes, rest) := by
  induction indexes generalizing lastIdx w with
  | nil =>
    obtain rfl := Outcome.ok.inj h
    rfl
  | cons idx indexes ih =>
    obtain ⟨hle, hlt, v, hv, rfl⟩ := encodeIndexes_cons_eq_ok_iff.1 h
    have hdiff : (UInt64.ofNat (idx.toNat - lastIdx)).toNat = idx.toNat - lastIdx :=
      UInt64.toNat_ofNat_of_lt' (Nat.lt_of_le_of_lt (Nat.sub_le _ _) idx.toNat_lt)
    have hidx : lastIdx + (UInt64.ofNat (idx.toNat - lastIdx)).toNat = idx.toNat := by
      rw [hdiff, Nat.add_sub_cancel' hle]
    rw [Written.bytes_append, List.append_assoc, List.length_cons, decodeIndexes,
      Decoder.run_bind_of_ok (VarInt.roundTrips _ _ trivial rfl _)]
    dsimp only
    rw [hidx, Decoder.run_ensure_bind_of idx.toNat_lt, Decoder.run_ensure_bind_of hlt,
      Decoder.run_bind_of_ok (ih hv), UInt64.ofNat_toNat]
    rfl

/-- The indexes that are read are written as they were. -/
theorem of_decodeIndexes {n lastIdx : ℕ} {indexes : List UInt64} {bs rest : Bytes}
    (h : (decodeIndexes n lastIdx).run bs = .ok (indexes, rest)) :
    indexes.length = n ∧ ∃ w, encodeIndexes lastIdx indexes = .ok w ∧ bs = w.bytes ++ rest := by
  induction n generalizing lastIdx indexes bs with
  | zero =>
    cases h
    exact ⟨rfl, _, rfl, rfl⟩
  | succ n ih =>
    rw [decodeIndexes] at h
    obtain ⟨d, mid₁, hd, h₁⟩ := Decoder.run_bind_eq_ok_iff.1 h
    obtain ⟨hlt, h₂⟩ := Decoder.run_ensure_bind_eq_ok_iff.1 h₁
    obtain ⟨hlt', h₃⟩ := Decoder.run_ensure_bind_eq_ok_iff.1 h₂
    obtain ⟨js, mid₂, hjs, hpure⟩ := Decoder.run_bind_eq_ok_iff.1 h₃
    cases hpure
    obtain rfl := VarInt.canonical.eq_append rfl hd
    have hidx : (UInt64.ofNat (lastIdx + d.val.toNat)).toNat = lastIdx + d.val.toNat :=
      UInt64.toNat_ofNat_of_lt' hlt
    obtain ⟨rfl, v, hv, rfl⟩ := ih hjs
    refine ⟨rfl, VarInt.written d ++ v, encodeIndexes_cons_eq_ok_iff.2 ?_, by simp⟩
    rw [hidx, Nat.add_sub_cancel_left, UInt64.ofNat_toNat]
    exact ⟨Nat.le_add_right _ _, hlt', v, hv, rfl⟩

theorem encodeCounted_eq_ok_iff {indexes : List UInt64} {w : Written} :
    encodeCounted indexes = .ok w ↔ ∃ u v, encodeLen indexes.length = .ok u ∧
      encodeIndexes 0 indexes = .ok v ∧ w = u ++ v := by
  unfold encodeCounted
  exact Written.bind_append_eq_ok_iff

theorem lawful_indexes : Lawful encodeCounted decodeCounted fun indexes =>
    indexes.length * SIZE_OF_TRANSACTION ≤ MAX_VEC_SIZE := by
  refine ⟨?_, ?_, ?_⟩
  · intro indexes w e
    obtain ⟨u, v, hu, hv, rfl⟩ := encodeCounted_eq_ok_iff.1 e
    simp [lawful_len.counts _ _ hu, counts_indexes hv]
  · intro indexes w hle e rest
    obtain ⟨u, v, hu, hv, rfl⟩ := encodeCounted_eq_ok_iff.1 e
    have hlt : indexes.length * SIZE_OF_TRANSACTION < 2 ^ 64 := Nat.lt_of_le_of_lt hle (by decide)
    rw [Written.bytes_append, List.append_assoc, decodeCounted,
      Decoder.run_bind_of_ok (lawful_len.roundTrips _ u trivial hu _)]
    dsimp only
    rw [Decoder.run_ensure_bind_of hlt, Decoder.run_ensure_bind_of hle]
    exact run_decodeIndexes hv rest
  · intro bs indexes rest h
    rw [decodeCounted] at h
    obtain ⟨n, mid₁, hn, h₁⟩ := Decoder.run_bind_eq_ok_iff.1 h
    obtain ⟨-, h₂⟩ := Decoder.run_ensure_bind_eq_ok_iff.1 h₁
    obtain ⟨hle, h₃⟩ := Decoder.run_ensure_bind_eq_ok_iff.1 h₂
    obtain ⟨-, l, hl, rfl⟩ := lawful_len.canonical _ _ _ hn
    obtain ⟨rfl, v, hv, rfl⟩ := of_decodeIndexes h₃
    exact ⟨hle, _, encodeCounted_eq_ok_iff.2 ⟨l, v, hl, hv, rfl⟩, by simp⟩

theorem lawful : codec.IsLawful fun r => r.indexes.length * SIZE_OF_TRANSACTION ≤ MAX_VEC_SIZE :=
  .ofDecode ((((lawful_u8Array 32).finite.seq lawful_indexes).xmap equiv).congr
    fun r => by simp [equiv])

/-! ## Increasing indexes -/

/-- The lists of indexes that can be written: strictly increasing, and with an index after the last one. -/
theorem exists_encodeIndexes_iff {lastIdx : ℕ} {indexes : List UInt64} :
    (∃ w, encodeIndexes lastIdx indexes = .ok w) ↔ indexes.Pairwise (· < ·) ∧
      ∀ idx ∈ indexes, lastIdx ≤ idx.toNat ∧ idx.toNat + 1 < 2 ^ 64 := by
  induction indexes generalizing lastIdx with
  | nil => exact iff_of_true ⟨_, rfl⟩ ⟨.nil, nofun⟩
  | cons idx indexes ih =>
    rw [List.pairwise_cons]
    constructor
    · rintro ⟨w, hw⟩
      obtain ⟨hle, hlt, v, hv, -⟩ := encodeIndexes_cons_eq_ok_iff.1 hw
      obtain ⟨hincreasing, hbounds⟩ := ih.1 ⟨v, hv⟩
      refine ⟨⟨fun next hnext => ?_, hincreasing⟩, List.forall_mem_cons.2 ⟨⟨hle, hlt⟩, ?_⟩⟩
      · exact UInt64.lt_iff_toNat_lt.2 (hbounds next hnext).1
      · intro next hnext
        obtain ⟨hafter, hmax⟩ := hbounds next hnext
        exact ⟨by omega, hmax⟩
    · rintro ⟨⟨hfirst, hincreasing⟩, hbounds⟩
      obtain ⟨⟨hle, hlt⟩, hbounds⟩ := List.forall_mem_cons.1 hbounds
      obtain ⟨v, hv⟩ := @ih (idx.toNat + 1) |>.2 ⟨hincreasing, fun next hnext =>
        ⟨UInt64.lt_iff_toNat_lt.1 (hfirst next hnext), (hbounds next hnext).2⟩⟩
      exact ⟨_, encodeIndexes_cons_eq_ok_iff.2 ⟨hle, hlt, v, hv, rfl⟩⟩

theorem consensusEncode_eq_ok_iff {r : BlockTransactionsRequest} {w : Written} :
    codec.consensusEncode r = .ok w ↔ ∃ u v, (u8Array 32).consensusEncode r.blockHash = .ok u ∧
      encodeCounted r.indexes = .ok v ∧ w = u ++ v :=
  Written.bind_append_eq_ok_iff

theorem exists_consensusEncode_iff {r : BlockTransactionsRequest} (h : r.indexes.length < 2 ^ 64) :
    (∃ w, codec.consensusEncode r = .ok w) ↔ r.indexes.Pairwise (· < ·) ∧
      ∀ idx ∈ r.indexes, idx.toNat + 1 < 2 ^ 64 := by
  have hindexes := @exists_encodeIndexes_iff 0 r.indexes
  simp only [Nat.zero_le, true_and] at hindexes
  rw [← hindexes]
  constructor
  · rintro ⟨w, hw⟩
    obtain ⟨-, v, -, hv, -⟩ := consensusEncode_eq_ok_iff.1 hw
    obtain ⟨-, v', -, hv', -⟩ := encodeCounted_eq_ok_iff.1 hv
    exact ⟨v', hv'⟩
  · rintro ⟨v, hv⟩
    have hlen := encodeLen_eq_ok_iff.2 ⟨h, rfl⟩
    exact ⟨_, consensusEncode_eq_ok_iff.2 ⟨_, _, rfl, encodeCounted_eq_ok_iff.2 ⟨_, v, hlen, hv, rfl⟩, rfl⟩⟩

/-- Strictly increasing indexes below the greatest `u64` are written and read back, within the limit of the
decoder; and what is read is strictly increasing and is written as it was. -/
theorem increasing_roundTrip :
    (∀ r : BlockTransactionsRequest, r.indexes.length * SIZE_OF_TRANSACTION ≤ MAX_VEC_SIZE →
      r.indexes.Pairwise (· < ·) → (∀ idx ∈ r.indexes, idx ≠ 0xFFFFFFFFFFFFFFFF) →
        ∃ w, codec.consensusEncode r = .ok w ∧
          ∀ rest, codec.consensusDecode.run (w.bytes ++ rest) = .ok (r, rest)) ∧
    ∀ bs r rest, codec.consensusDecode.run bs = .ok (r, rest) → r.indexes.Pairwise (· < ·) ∧
      ∃ w, codec.consensusEncode r = .ok w ∧ bs = w.bytes ++ rest := by
  have hlaws : Lawful codec.consensusEncode codec.consensusDecode fun r =>
    r.indexes.length * SIZE_OF_TRANSACTION ≤ MAX_VEC_SIZE := lawful.finite
  have hlength : ∀ r : BlockTransactionsRequest, r.indexes.length * SIZE_OF_TRANSACTION ≤ MAX_VEC_SIZE →
      r.indexes.length < 2 ^ 64 := by
    intro r hle
    rw [SIZE_OF_TRANSACTION, MAX_VEC_SIZE] at hle
    omega
  constructor
  · intro r hle hincreasing hmax
    have hbounds : ∀ idx ∈ r.indexes, idx.toNat + 1 < 2 ^ 64 := by
      intro idx hidx
      have hlt := idx.toNat_lt
      have hne : idx.toNat ≠ 0xFFFFFFFFFFFFFFFF := fun h => hmax idx hidx (UInt64.toNat_inj.1 h)
      omega
    obtain ⟨w, hw⟩ := (exists_consensusEncode_iff (hlength r hle)).2 ⟨hincreasing, hbounds⟩
    exact ⟨w, hw, hlaws.roundTrips r w hle hw⟩
  · intro bs r rest hrun
    obtain ⟨hle, w, hw, hbytes⟩ := hlaws.canonical bs r rest hrun
    obtain ⟨hincreasing, -⟩ := (exists_consensusEncode_iff (hlength r hle)).1 ⟨w, hw⟩
    exact ⟨hincreasing, w, hw, hbytes⟩

theorem increasing_roundTrip_sample :
    ∃ w, codec.consensusEncode ⟨.replicate 32 0, [0, 5]⟩ = .ok w ∧
      ∀ rest, codec.consensusDecode.run (w.bytes ++ rest) = .ok (⟨.replicate 32 0, [0, 5]⟩, rest) :=
  increasing_roundTrip.1 ⟨.replicate 32 0, [0, 5]⟩ (by simp [SIZE_OF_TRANSACTION, MAX_VEC_SIZE]) (by simp)
    (by simp)

/-- The greatest `u64` has no index after it. -/
theorem max_index_not_encoded :
    [(0xFFFFFFFFFFFFFFFF : UInt64)].Pairwise (· < ·) ∧ 1 * SIZE_OF_TRANSACTION ≤ MAX_VEC_SIZE ∧
      codec.consensusEncode ⟨.replicate 32 0, [0xFFFFFFFFFFFFFFFF]⟩ = .panic .overflow := by decide

end BlockTransactionsRequest

end RustDogecoin
