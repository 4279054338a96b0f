import RustDogecoin.Blockdata.Block

/-!
# Dogecoin headers and blocks

The codecs of `dogecoin/mod.rs`.  A Dogecoin header is a pure header followed by the data of merged
mining if there is any.  The decoder tells from a bit of the version whether that data follows, and
the encoder from the value itself, so the codec is lawful on the headers where the two agree.
-/

namespace RustDogecoin

namespace Dogecoin

/-- Data for merged-mining AuxPow. -/
structure AuxPow where
  coinbaseTx : Transaction
  parentHash : BlockHash
  coinbaseBranch : List TxMerkleNode
  coinbaseIndex : Int32
  blockchainBranch : List TxMerkleNode
  blockchainIndex : Int32
  parentBlockHeader : PureHeader
  deriving DecidableEq

structure Header where
  pureHeader : PureHeader
  auxPow : Option AuxPow
  deriving DecidableEq

structure Block where
  header : Header
  txdata : List Transaction
  deriving DecidableEq

def VERSION_AUXPOW : Int32 := 0x100

/-- Checks if a block header indicates it was merged mined and contains AuxPow information. -/
def hasAuxpowBit (h : PureHeader) : Bool := h.version &&& VERSION_AUXPOW != 0

/-- Extracts the chain ID from the block header's version field. -/
def extractChainId (h : PureHeader) : Int32 := h.version >>> 16

/-! ## Codecs -/

def AuxPow.equiv : AuxPow ≃ Transaction × BlockHash × List TxMerkleNode × Int32 ×
    List TxMerkleNode × Int32 × PureHeader where
  toFun a := (a.coinbaseTx, a.parentHash, a.coinbaseBranch, a.coinbaseIndex, a.blockchainBranch,
    a.blockchainIndex, a.parentBlockHeader)
  invFun p := ⟨p.1, p.2.1, p.2.2.1, p.2.2.2.1, p.2.2.2.2.1, p.2.2.2.2.2.1, p.2.2.2.2.2.2⟩
  left_inv _ := rfl
  right_inv _ := rfl

def AuxPow.codec : Codec AuxPow :=
  implConsensusEncoding AuxPow.equiv
    (Transaction.codec.seq ((u8Array 32).seq ((vec (u8Array 32)).seq (i32.seq
      ((vec (u8Array 32)).seq (i32.seq Blockdata.Header.codec))))))

namespace Header

def consensusEncode : Encoder Header := fun h => do
  let len ← Blockdata.Header.codec.consensusEncode h.pureHeader
  match h.auxPow with
  | some auxPow =>
    let len' ← AuxPow.codec.consensusEncode auxPow
    return len ++ len'
  | none => return len

def consensusDecodeFromFiniteReader : Read Header := do
  let pureHeader ← Blockdata.Header.codec.consensusDecodeFromFiniteReader
  if hasAuxpowBit pureHeader then
    let auxPow ← AuxPow.codec.consensusDecodeFromFiniteReader
    return ⟨pureHeader, some auxPow⟩
  else return ⟨pureHeader, none⟩

def codec : Codec Header := .ofFinite consensusEncode consensusDecodeFromFiniteReader

end Header

def Block.equiv : Block ≃ Header × List Transaction where
  toFun b := (b.header, b.txdata)
  invFun p := ⟨p.1, p.2⟩
  left_inv _ := rfl
  right_inv _ := rfl

def Block.codec : Codec Block :=
  implConsensusEncoding Block.equiv (Header.codec.seq (vec Transaction.codec))

/-! ## Laws -/

/-- The size limits that the decoder puts on a transaction. -/
abbrev Decodable (tx : Transaction) : Prop :=
  ∀ t ∈ tx.input, t.witness.repr.indicesStart ≤ MAX_VEC_SIZE

theorem AuxPow.lawful : AuxPow.codec.IsLawful fun a => Decodable a.coinbaseTx :=
  ((Transaction.lawful.seq ((lawful_u8Array 32).seq ((lawful_vec (lawful_u8Array 32)).seq
    (lawful_i32.seq ((lawful_vec (lawful_u8Array 32)).seq (lawful_i32.seq
      Blockdata.Header.lawful)))))).implConsensusEncoding AuxPow.equiv).congr
        fun _ => by simp [AuxPow.equiv]

/-- Merged-mining data is there exactly if the version says so. -/
def Header.AuxPowAgrees (h : Header) : Prop := h.auxPow.isSome = hasAuxpowBit h.pureHeader

/-- Headers that the decoder can return. -/
def Header.Decodable (h : Header) : Prop :=
  h.AuxPowAgrees ∧ ∀ a ∈ h.auxPow, Dogecoin.Decodable a.coinbaseTx

namespace Header

theorem consensusEncode_none {p : PureHeader} {w : Written} :
    consensusEncode ⟨p, none⟩ = .ok w ↔ Blockdata.Header.codec.consensusEncode p = .ok w := by
  simp [consensusEncode, Outcome.bind_eq_ok_iff]

theorem consensusEncode_some {p : PureHeader} {a : AuxPow} {w : Written} :
    consensusEncode ⟨p, some a⟩ = .ok w ↔ ∃ u v, Blockdata.Header.codec.consensusEncode p = .ok u ∧
      AuxPow.codec.consensusEncode a = .ok v ∧ w = u ++ v := by
  rw [consensusEncode]
  exact Written.bind_append_eq_ok_iff

theorem counts : Counts consensusEncode := by
  rintro ⟨p, _ | a⟩ w e
  · exact Blockdata.Header.lawful.finite.counts _ _ (consensusEncode_none.1 e)
  · obtain ⟨u, v, hu, hv, rfl⟩ := consensusEncode_some.1 e
    simp [Blockdata.Header.lawful.finite.counts _ _ hu, AuxPow.lawful.finite.counts _ _ hv]

theorem roundTrips : RoundTrips consensusEncode consensusDecodeFromFiniteReader Header.Decodable := by
  rintro ⟨p, _ | a⟩ w ⟨hbit, htx⟩ e rest
  · have hfalse : hasAuxpowBit p = false := hbit.symm
    rw [consensusDecodeFromFiniteReader, Decoder.run_bind_of_ok
      (Blockdata.Header.lawful.finite.roundTrips _ w trivial (consensusEncode_none.1 e) rest),
      if_neg (Bool.eq_false_iff.1 hfalse), Decoder.run_pure_eq]
  · have htrue : hasAuxpowBit p = true := hbit.symm
    obtain ⟨u, v, hu, hv, rfl⟩ := consensusEncode_some.1 e
    rw [Written.bytes_append, List.append_assoc, consensusDecodeFromFiniteReader,
      Decoder.run_bind_of_ok (Blockdata.Header.lawful.finite.roundTrips _ u trivial hu _),
      if_pos htrue,
      Decoder.run_bind_of_ok (AuxPow.lawful.finite.roundTrips _ v (htx a rfl) hv rest),
      Decoder.run_pure_eq]

theorem canonical : Canonical consensusEncode consensusDecodeFromFiniteReader Header.Decodable := by
  intro bs h rest hr
  rw [consensusDecodeFromFiniteReader] at hr
  obtain ⟨p, r₁, hp, h₁⟩ := Decoder.run_bind_eq_ok_iff.1 hr
  obtain ⟨-, u, hu, rfl⟩ := Blockdata.Header.lawful.finite.canonical _ _ _ hp
  split_ifs at h₁ with hbit
  · obtain ⟨a, r₂, ha, h₂⟩ := Decoder.run_bind_eq_ok_iff.1 h₁
    obtain ⟨htx, v, hv, rfl⟩ := AuxPow.lawful.finite.canonical _ _ _ ha
    cases h₂
    refine ⟨⟨hbit.symm, ?_⟩, u ++ v, consensusEncode_some.2 ⟨u, v, hu, hv, rfl⟩, by simp⟩
    intro b hb
    cases hb
    exact htx
  · cases h₁
    refine ⟨⟨?_, fun _ hb => by cases hb⟩, u, consensusEncode_none.2 hu, rfl⟩
    exact (Bool.eq_false_iff.2 hbit).symm

/-- The header codec is lawful where the version's AuxPow bit tells the truth. -/
theorem lawful : codec.IsLawful Header.Decodable := .ofFinite ⟨counts, roundTrips, canonical⟩

theorem bounded : codec.Bounded := Codec.bounded_ofFinite _ _

end Header

theorem Block.lawful_fields : (Header.codec.seq (vec Transaction.codec)).IsLawful fun p =>
    p.1.Decodable ∧ ∀ tx ∈ p.2, Decodable tx :=
  Header.lawful.seq Blockdata.lawful_txdata

theorem Block.lawful : Block.codec.IsLawful fun b =>
    b.header.Decodable ∧ ∀ tx ∈ b.txdata, Decodable tx :=
  Block.lawful_fields.implConsensusEncoding Block.equiv

theorem Block.bounded : Block.codec.Bounded :=
  Block.lawful_fields.bounded_implConsensusEncoding Block.equiv

/-! ## The codecs as a whole -/

/-- No vector of the value is longer than `usize` can say. -/
structure AuxPow.Sized (a : AuxPow) : Prop where
  coinbaseTx : a.coinbaseTx.Sized
  coinbaseBranch_lt : a.coinbaseBranch.length < 2 ^ 64
  blockchainBranch_lt : a.blockchainBranch.length < 2 ^ 64

structure Block.Sized (b : Block) : Prop where
  auxPow : ∀ a ∈ b.header.auxPow, a.Sized
  txdata_lt : b.txdata.length < 2 ^ 64
  txdata : ∀ tx ∈ b.txdata, tx.Sized

theorem exists_branch {branch : List TxMerkleNode} (h : branch.length < 2 ^ 64) :
    ∃ w, (vec (u8Array 32)).consensusEncode branch = .ok w :=
  Encoder.exists_counted (exists_encodeLen h) fun _ _ => ⟨_, rfl⟩

theorem AuxPow.exists_encode {a : AuxPow} (h : a.Sized) :
    ∃ w, AuxPow.codec.consensusEncode a = .ok w := by
  apply Encoder.exists_seq (Transaction.exists_encode h.coinbaseTx)
  refine Encoder.exists_seq ⟨_, rfl⟩ ?_
  apply Encoder.exists_seq (exists_branch h.coinbaseBranch_lt)
  refine Encoder.exists_seq ⟨_, rfl⟩ ?_
  apply Encoder.exists_seq (exists_branch h.blockchainBranch_lt)
  refine Encoder.exists_seq ⟨_, rfl⟩ ?_
  exact Blockdata.Header.exists_encode _

theorem Header.exists_encode {h : Header} (hs : ∀ a ∈ h.auxPow, a.Sized) :
    ∃ w, Header.codec.consensusEncode h = .ok w := by
  obtain ⟨p, _ | a⟩ := h
  · exact ⟨_, consensusEncode_none.2 rfl⟩
  · obtain ⟨v, hv⟩ := AuxPow.exists_encode (hs a rfl)
    exact ⟨_, consensusEncode_some.2 ⟨_, v, rfl, hv, rfl⟩⟩

theorem Block.exists_encode {b : Block} (h : b.Sized) : ∃ w, Block.codec.consensusEncode b = .ok w :=
  Encoder.exists_seq (Header.exists_encode h.auxPow) (Blockdata.exists_txdata h.txdata_lt h.txdata)

/-- The codecs of headers and of blocks.  A header whose merged-mining data agrees with its version
decodes from its encoding, up to the size that `consensus_decode` looks at; what either decoder
accepts is canonical, and has merged-mining data exactly if the version says so. -/
theorem header_and_block_decode_invert_encode :
    (∀ h : Header, (∀ a ∈ h.auxPow, a.Sized) → h.AuxPowAgrees →
      (∀ a ∈ h.auxPow, a.coinbaseTx.WitnessesFit) →
      ∃ w, Header.codec.consensusEncode h = .ok w ∧ Header.codec.DecodesBack h w) ∧
    (∀ bs h rest, Header.codec.consensusDecode.run bs = .ok (h, rest) ∨
        Header.codec.consensusDecodeFromFiniteReader.run bs = .ok (h, rest) →
      h.AuxPowAgrees ∧ ∃ w, Header.codec.consensusEncode h = .ok w ∧ bs = w.bytes ++ rest) ∧
    (∀ b : Block, b.Sized → b.header.AuxPowAgrees →
      (∀ a ∈ b.header.auxPow, a.coinbaseTx.WitnessesFit) → (∀ tx ∈ b.txdata, tx.WitnessesFit) →
      ∃ w, Block.codec.consensusEncode b = .ok w ∧ Block.codec.DecodesBack b w) ∧
    ∀ bs b rest, Block.codec.consensusDecode.run bs = .ok (b, rest) ∨
        Block.codec.consensusDecodeFromFiniteReader.run bs = .ok (b, rest) →
      b.header.AuxPowAgrees ∧ ∃ w, Block.codec.consensusEncode b = .ok w ∧ bs = w.bytes ++ rest := by
  refine ⟨?_, ?_, ?_, ?_⟩
  · intro h hs hbit htx
    obtain ⟨w, e⟩ := Header.exists_encode hs
    refine ⟨w, e, Header.lawful.decodesBack Header.bounded ⟨hbit, fun a ha => ?_⟩ e⟩
    exact Transaction.decodable_of_witnessesFit (htx a ha)
  · rintro bs h rest (hr | hr)
    · obtain ⟨⟨⟨hbit, -⟩, -⟩, hw⟩ := (Header.lawful.decode Header.bounded).canonical _ _ _ hr
      exact ⟨hbit, hw⟩
    · obtain ⟨⟨hbit, -⟩, hw⟩ := Header.lawful.finite.canonical _ _ _ hr
      exact ⟨hbit, hw⟩
  · intro b hs hbit haux htx
    obtain ⟨w, e⟩ := Block.exists_encode hs
    refine ⟨w, e, Block.lawful.decodesBack Block.bounded ⟨⟨hbit, fun a ha => ?_⟩, fun tx ht => ?_⟩ e⟩
    · exact Transaction.decodable_of_witnessesFit (haux a ha)
    · exact Transaction.decodable_of_witnessesFit (htx tx ht)
  · rintro bs b rest (hr | hr)
    · obtain ⟨⟨⟨⟨hbit, -⟩, -⟩, -⟩, hw⟩ := (Block.lawful.decode Block.bounded).canonical _ _ _ hr
      exact ⟨hbit, hw⟩
    · obtain ⟨⟨⟨hbit, -⟩, -⟩, hw⟩ := Block.lawful.finite.canonical _ _ _ hr
      exact ⟨hbit, hw⟩

/-- A coinbase transaction with an empty script. -/
def emptyCoinbase : Transaction :=
  ⟨1, .blocks 0 zero_lt_threshold, [⟨⟨.replicate 32 0, 0⟩, [], 0, Witness.new⟩], []⟩

theorem emptyCoinbase_sized : emptyCoinbase.Sized := ⟨by decide, by decide, by decide, by decide⟩

theorem emptyCoinbase_witnessesFit : emptyCoinbase.WitnessesFit := by
  intro t ht v e
  obtain rfl := List.mem_singleton.1 ht
  obtain rfl := Outcome.ok.inj e
  decide

/-- A header that was merged mined, with a coinbase branch of `n` hashes. -/
def Header.mergedMined (n : ℕ) : Header where
  pureHeader := ⟨0x620104, .replicate 32 0, .replicate 32 0, 0, 0, 0⟩
  auxPow := some
    { coinbaseTx := emptyCoinbase
      parentHash := .replicate 32 0
      coinbaseBranch := List.replicate n (.replicate 32 0)
      coinbaseIndex := 0
      blockchainBranch := []
      blockchainIndex := 0
      parentBlockHeader := ⟨1, .replicate 32 0, .replicate 32 0, 0, 0, 0⟩ }

theorem Header.mergedMined_conditions {n : ℕ} (hn : n < 2 ^ 64) :
    (∀ a ∈ (mergedMined n).auxPow, a.Sized) ∧ (mergedMined n).AuxPowAgrees ∧
      ∀ a ∈ (mergedMined n).auxPow, a.coinbaseTx.WitnessesFit := by
  refine ⟨?_, ?_, ?_⟩
  · intro a ha
    obtain rfl := Option.some.inj ha
    refine ⟨emptyCoinbase_sized, ?_, Nat.two_pow_pos 64⟩
    rwa [List.length_replicate]
  · show true = hasAuxpowBit ⟨0x620104, .replicate 32 0, .replicate 32 0, 0, 0, 0⟩
    decide
  · intro a ha
    obtain rfl := Option.some.inj ha
    exact emptyCoinbase_witnessesFit

theorem header_and_block_decode_invert_encode_mergedMined :
    ∃ w, Header.codec.consensusEncode (Header.mergedMined 1) = .ok w ∧
      Header.codec.DecodesBack (Header.mergedMined 1) w := by
  obtain ⟨hs, hbit, htx⟩ := Header.mergedMined_conditions (n := 1) (by decide)
  exact header_and_block_decode_invert_encode.1 _ hs hbit htx

/-- The hashes of the branch alone take 32 bytes each. -/
theorem Header.lt_length_mergedMined {n : ℕ} {w : Written}
    (e : codec.consensusEncode (mergedMined n) = .ok w) : 32 * n < w.bytes.length := by
  obtain ⟨u, v, hu, hv, rfl⟩ := consensusEncode_some.1 e
  obtain ⟨w₁, v₁, -, hv₁, rfl⟩ := Encoder.seq_eq_ok_iff.1 hv
  obtain ⟨w₂, v₂, -, hv₂, rfl⟩ := Encoder.seq_eq_ok_iff.1 hv₁
  obtain ⟨w₃, v₃, hw₃, -, rfl⟩ := Encoder.seq_eq_ok_iff.1 hv₂
  obtain ⟨len, hashes, -, hhash, rfl⟩ := Encoder.counted_eq_ok_iff.1 hw₃
  have hlen := length_list_u8Array hhash
  obtain rfl := Outcome.ok.inj hu
  change hashes.bytes.length = 32 * (List.replicate n _).length at hlen
  rw [List.length_replicate] at hlen
  simp only [Written.bytes_append, List.length_append, hlen, length_leBytes]
  omega

/-- A header with more bytes than `consensus_decode` looks at does not decode from its encoding. -/
theorem header_decode_oversized :
    (∀ a ∈ (Header.mergedMined 125000).auxPow, a.Sized) ∧ (Header.mergedMined 125000).AuxPowAgrees ∧
      (∀ a ∈ (Header.mergedMined 125000).auxPow, a.coinbaseTx.WitnessesFit) ∧
      ∃ w, Header.codec.consensusEncode (Header.mergedMined 125000) = .ok w ∧
        Header.codec.consensusDecode.run w.bytes ≠ .ok (Header.mergedMined 125000, []) := by
  obtain ⟨hs, hbit, htx⟩ := Header.mergedMined_conditions (n := 125000) (by decide)
  obtain ⟨w, e⟩ := Header.exists_encode hs
  refine ⟨hs, hbit, htx, w, e, fun h => ?_⟩
  have hfit := ((Header.lawful.decode Header.bounded).canonical _ _ _ h).1.2 w e
  have hlen := Header.lt_length_mergedMined e
  have hmax : MAX_VEC_SIZE = 4000000 := rfl
  omega

end Dogecoin

end RustDogecoin
