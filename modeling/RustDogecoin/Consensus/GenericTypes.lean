import RustDogecoin.Consensus.Generic
import RustDogecoin.P2p.Message
import RustDogecoin.Psbt.Raw

/-!
# The types that are decoded from any reader

Every type of the crate that implements `Decodable` has a `Codec.Generic`: transactions and blocks, the messages of
the network and what they are made of, and proprietary keys.  Types that wrap another one share its codec: hashes and
`ChainHash` are arrays, `Amount` and `ServiceFlags` are `u64`, `CompactTarget`, `Sequence` and the versions are
integers, `ScriptBuf` and `Box<[u8]>` are `Vec<u8>` and `Cow<str>` is `String`; a tuple is a pair of pairs.
-/

namespace RustDogecoin

/-! ## Integers that stand alone -/

def i8 : Codec Int8 := implIntEncodable 1 (fun a => a.toUInt8.toNat) fun v => (UInt8.ofNat v).toInt8

def i16 : Codec Int16 := implIntEncodable 2 (fun a => a.toUInt16.toNat) fun v => (UInt16.ofNat v).toInt16

/-- `[u16; 8]`. -/
def u16Array : Codec (U16Array 8) :=
  .ofDecode (fun a => Encoder.list u16.consensusEncode a.1)
    ((u16.consensusDecode.times 8).attach fun _ _ _ => Decoder.length_of_times)

instance : i8.Generic := by delta i8; infer_instance

instance : i16.Generic := by delta i16; infer_instance

instance : u16Array.Generic := by delta u16Array; infer_instance

/-! ## Witnesses -/

instance (elems : List Bytes) : Decidable (Packable elems) :=
  decidable_of_iff ((∀ elem ∈ elems, elem.length < 2 ^ 64) ∧ ∀ cursor ∈ cursors 0 elems, cursor < 2 ^ 32)
    ⟨fun h => ⟨h.1, h.2⟩, fun h => ⟨h.1, h.2⟩⟩

/-- The elements at the front of the content. -/
def WitnessRepr.elements (r : WitnessRepr) : List Bytes :=
  match (vecU8.consensusDecodeFromFiniteReader.times r.witnessElements).run r.content with
  | .ok (elems, _) => elems
  | _ => []

theorem run_times_elementBytes {elems : List Bytes} (h : ∀ elem ∈ elems, elem.length < 2 ^ 64)
    (rest : Bytes) : (vecU8.consensusDecodeFromFiniteReader.times elems.length).run
      (elems.flatMap elementBytes ++ rest) = .ok (elems, rest) := by
  induction elems with
  | nil => rfl
  | cons elem elems ih =>
    have helem : vecU8.consensusEncode elem =
        .ok (VarInt.written ⟨UInt64.ofNat elem.length⟩ ++ .ofBytes elem) :=
      consensusEncodeWithSize_eq_ok_iff.2
        ⟨_, encodeLen_eq_ok_iff.2 ⟨h elem List.mem_cons_self, rfl⟩, rfl⟩
    have hread := lawful_vecU8.finite.roundTrips elem _ trivial helem
      (elems.flatMap elementBytes ++ rest)
    rw [List.flatMap_cons, List.append_assoc]
    exact Decoder.run_times_succ_eq_ok_iff.2 ⟨elem, elems, _, rfl, hread,
      ih fun e he => h e (List.mem_cons_of_mem elem he)⟩

theorem elements_pack {elems : List Bytes} (h : Packable elems) : (pack elems).elements = elems := by
  unfold WitnessRepr.elements
  rw [pack, run_times_elementBytes h.length_lt]

instance (r : WitnessRepr) : Decidable (∃ elems, Packable elems ∧ r = pack elems) :=
  decidable_of_iff (Packable r.elements ∧ r = pack r.elements) <| by
    constructor
    · intro h
      exact ⟨_, h⟩
    · rintro ⟨elems, hp, rfl⟩
      rw [elements_pack hp]
      exact ⟨hp, rfl⟩

-- a decoder of many steps is one large instance
set_option synthInstance.maxSize 512 in
instance (witnessIndexSpace i : ℕ) (content : Bytes) (cursor : ℕ) :
    GenericDecode (decodeStep witnessIndexSpace i content cursor) := by
  delta decodeStep
  dsimp only
  infer_instance

instance decodeLoopGeneric (witnessIndexSpace : ℕ) : ∀ n i content cursor,
    GenericDecode (decodeLoop witnessIndexSpace n i content cursor)
  | 0, _, content, cursor => inferInstanceAs (GenericDecode (pure (content, cursor)))
  | n + 1, i, content, cursor =>
    have := decodeLoopGeneric witnessIndexSpace n
    inferInstanceAs (GenericDecode (decodeStep witnessIndexSpace i content cursor >>= fun s =>
      decodeLoop witnessIndexSpace n (i + 1) s.1 s.2))

instance : GenericDecode WitnessRepr.consensusDecode := by
  delta WitnessRepr.consensusDecode
  infer_instance

instance : GenericDecode Witness.consensusDecode := by
  delta Witness.consensusDecode
  infer_instance

instance : Witness.codec.Generic := by delta Witness.codec; infer_instance

/-! ## Transactions and blocks -/

instance : OutPoint.codec.Generic := by delta OutPoint.codec; infer_instance

instance : LockTime.codec.Generic := by delta LockTime.codec; infer_instance

instance : TxOut.codec.Generic := by delta TxOut.codec; infer_instance

instance : TxIn.fieldsCodec.Generic := by delta TxIn.fieldsCodec; infer_instance

instance : TxIn.codec.Generic := by delta TxIn.codec; infer_instance

instance readWitnessesGeneric : ∀ input, GenericDecode (Transaction.readWitnesses input)
  | [] => inferInstanceAs (GenericDecode (pure []))
  | txin :: input =>
    have := readWitnessesGeneric input
    inferInstanceAs (GenericDecode (Witness.codec.consensusDecodeFromFiniteReader >>= fun witness =>
      Transaction.readWitnesses input >>= fun input => pure ({ txin with witness } :: input)))

set_option synthInstance.maxSize 512 in
instance : GenericDecode Transaction.consensusDecodeFromFiniteReader := by
  delta Transaction.consensusDecodeFromFiniteReader
  infer_instance

instance : Transaction.codec.Generic := by delta Transaction.codec; infer_instance

instance : Blockdata.Header.codec.Generic := by delta Blockdata.Header.codec; infer_instance

instance : Blockdata.Block.codec.Generic := by delta Blockdata.Block.codec; infer_instance

instance : Dogecoin.AuxPow.codec.Generic := by delta Dogecoin.AuxPow.codec; infer_instance

instance : GenericDecode Dogecoin.Header.consensusDecodeFromFiniteReader := by
  delta Dogecoin.Header.consensusDecodeFromFiniteReader
  infer_instance

instance : Dogecoin.Header.codec.Generic := by delta Dogecoin.Header.codec; infer_instance

instance : Dogecoin.Block.codec.Generic := by delta Dogecoin.Block.codec; infer_instance

instance : GenericDecode PartialMerkleTree.decodeFields := by
  delta PartialMerkleTree.decodeFields
  infer_instance

instance : PartialMerkleTree.codec.Generic := by delta PartialMerkleTree.codec; infer_instance

instance : MerkleBlock.codec.Generic := by delta MerkleBlock.codec; infer_instance

/-! ## Compact blocks -/

instance : GenericDecode PrefilledTransaction.decodeIdx := by
  delta PrefilledTransaction.decodeIdx
  infer_instance

instance : PrefilledTransaction.codec.Generic := by delta PrefilledTransaction.codec; infer_instance

instance : HeaderAndShortIds.codec.Generic := by delta HeaderAndShortIds.codec; infer_instance

instance : BlockTransactions.codec.Generic := by delta BlockTransactions.codec; infer_instance

instance decodeIndexesGeneric : ∀ n lastIndex,
    GenericDecode (BlockTransactionsRequest.decodeIndexes n lastIndex)
  | 0, _ => inferInstanceAs (GenericDecode (pure []))
  | n + 1, lastIndex =>
    have := decodeIndexesGeneric n
    .of_eq (BlockTransactionsRequest.decodeIndexes.eq_2 lastIndex n)

instance : GenericDecode BlockTransactionsRequest.decodeCounted := by
  delta BlockTransactionsRequest.decodeCounted
  dsimp only
  infer_instance

instance : BlockTransactionsRequest.codec.Generic := by
  delta BlockTransactionsRequest.codec
  infer_instance

/-! ## Addresses -/

instance : GenericDecode readBeWord := by delta readBeWord; infer_instance

instance : GenericDecode decodePort := by delta decodePort; infer_instance

instance : GenericDecode readBeAddress := by delta readBeAddress; infer_instance

instance : Address.codec.Generic := by delta Address.codec; infer_instance

set_option synthInstance.maxSize 512 in
instance (networkId : UInt8) (len : ℕ) : GenericDecode (AddrV2.decodeBytes networkId len) := by
  delta AddrV2.decodeBytes
  infer_instance

instance : GenericDecode AddrV2.consensusDecode := by delta AddrV2.consensusDecode; infer_instance

instance : AddrV2.codec.Generic := by delta AddrV2.codec; infer_instance

instance : AddrV2Message.codec.Generic := by delta AddrV2Message.codec; infer_instance

/-! ## Payloads -/

instance : GenericDecode Inventory.consensusDecode := by
  delta Inventory.consensusDecode
  infer_instance

instance : Inventory.codec.Generic := by delta Inventory.codec; infer_instance

instance {α : Type} (toU8 : α → UInt8) (ofU8 : UInt8 → Option α) (msg : String) :
    (enumeration toU8 ofU8 msg).Generic :=
  inferInstanceAs (Codec.ofDecode (enumeration toU8 ofU8 msg).consensusEncode
    (u8.consensusDecode >>= fun x => orFail (ofU8 x) (.parseFailed msg))).Generic

instance : RejectReason.codec.Generic := by delta RejectReason.codec; infer_instance

instance : BloomFlags.codec.Generic := by delta BloomFlags.codec; infer_instance

instance : GetBlocksMessage.codec.Generic := by delta GetBlocksMessage.codec; infer_instance

instance : GetHeadersMessage.codec.Generic := by delta GetHeadersMessage.codec; infer_instance

instance : VersionMessage.codec.Generic := by delta VersionMessage.codec; infer_instance

instance : Reject.codec.Generic := by delta Reject.codec; infer_instance

instance : FilterLoad.codec.Generic := by delta FilterLoad.codec; infer_instance

instance : FilterAdd.codec.Generic := by delta FilterAdd.codec; infer_instance

instance : GetCFilters.codec.Generic := by delta GetCFilters.codec; infer_instance

instance : CFilter.codec.Generic := by delta CFilter.codec; infer_instance

instance : GetCFHeaders.codec.Generic := by delta GetCFHeaders.codec; infer_instance

instance : CFHeaders.codec.Generic := by delta CFHeaders.codec; infer_instance

instance : GetCFCheckpt.codec.Generic := by delta GetCFCheckpt.codec; infer_instance

instance : CFCheckpt.codec.Generic := by delta CFCheckpt.codec; infer_instance

instance : SendCmpct.codec.Generic := by delta SendCmpct.codec; infer_instance

instance : CmpctBlock.codec.Generic := by delta CmpctBlock.codec; infer_instance

instance : GetBlockTxn.codec.Generic := by delta GetBlockTxn.codec; infer_instance

instance : BlockTxn.codec.Generic := by delta BlockTxn.codec; infer_instance

/-! ## Messages -/

def CommandString.codec : Codec CommandString :=
  .ofDecode CommandString.consensusEncode CommandString.consensusDecode

/-- The length is a `u32`. -/
def CheckedData.consensusEncode : Encoder CheckedData := fun d => do
  .require (d.data.length < 2 ^ 32) .unwrap
  let len ← u32.consensusEncode (UInt32.ofNat d.data.length)
  let checksum ← (u8Array 4).consensusEncode d.checksum
  return ⟨(len ++ checksum).bytes ++ d.data, 8 + d.data.length⟩

def CheckedData.codec : Codec CheckedData :=
  .ofFinite CheckedData.consensusEncode CheckedData.consensusDecodeFromFiniteReader

instance : GenericDecode CommandString.consensusDecode := by
  delta CommandString.consensusDecode
  infer_instance

instance : CommandString.codec.Generic := by delta CommandString.codec; infer_instance

instance : GenericDecode CheckedData.consensusDecodeFromFiniteReader := by
  delta CheckedData.consensusDecodeFromFiniteReader
  dsimp only
  infer_instance

instance : CheckedData.codec.Generic := by delta CheckedData.codec; infer_instance

/-- `consensus_decode` looks at more bytes than `MAX_VEC_SIZE`. -/
theorem run_limit_MAX_MSG_SIZE {α : Type} (d : Read α) (bs : Bytes) (hbs : bs.length ≤ MAX_VEC_SIZE) :
    (Decoder.limit MAX_MSG_SIZE d).run bs = d.run bs :=
  Decoder.run_limit_of_le d (hbs.trans (by decide))

instance {Header : Type} (header : Codec Header) [header.Generic] : (headerWrapper header).Generic where
  finite := by
    delta headerWrapper
    dsimp only
    infer_instance
  decode := by
    delta headerWrapper
    dsimp only
    infer_instance
  agrees := run_limit_MAX_MSG_SIZE _

instance (c : Chain) : GenericDecode (RawNetworkMessage.consensusDecodeFromFiniteReader c) := by
  delta RawNetworkMessage.consensusDecodeFromFiniteReader
  dsimp only
  infer_instance

instance (c : Chain) : (RawNetworkMessage.codec c).Generic where
  finite := inferInstanceAs (GenericDecode (RawNetworkMessage.consensusDecodeFromFiniteReader c))
  decode := inferInstanceAs (GenericDecode
    (Decoder.limit MAX_MSG_SIZE (RawNetworkMessage.consensusDecodeFromFiniteReader c)))
  agrees := run_limit_MAX_MSG_SIZE _

/-! ## Proprietary keys -/

instance (limit : ℕ) : GenericDecode (Psbt.Raw.ProprietaryKey.readToLimit limit) where
  reading := .readToLimit .io limit
  propagates := Reading.propagates_readToLimit limit
  decoder_eq := Reading.decoder_readToLimit _ _ limit

instance : GenericDecode Psbt.Raw.ProprietaryKey.consensusDecode := by
  delta Psbt.Raw.ProprietaryKey.consensusDecode
  infer_instance

instance : Psbt.Raw.ProprietaryKey.codec.Generic := by delta Psbt.Raw.ProprietaryKey.codec; infer_instance

end RustDogecoin
