import RustDogecoin.Consensus.GenericTypes
import RustDogecoin.Lib.Stable

/-!
# Decoding short and long inputs

No decoder of the crate panics, and apart from the end of the input none returns something else when more bytes
follow, with the one exception of proprietary keys, which end with their input.  `consensus_decode` bounds what
`consensus_decode_from_finite_reader` reads; on an input of any length it returns the same, or it reports the end of the
input (`Codec.Returns`).
-/

namespace RustDogecoin

/-- A decoder of the crate that does not panic and that more input does not change. -/
abbrev StableRead {α : Type} (d : Read α) : Prop := d.Stable .io

/-- Both methods of `Decodable` are stable, and the bound on one of them is reported as the end of the input. -/
class Codec.Stable {α : Type} (c : Codec α) : Prop where
  finite : StableRead c.consensusDecodeFromFiniteReader
  decode : StableRead c.consensusDecode
  bounded : ∀ bs, c.consensusDecode.run bs = .err .io ∨
    c.consensusDecode.run bs = c.consensusDecodeFromFiniteReader.run bs

/-- What `consensus_decode` returns is what `consensus_decode_from_finite_reader` returns, or the end of the input. -/
class Codec.Returns {α : Type} (c : Codec α) : Prop where
  noPanic : ∀ bs, (c.consensusDecode.run bs).NoPanic
  bounded : ∀ bs, c.consensusDecode.run bs = .err .io ∨
    c.consensusDecode.run bs = c.consensusDecodeFromFiniteReader.run bs

attribute [instance] Codec.Stable.finite Codec.Stable.decode

instance {α : Type} (c : Codec α) [h : c.Stable] : c.Returns := ⟨h.decode.noPanic, h.bounded⟩

/-! ## Codecs -/

namespace Codec.Stable

variable {α β : Type}

instance (enc : Encoder α) (dec : Read α) [h : StableRead dec] : (Codec.ofDecode enc dec).Stable :=
  ⟨h, h, fun _ => .inr rfl⟩

instance (enc : Encoder α) (dec : Read α) [h : StableRead dec] : (Codec.ofFinite enc dec).Stable :=
  ⟨h, inferInstanceAs (StableRead (dec.limit MAX_VEC_SIZE)), h.run_limit MAX_VEC_SIZE⟩

theorem bounded_bind {d d' : Read α} {f f' : α → Read β} {bs : Bytes}
    (hd : d.run bs = .err .io ∨ d.run bs = d'.run bs)
    (hf : ∀ a rest, (f a).run rest = .err .io ∨ (f a).run rest = (f' a).run rest) :
    (d >>= f).run bs = .err .io ∨ (d >>= f).run bs = (d' >>= f').run bs := by
  rw [StateT.run_bind, StateT.run_bind]
  rcases hd with heof | heq
  · exact .inl (by rw [heof, Outcome.err_bind])
  · rw [heq]
    cases d'.run bs with
    | ok r => exact hf r.1 r.2
    | err e => exact .inr rfl
    | panic p => exact .inr rfl

theorem bounded_map {d d' : Read α} {bs : Bytes} (h : d.run bs = .err .io ∨ d.run bs = d'.run bs) (f : α → β) :
    (f <$> d).run bs = .err .io ∨ (f <$> d).run bs = (f <$> d').run bs := by
  rw [map_eq_pure_bind, map_eq_pure_bind]
  exact bounded_bind h fun _ _ => .inr rfl

theorem bounded_limit {d d' : Read α} [hd : StableRead d] {bs : Bytes}
    (h : d.run bs = .err .io ∨ d.run bs = d'.run bs) (n : ℕ) :
    (d.limit n).run bs = .err .io ∨ (d.limit n).run bs = d'.run bs := by
  rcases hd.run_limit n bs with heof | heq
  · exact .inl heof
  · rwa [heq]

instance (c : Codec α) (c' : Codec β) [h : c.Stable] [h' : c'.Stable] : (c.seq c').Stable where
  finite := inferInstanceAs (StableRead
    (c.consensusDecodeFromFiniteReader.seq c'.consensusDecodeFromFiniteReader))
  decode := inferInstanceAs (StableRead (c.consensusDecode.seq c'.consensusDecode))
  bounded bs := bounded_bind (h.bounded bs) fun _ rest => bounded_bind (h'.bounded rest) fun _ _ => .inr rfl

instance (c : Codec α) (c' : Codec β) [c.Stable] [c'.Stable] : (c.tuple c').Stable :=
  inferInstanceAs (Codec.ofDecode _ (c.consensusDecode.seq c'.consensusDecode)).Stable

instance (e : β ≃ α) (c : Codec α) [h : c.Stable] : (c.wrap e).Stable where
  finite := inferInstanceAs (StableRead (e.symm <$> c.consensusDecodeFromFiniteReader))
  decode := inferInstanceAs (StableRead (e.symm <$> c.consensusDecode))
  bounded bs := bounded_map (h.bounded bs) _

instance (e : β ≃ α) (c : Codec α) [h : c.Stable] : (implConsensusEncoding e c).Stable where
  finite := inferInstanceAs (StableRead (e.symm <$> c.consensusDecodeFromFiniteReader))
  decode := inferInstanceAs (StableRead (Decoder.limit MAX_VEC_SIZE (e.symm <$> c.consensusDecode)))
  bounded bs := bounded_limit (bounded_map (h.bounded bs) e.symm) MAX_VEC_SIZE

end Codec.Stable

/-! ## Basic types -/

section Basic

variable {α : Type}

instance (o : Option α) (e : EncodeError) : StableRead (orFail o e) :=
  match o with
  | some a => inferInstanceAs (StableRead (pure a))
  | none => inferInstanceAs (StableRead (Decoder.fail e))

instance (n : ℕ) (toNat : α → ℕ) (ofNat : ℕ → α) : (implIntEncodable n toNat ofNat).Stable := by
  delta implIntEncodable
  infer_instance

instance : u8.Stable := by delta u8; infer_instance

instance : u16.Stable := by delta u16; infer_instance

instance : u32.Stable := by delta u32; infer_instance

instance : u64.Stable := by delta u64; infer_instance

instance : i32.Stable := by delta i32; infer_instance

instance : i64.Stable := by delta i64; infer_instance

instance (n : ℕ) : StableRead (readArray n) := by delta readArray; infer_instance

instance (n : ℕ) : (u8Array n).Stable := by
  have : StableRead (u8Array n).consensusDecode := by
    rw [readArray_eq]
    infer_instance
  exact inferInstanceAs (Codec.ofDecode _ (u8Array n).consensusDecode).Stable

instance : StableRead VarInt.consensusDecode := by
  delta VarInt.consensusDecode
  infer_instance

instance : VarInt.codec.Stable := by delta VarInt.codec; infer_instance

instance : StableRead decodeLen := by delta decodeLen; infer_instance

instance (c : Codec α) [c.Stable] : (vec c).Stable := by delta vec; infer_instance

theorem stable_readBytes {chunkSize : ℕ} (hc : 0 < chunkSize) (len : ℕ) :
    StableRead (readBytesFromFiniteReader len chunkSize) := by
  have hread : readBytesFromFiniteReader len chunkSize = readSlice len :=
    funext (run_readBytesFromFiniteReader hc len)
  rw [hread]
  infer_instance

instance : vecU8.Stable := by
  have : ∀ len, StableRead (readBytesFromFiniteReader len (128 * 1024)) := stable_readBytes (by decide)
  delta vecU8
  infer_instance

instance : string.Stable :=
  inferInstanceAs (Codec.ofDecode string.consensusEncode (vecU8.consensusDecode >>= fun bs => orFail (fromUtf8 bs)
    (.parseFailed "String was not valid UTF8"))).Stable

instance : bool.Stable := by delta bool; infer_instance

instance : i8.Stable := by delta i8; infer_instance

instance : i16.Stable := by delta i16; infer_instance

instance : u16Array.Stable := by delta u16Array; infer_instance

end Basic

/-! ## Witnesses -/

theorem copyFromSlice_of_le {ε : Type} {content piece : Bytes} {i : ℕ} (h : i + piece.length ≤ content.length) :
    ∃ content' : Bytes, (copyFromSlice content i piece : Outcome ε Bytes) = .ok content' ∧
      content'.length = content.length := by
  refine ⟨overwrite content i piece, ?_, ?_⟩
  · rw [copyFromSlice, Outcome.require_of h]
    rfl
  · simp [overwrite]
    omega

/-- Between two turns of the decoder's loop, the cursor is behind the index area and within the buffer. -/
structure InBuffer (n : ℕ) (content : Bytes) (cursor : ℕ) : Prop where
  index_le : n * 4 ≤ cursor
  cursor_le : cursor ≤ content.length

theorem encodeCursor_of_lt {ε : Type} {n i value : ℕ} {content : Bytes} (hi : i < n)
    (hlen : n * 4 ≤ content.length) (hvalue : value < 2 ^ 32) :
    ∃ content' : Bytes, (encodeCursor content 0 i value : Outcome ε Bytes) = .ok content' ∧
      content'.length = content.length := by
  have hslot : 0 + i * 4 + (leBytes 4 value).length ≤ content.length := by
    rw [length_leBytes]
    omega
  obtain ⟨content', hcopy, hlength⟩ := copyFromSlice_of_le (ε := ε) hslot
  exact ⟨content', by rw [encodeCursor, Outcome.require_of hvalue, Outcome.ok_bind, hcopy], hlength⟩

theorem length_resizeIfNeeded (content : Bytes) (requiredLen : ℕ) :
    content.length ≤ (resizeIfNeeded content requiredLen).length ∧
      requiredLen < (resizeIfNeeded content requiredLen).length := by
  obtain ⟨room, hresize, hroom⟩ := resizeIfNeeded_spec content requiredLen
  rw [hresize, List.length_append]
  omega

/-- After its checks, a turn of the loop has room for the length of the element and for the element, and the cursor
stays within the buffer. -/
theorem copies_of_inBuffer {n i cursor : ℕ} {content : Bytes} {v : VarInt} (h : InBuffer n content cursor)
    (hi : i < n) (hroom : cursor + v.val.toNat + v.size ≤ MAX_VEC_SIZE + n * 4) :
    ∃ content₁ content₂ : Bytes,
      (encodeCursor content 0 i (cursor - n * 4) : Outcome EncodeError Bytes) = .ok content₁ ∧
      (copyFromSlice (resizeIfNeeded content₁ (cursor + v.val.toNat + v.size)) cursor v.written.bytes :
        Outcome EncodeError Bytes) = .ok content₂ ∧
      ∀ element : Bytes, element.length = v.val.toNat → ∃ content₃,
        (copyFromSlice content₂ (cursor + v.size) element : Outcome EncodeError Bytes) = .ok content₃ ∧
          InBuffer n content₃ (cursor + v.size + v.val.toNat) := by
  have hmax : MAX_VEC_SIZE = 4000000 := rfl
  have hvalue : cursor - n * 4 < 2 ^ 32 := by omega
  have hsize := v.length_written
  have hindex := h.index_le
  obtain ⟨content₁, henc, -⟩ := encodeCursor_of_lt (ε := EncodeError) hi (hindex.trans h.cursor_le) hvalue
  have hresize := (length_resizeIfNeeded content₁ (cursor + v.val.toNat + v.size)).2
  have hfits : cursor + v.written.bytes.length ≤
    (resizeIfNeeded content₁ (cursor + v.val.toNat + v.size)).length := by omega
  obtain ⟨content₂, hcopy, hlength⟩ := copyFromSlice_of_le (ε := EncodeError) hfits
  refine ⟨content₁, content₂, henc, hcopy, fun element helement => ?_⟩
  have hfits' : cursor + v.size + element.length ≤ content₂.length := by omega
  obtain ⟨content₃, hcopy', hlength'⟩ := copyFromSlice_of_le (ε := EncodeError) hfits'
  exact ⟨content₃, hcopy', by omega, by omega⟩

theorem stable_decodeStep {n i cursor : ℕ} {content : Bytes} (h : InBuffer n content cursor) (hi : i < n) :
    StableRead (decodeStep (n * 4) i content cursor) := by
  rw [decodeStep]
  refine .bind_of inferInstance fun v _ _ _ => ?_
  refine .ensure_bind fun _ => .ensure_bind fun _ => .ensure_bind fun hroom => ?_
  obtain ⟨content₁, content₂, henc, hcopy, helement⟩ := copies_of_inBuffer h hi hroom
  refine .ofOutcome_bind henc (.ofOutcome_bind hcopy (.bind_of inferInstance fun element _ _ hread => ?_))
  obtain ⟨content₃, hcopy', -⟩ := helement element (Decoder.run_readExact_eq_ok_iff.1 hread).2
  exact .ofOutcome_bind hcopy' inferInstance

theorem inBuffer_of_decodeStep {n i cursor : ℕ} {content bs rest : Bytes} {s : Bytes × ℕ}
    (h : InBuffer n content cursor) (hi : i < n)
    (hrun : (decodeStep (n * 4) i content cursor).run bs = .ok (s, rest)) : InBuffer n s.1 s.2 := by
  rw [decodeStep] at hrun
  obtain ⟨v, _, -, h₁⟩ := Decoder.run_bind_eq_ok_iff.1 hrun
  obtain ⟨-, h₂⟩ := Decoder.run_ensure_bind_eq_ok_iff.1 h₁
  obtain ⟨-, h₃⟩ := Decoder.run_ensure_bind_eq_ok_iff.1 h₂
  obtain ⟨hroom, h₄⟩ := Decoder.run_ensure_bind_eq_ok_iff.1 h₃
  obtain ⟨content₁, content₂, henc, hcopy, helement⟩ := copies_of_inBuffer h hi hroom
  rw [Decoder.run_bind_of_ok (Decoder.run_ofOutcome_eq_ok_iff.2 ⟨henc, rfl⟩),
    Decoder.run_bind_of_ok (Decoder.run_ofOutcome_eq_ok_iff.2 ⟨hcopy, rfl⟩)] at h₄
  obtain ⟨element, _, hread, h₅⟩ := Decoder.run_bind_eq_ok_iff.1 h₄
  obtain ⟨content₃, hcopy', hin⟩ := helement element (Decoder.run_readExact_eq_ok_iff.1 hread).2
  rw [Decoder.run_bind_of_ok (Decoder.run_ofOutcome_eq_ok_iff.2 ⟨hcopy', rfl⟩)] at h₅
  cases h₅
  exact hin

theorem stable_decodeLoop {n : ℕ} (k i : ℕ) {content : Bytes} {cursor : ℕ} (h : InBuffer n content cursor)
    (hk : i + k = n) : StableRead (decodeLoop (n * 4) k i content cursor) := by
  induction k generalizing i content cursor with
  | zero => exact inferInstanceAs (StableRead (pure (content, cursor)))
  | succ k ih =>
    rw [decodeLoop]
    refine .bind_of (stable_decodeStep h (by omega)) fun s bs rest hrun => ?_
    exact ih (i + 1) (inBuffer_of_decodeStep h (by omega) hrun) (by omega)

theorem inBuffer_of_decodeLoop {n : ℕ} (k i : ℕ) {content bs rest : Bytes} {cursor : ℕ} {s : Bytes × ℕ}
    (h : InBuffer n content cursor) (hk : i + k = n)
    (hrun : (decodeLoop (n * 4) k i content cursor).run bs = .ok (s, rest)) : InBuffer n s.1 s.2 := by
  induction k generalizing i content cursor bs with
  | zero =>
    rw [decodeLoop] at hrun
    cases hrun
    exact h
  | succ k ih =>
    rw [decodeLoop] at hrun
    obtain ⟨t, mid, hstep, hloop⟩ := Decoder.run_bind_eq_ok_iff.1 hrun
    exact ih (i + 1) (inBuffer_of_decodeStep h (by omega) hstep) (by omega) hloop

theorem noPanic_finishContent {n : ℕ} {content : Bytes} {cursor : ℕ} (h : InBuffer n content cursor) :
    (finishContent (n * 4) n content cursor).NoPanic := by
  have hle : n * 4 ≤ (content.take cursor).length := by
    rw [List.length_take_of_le h.cursor_le]
    exact h.index_le
  rw [finishContent, Outcome.require_of hle]
  exact Outcome.noPanic_ok _

instance : StableRead WitnessRepr.consensusDecode := by
  rw [WitnessRepr.consensusDecode]
  refine .bind_of inferInstance fun n _ _ _ => .ensure_bind fun _ => ?_
  split_ifs
  · infer_instance
  · have hstart : InBuffer n (List.replicate (n * 4 + 128) 0) (n * 4) :=
      ⟨le_rfl, by rw [List.length_replicate]; omega⟩
    refine .bind_of (stable_decodeLoop n 0 hstart (by omega)) fun s bs rest hrun => ?_
    exact .ofOutcome (noPanic_finishContent (inBuffer_of_decodeLoop n 0 hstart (by omega) hrun))

instance : StableRead Witness.consensusDecode := by
  delta Witness.consensusDecode
  infer_instance

instance : Witness.codec.Stable := by delta Witness.codec; infer_instance

/-! ## Transactions and blocks -/

instance : OutPoint.codec.Stable := by delta OutPoint.codec; infer_instance

instance : LockTime.codec.Stable := by delta LockTime.codec; infer_instance

instance : TxOut.codec.Stable := by delta TxOut.codec; infer_instance

instance : TxIn.fieldsCodec.Stable := by delta TxIn.fieldsCodec; infer_instance

instance : TxIn.codec.Stable := by delta TxIn.codec; infer_instance

instance stable_readWitnesses : ∀ input, StableRead (Transaction.readWitnesses input)
  | [] => inferInstanceAs (StableRead (pure []))
  | txin :: input =>
    have := stable_readWitnesses input
    inferInstanceAs (StableRead (Witness.codec.consensusDecodeFromFiniteReader >>= fun witness =>
      Transaction.readWitnesses input >>= fun input => pure ({ txin with witness } :: input)))

set_option synthInstance.maxSize 512 in
instance : StableRead Transaction.consensusDecodeFromFiniteReader := by
  delta Transaction.consensusDecodeFromFiniteReader
  infer_instance

instance : Transaction.codec.Stable := by delta Transaction.codec; infer_instance

instance : Blockdata.Header.codec.Stable := by delta Blockdata.Header.codec; infer_instance

instance : Blockdata.Block.codec.Stable := by delta Blockdata.Block.codec; infer_instance

instance : Dogecoin.AuxPow.codec.Stable := by delta Dogecoin.AuxPow.codec; infer_instance

instance : StableRead Dogecoin.Header.consensusDecodeFromFiniteReader := by
  delta Dogecoin.Header.consensusDecodeFromFiniteReader
  infer_instance

instance : Dogecoin.Header.codec.Stable := by delta Dogecoin.Header.codec; infer_instance

instance : Dogecoin.Block.codec.Stable := by delta Dogecoin.Block.codec; infer_instance

instance : StableRead PartialMerkleTree.decodeFields := by
  delta PartialMerkleTree.decodeFields
  infer_instance

instance : PartialMerkleTree.codec.Stable := by delta PartialMerkleTree.codec; infer_instance

instance : MerkleBlock.codec.Stable := by delta MerkleBlock.codec; infer_instance

/-! ## Compact blocks -/

instance : StableRead PrefilledTransaction.decodeIdx := by
  delta PrefilledTransaction.decodeIdx
  infer_instance

instance : PrefilledTransaction.codec.Stable := by delta PrefilledTransaction.codec; infer_instance

instance : HeaderAndShortIds.codec.Stable := by delta HeaderAndShortIds.codec; infer_instance

instance : BlockTransactions.codec.Stable := by delta BlockTransactions.codec; infer_instance

instance stable_decodeIndexes : ∀ n lastIndex,
    StableRead (BlockTransactionsRequest.decodeIndexes n lastIndex)
  | 0, _ => inferInstanceAs (StableRead (pure []))
  | n + 1, lastIndex =>
    have := stable_decodeIndexes n
    by
      rw [BlockTransactionsRequest.decodeIndexes]
      infer_instance

instance : StableRead BlockTransactionsRequest.decodeCounted := by
  delta BlockTransactionsRequest.decodeCounted
  dsimp only
  infer_instance

instance : BlockTransactionsRequest.codec.Stable := by
  delta BlockTransactionsRequest.codec
  infer_instance

/-! ## Addresses -/

instance : StableRead readBeWord := by delta readBeWord; infer_instance

instance : StableRead decodePort := by delta decodePort; infer_instance

instance : StableRead readBeAddress := by delta readBeAddress; infer_instance

instance : Address.codec.Stable := by delta Address.codec; infer_instance

instance (networkId : UInt8) (len : ℕ) : StableRead (AddrV2.decodeBytes networkId len) := by
  delta AddrV2.decodeBytes
  infer_instance

instance : StableRead AddrV2.consensusDecode := by delta AddrV2.consensusDecode; infer_instance

instance : AddrV2.codec.Stable := by delta AddrV2.codec; infer_instance

instance : AddrV2Message.codec.Stable := by delta AddrV2Message.codec; infer_instance

/-! ## Payloads -/

instance : StableRead Inventory.consensusDecode := by
  delta Inventory.consensusDecode
  infer_instance

instance : Inventory.codec.Stable := by delta Inventory.codec; infer_instance

instance {α : Type} (toU8 : α → UInt8) (ofU8 : UInt8 → Option α) (msg : String) :
    (enumeration toU8 ofU8 msg).Stable :=
  inferInstanceAs (Codec.ofDecode (enumeration toU8 ofU8 msg).consensusEncode
    (u8.consensusDecode >>= fun x => orFail (ofU8 x) (.parseFailed msg))).Stable

instance : RejectReason.codec.Stable := by delta RejectReason.codec; infer_instance

instance : BloomFlags.codec.Stable := by delta BloomFlags.codec; infer_instance

instance : GetBlocksMessage.codec.Stable := by delta GetBlocksMessage.codec; infer_instance

instance : GetHeadersMessage.codec.Stable := by delta GetHeadersMessage.codec; infer_instance

instance : VersionMessage.codec.Stable := by delta VersionMessage.codec; infer_instance

instance : Reject.codec.Stable := by delta Reject.codec; infer_instance

instance : FilterLoad.codec.Stable := by delta FilterLoad.codec; infer_instance

instance : FilterAdd.codec.Stable := by delta FilterAdd.codec; infer_instance

instance : GetCFilters.codec.Stable := by delta GetCFilters.codec; infer_instance

instance : CFilter.codec.Stable := by delta CFilter.codec; infer_instance

instance : GetCFHeaders.codec.Stable := by delta GetCFHeaders.codec; infer_instance

instance : CFHeaders.codec.Stable := by delta CFHeaders.codec; infer_instance

instance : GetCFCheckpt.codec.Stable := by delta GetCFCheckpt.codec; infer_instance

instance : CFCheckpt.codec.Stable := by delta CFCheckpt.codec; infer_instance

instance : SendCmpct.codec.Stable := by delta SendCmpct.codec; infer_instance

instance : CmpctBlock.codec.Stable := by delta CmpctBlock.codec; infer_instance

instance : GetBlockTxn.codec.Stable := by delta GetBlockTxn.codec; infer_instance

instance : BlockTxn.codec.Stable := by delta BlockTxn.codec; infer_instance

/-! ## Messages -/

instance : StableRead CommandString.consensusDecode := by
  delta CommandString.consensusDecode
  infer_instance

instance : CommandString.codec.Stable := by delta CommandString.codec; infer_instance

instance : StableRead CheckedData.consensusDecodeFromFiniteReader := by
  have : ∀ len, StableRead (readBytesFromFiniteReader len MAX_VEC_SIZE) := stable_readBytes (by decide)
  delta CheckedData.consensusDecodeFromFiniteReader
  dsimp only
  infer_instance

instance : CheckedData.codec.Stable := by delta CheckedData.codec; infer_instance

instance {Header : Type} (header : Codec Header) [header.Stable] : (headerWrapper header).Stable where
  finite := by
    delta headerWrapper
    dsimp only
    infer_instance
  decode := by
    delta headerWrapper
    dsimp only
    infer_instance
  bounded := Decoder.Stable.run_limit inferInstance MAX_MSG_SIZE

section Network

variable (c : Chain) [c.header.Stable] [c.block.Stable]

theorem noPanic_read {Header Block α : Type} (codec : Codec α) [h : codec.Stable]
    (message : α → NetworkMessage Header Block) (rawPayload : Bytes) :
    (NetworkMessage.read codec message rawPayload).NoPanic :=
  (h.finite.noPanic rawPayload).bind fun _ _ => Outcome.noPanic_ok _

theorem noPanic_decodePayload (cmd : CommandString) (rawPayload : Bytes) :
    (NetworkMessage.decodePayload c cmd rawPayload).NoPanic := by
  unfold NetworkMessage.decodePayload
  split
  all_goals first
    | exact Outcome.noPanic_ok _
    | exact noPanic_read _ _ _

instance : StableRead (RawNetworkMessage.consensusDecodeFromFiniteReader c) := by
  have : ∀ cmd rawPayload, StableRead (Decoder.ofOutcome (NetworkMessage.decodePayload c cmd rawPayload)) :=
    fun cmd rawPayload => .ofOutcome (noPanic_decodePayload c cmd rawPayload)
  delta RawNetworkMessage.consensusDecodeFromFiniteReader
  dsimp only
  infer_instance

instance : (RawNetworkMessage.codec c).Stable where
  finite := inferInstanceAs (StableRead (RawNetworkMessage.consensusDecodeFromFiniteReader c))
  decode := inferInstanceAs (StableRead
    (Decoder.limit MAX_MSG_SIZE (RawNetworkMessage.consensusDecodeFromFiniteReader c)))
  bounded := Decoder.Stable.run_limit inferInstance MAX_MSG_SIZE

end Network

instance : Chain.bitcoin.header.Stable := inferInstanceAs Blockdata.Header.codec.Stable

instance : Chain.bitcoin.block.Stable := inferInstanceAs Blockdata.Block.codec.Stable

instance : Chain.dogecoin.header.Stable := inferInstanceAs Dogecoin.Header.codec.Stable

instance : Chain.dogecoin.block.Stable := inferInstanceAs Dogecoin.Block.codec.Stable

/-! ## Proprietary keys -/

/-- The key itself goes on to the end of the input, or to the 1024 bytes that are read of it. -/
instance : Psbt.Raw.ProprietaryKey.codec.Returns where
  noPanic bs := by
    have hvec : StableRead vecU8.consensusDecode := inferInstance
    have hsubtype : StableRead u8.consensusDecode := inferInstance
    change (Psbt.Raw.ProprietaryKey.consensusDecode.run bs).NoPanic
    rw [Psbt.Raw.ProprietaryKey.consensusDecode, StateT.run_bind]
    refine (hvec.noPanic bs).bind fun r _ => ?_
    rw [StateT.run_bind]
    exact (hsubtype.noPanic r.2).bind fun _ _ => Outcome.noPanic_ok _
  bounded _ := .inr rfl

end RustDogecoin
