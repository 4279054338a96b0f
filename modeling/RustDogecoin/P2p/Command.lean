import RustDogecoin.P2p.Message
import Mathlib.Data.Fintype.Basic

/-!
# Commands

The commands that encoder and decoder know, as a table: the text of each, its payloads, and their
codec.  A message is one of these or an unknown one, and both directions of the source go through
the table (`consensusEncode_message`, `decodePayload_text`).  `Command.laws` says of every entry which
payloads are read back from what was written, and which bytes are written as they were read.
-/

namespace RustDogecoin

inductive Command where
  | version
  | verack
  | addr
  | inv
  | getData
  | notFound
  | getBlocks
  | getHeaders
  | memPool
  | tx
  | block
  | headers
  | sendHeaders
  | getAddr
  | ping
  | pong
  | merkleBlock
  | filterLoad
  | filterAdd
  | filterClear
  | getCFilters
  | cFilter
  | getCFHeaders
  | cFHeaders
  | getCFCheckpt
  | cFCheckpt
  | sendCmpct
  | cmpctBlock
  | getBlockTxn
  | blockTxn
  | alert
  | reject
  | feeFilter
  | wtxidRelay
  | addrV2
  | sendAddrV2
  deriving DecidableEq, Repr

instance : Fintype Command :=
  Fintype.ofList
    [.version, .verack, .addr, .inv, .getData, .notFound, .getBlocks, .getHeaders, .memPool, .tx,
    .block, .headers, .sendHeaders, .getAddr, .ping, .pong, .merkleBlock, .filterLoad,
    .filterAdd, .filterClear, .getCFilters, .cFilter, .getCFHeaders, .cFHeaders,
    .getCFCheckpt, .cFCheckpt, .sendCmpct, .cmpctBlock, .getBlockTxn, .blockTxn, .alert,
    .reject, .feeFilter, .wtxidRelay, .addrV2, .sendAddrV2]
    fun k => by cases k <;> simp

/-- The codec of commands without a payload. -/
def unitCodec : Codec Unit := .ofDecode (fun _ => .ok .empty) (pure ())

theorem lawful_unitCodec : unitCodec.IsLawful fun _ => True := by
  refine .ofDecode ⟨?_, ?_, ?_⟩
  · intro a w e
    obtain rfl := Outcome.ok.inj e
    rfl
  · intro a w _ e rest
    obtain rfl := Outcome.ok.inj e
    rfl
  · intro bs a rest h
    cases h
    exact ⟨trivial, .empty, rfl, rfl⟩

namespace Command

/-- What a message with the command carries. -/
abbrev Payload (c : Chain) : Command → Type
  | version => VersionMessage
  | addr => List (UInt32 × Address)
  | inv => List Inventory
  | getData => List Inventory
  | notFound => List Inventory
  | getBlocks => GetBlocksMessage
  | getHeaders => GetHeadersMessage
  | tx => Transaction
  | block => c.Block
  | headers => List c.Header
  | ping => UInt64
  | pong => UInt64
  | merkleBlock => MerkleBlock
  | filterLoad => FilterLoad
  | filterAdd => FilterAdd
  | getCFilters => GetCFilters
  | cFilter => CFilter
  | getCFHeaders => GetCFHeaders
  | cFHeaders => CFHeaders
  | getCFCheckpt => GetCFCheckpt
  | cFCheckpt => CFCheckpt
  | sendCmpct => SendCmpct
  | cmpctBlock => CmpctBlock
  | getBlockTxn => GetBlockTxn
  | blockTxn => BlockTxn
  | alert => Bytes
  | reject => Reject
  | feeFilter => Int64
  | addrV2 => List AddrV2Message
  | verack => Unit
  | sendHeaders => Unit
  | memPool => Unit
  | getAddr => Unit
  | wtxidRelay => Unit
  | filterClear => Unit
  | sendAddrV2 => Unit

/-- The message with the given payload. -/
def message (c : Chain) : (k : Command) → k.Payload c → NetworkMessage c.Header c.Block
  | version => .version
  | addr => .addr
  | inv => .inv
  | getData => .getData
  | notFound => .notFound
  | getBlocks => .getBlocks
  | getHeaders => .getHeaders
  | tx => .tx
  | block => .block
  | headers => .headers
  | ping => .ping
  | pong => .pong
  | merkleBlock => .merkleBlock
  | filterLoad => .filterLoad
  | filterAdd => .filterAdd
  | getCFilters => .getCFilters
  | cFilter => .cFilter
  | getCFHeaders => .getCFHeaders
  | cFHeaders => .cFHeaders
  | getCFCheckpt => .getCFCheckpt
  | cFCheckpt => .cFCheckpt
  | sendCmpct => .sendCmpct
  | cmpctBlock => .cmpctBlock
  | getBlockTxn => .getBlockTxn
  | blockTxn => .blockTxn
  | alert => .alert
  | reject => .reject
  | feeFilter => .feeFilter
  | addrV2 => .addrV2
  | verack => fun _ => .verack
  | sendHeaders => fun _ => .sendHeaders
  | memPool => fun _ => .memPool
  | getAddr => fun _ => .getAddr
  | wtxidRelay => fun _ => .wtxidRelay
  | filterClear => fun _ => .filterClear
  | sendAddrV2 => fun _ => .sendAddrV2

def codec (c : Chain) : (k : Command) → Codec (k.Payload c)
  | version => VersionMessage.codec
  | addr => vec (u32.tuple Address.codec)
  | inv => vec Inventory.codec
  | getData => vec Inventory.codec
  | notFound => vec Inventory.codec
  | getBlocks => GetBlocksMessage.codec
  | getHeaders => GetHeadersMessage.codec
  | tx => Transaction.codec
  | block => c.block
  | headers => headerWrapper c.header
  | ping => u64
  | pong => u64
  | merkleBlock => MerkleBlock.codec
  | filterLoad => FilterLoad.codec
  | filterAdd => FilterAdd.codec
  | getCFilters => GetCFilters.codec
  | cFilter => CFilter.codec
  | getCFHeaders => GetCFHeaders.codec
  | cFHeaders => CFHeaders.codec
  | getCFCheckpt => GetCFCheckpt.codec
  | cFCheckpt => CFCheckpt.codec
  | sendCmpct => SendCmpct.codec
  | cmpctBlock => CmpctBlock.codec
  | getBlockTxn => GetBlockTxn.codec
  | blockTxn => BlockTxn.codec
  | alert => vecU8
  | reject => Reject.codec
  | feeFilter => i64
  | addrV2 => vec AddrV2Message.codec
  | verack => unitCodec
  | sendHeaders => unitCodec
  | memPool => unitCodec
  | getAddr => unitCodec
  | wtxidRelay => unitCodec
  | filterClear => unitCodec
  | sendAddrV2 => unitCodec

/-- The text of the command on the wire. -/
def text : Command → String
  | version => "version"
  | addr => "addr"
  | inv => "inv"
  | getData => "getdata"
  | notFound => "notfound"
  | getBlocks => "getblocks"
  | getHeaders => "getheaders"
  | tx => "tx"
  | block => "block"
  | headers => "headers"
  | ping => "ping"
  | pong => "pong"
  | merkleBlock => "merkleblock"
  | filterLoad => "filterload"
  | filterAdd => "filteradd"
  | getCFilters => "getcfilters"
  | cFilter => "cfilter"
  | getCFHeaders => "getcfheaders"
  | cFHeaders => "cfheaders"
  | getCFCheckpt => "getcfcheckpt"
  | cFCheckpt => "cfcheckpt"
  | sendCmpct => "sendcmpct"
  | cmpctBlock => "cmpctblock"
  | getBlockTxn => "getblocktxn"
  | blockTxn => "blocktxn"
  | alert => "alert"
  | reject => "reject"
  | feeFilter => "feefilter"
  | addrV2 => "addrv2"
  | verack => "verack"
  | sendHeaders => "sendheaders"
  | memPool => "mempool"
  | getAddr => "getaddr"
  | wtxidRelay => "wtxidrelay"
  | filterClear => "filterclear"
  | sendAddrV2 => "sendaddrv2"

/-! ## The source by way of the table -/

variable {c : Chain}

theorem message_injective (k : Command) : Function.Injective (k.message c) := by
  intro p q h
  cases k <;> first | exact Subsingleton.elim p q | (injection h)

theorem consensusEncode_message (k : Command) (p : k.Payload c) :
    (k.message c p).consensusEncode c = (k.codec c).consensusEncode p := by
  cases k <;> rfl

theorem length_text_le (k : Command) : (asBytes k.text).length ≤ 12 := by
  cases k <;> decide

theorem command_message (k : Command) (p : k.Payload c) : (k.message c p).command = .ok ⟨k.text⟩ := by
  have h : CommandString.tryFromStatic k.text = .ok ⟨k.text⟩ := by
    rw [CommandString.tryFromStatic, Outcome.ensure_of k.length_text_le]
    rfl
  cases k <;> exact congrArg Outcome.expect h

theorem ofBytes_text (k : Command) :
    CommandString.ofBytes (asBytes k.text ++ List.replicate (12 - (asBytes k.text).length) 0) =
      ⟨k.text⟩ := by
  cases k <;> decide

theorem decodePayload_text (k : Command) (rawPayload : Bytes) :
    NetworkMessage.decodePayload c ⟨k.text⟩ rawPayload =
      NetworkMessage.read (k.codec c) (k.message c) rawPayload := by
  cases k <;> rfl

theorem decodePayload_unknown {s : String} (h : ∀ k : Command, s ≠ k.text) (rawPayload : Bytes) :
    NetworkMessage.decodePayload c ⟨s⟩ rawPayload = .ok (.unknown ⟨s⟩ rawPayload) := by
  unfold NetworkMessage.decodePayload
  dsimp only
  split
  all_goals first | rfl | exact absurd h (by decide)

theorem text_injective : Function.Injective text := by
  unfold Function.Injective
  decide

/-- A message is one of the table or an unknown one. -/
theorem exists_message_eq : ∀ m : NetworkMessage c.Header c.Block,
    (∃ (k : Command) (p : k.Payload c), m = k.message c p) ∨ ∃ cmd payload, m = .unknown cmd payload
  | .version dat => .inl ⟨.version, dat, rfl⟩
  | .verack => .inl ⟨.verack, (), rfl⟩
  | .addr dat => .inl ⟨.addr, dat, rfl⟩
  | .inv dat => .inl ⟨.inv, dat, rfl⟩
  | .getData dat => .inl ⟨.getData, dat, rfl⟩
  | .notFound dat => .inl ⟨.notFound, dat, rfl⟩
  | .getBlocks dat => .inl ⟨.getBlocks, dat, rfl⟩
  | .getHeaders dat => .inl ⟨.getHeaders, dat, rfl⟩
  | .memPool => .inl ⟨.memPool, (), rfl⟩
  | .tx dat => .inl ⟨.tx, dat, rfl⟩
  | .block dat => .inl ⟨.block, dat, rfl⟩
  | .headers dat => .inl ⟨.headers, dat, rfl⟩
  | .sendHeaders => .inl ⟨.sendHeaders, (), rfl⟩
  | .getAddr => .inl ⟨.getAddr, (), rfl⟩
  | .ping dat => .inl ⟨.ping, dat, rfl⟩
  | .pong dat => .inl ⟨.pong, dat, rfl⟩
  | .merkleBlock dat => .inl ⟨.merkleBlock, dat, rfl⟩
  | .filterLoad dat => .inl ⟨.filterLoad, dat, rfl⟩
  | .filterAdd dat => .inl ⟨.filterAdd, dat, rfl⟩
  | .filterClear => .inl ⟨.filterClear, (), rfl⟩
  | .getCFilters dat => .inl ⟨.getCFilters, dat, rfl⟩
  | .cFilter dat => .inl ⟨.cFilter, dat, rfl⟩
  | .getCFHeaders dat => .inl ⟨.getCFHeaders, dat, rfl⟩
  | .cFHeaders dat => .inl ⟨.cFHeaders, dat, rfl⟩
  | .getCFCheckpt dat => .inl ⟨.getCFCheckpt, dat, rfl⟩
  | .cFCheckpt dat => .inl ⟨.cFCheckpt, dat, rfl⟩
  | .sendCmpct dat => .inl ⟨.sendCmpct, dat, rfl⟩
  | .cmpctBlock dat => .inl ⟨.cmpctBlock, dat, rfl⟩
  | .getBlockTxn dat => .inl ⟨.getBlockTxn, dat, rfl⟩
  | .blockTxn dat => .inl ⟨.blockTxn, dat, rfl⟩
  | .alert dat => .inl ⟨.alert, dat, rfl⟩
  | .reject dat => .inl ⟨.reject, dat, rfl⟩
  | .feeFilter dat => .inl ⟨.feeFilter, dat, rfl⟩
  | .wtxidRelay => .inl ⟨.wtxidRelay, (), rfl⟩
  | .addrV2 dat => .inl ⟨.addrV2, dat, rfl⟩
  | .sendAddrV2 => .inl ⟨.sendAddrV2, (), rfl⟩
  | .unknown cmd payload => .inr ⟨cmd, payload, rfl⟩

end Command

/-! ## Payloads that are read back -/

namespace NetworkMessage

/-- The payload can be returned by the decoder of its command: its parts are within the sizes that
are decoded, its addresses and inventory items have the ids and codes of their kinds, and its
headers have merged-mining data exactly if their versions say so. -/
def Representable (c : Chain) : NetworkMessage c.Header c.Block → Prop
  | version dat => dat.UserAgentFits
  | inv dat => ∀ i ∈ dat, i.Representable
  | getData dat => ∀ i ∈ dat, i.Representable
  | notFound dat => ∀ i ∈ dat, i.Representable
  | tx dat => Dogecoin.Decodable dat
  | block dat => c.BlockDecodable dat
  | headers dat => ∀ h ∈ dat, c.HeaderDecodable h ∧ Fits c.header.consensusEncode MAX_VEC_SIZE h
  | merkleBlock dat => dat.txn.Decodable
  | cmpctBlock dat => ∀ t ∈ dat.compactBlock.prefilledTxs,
    Dogecoin.Decodable t.tx ∧ Fits Transaction.codec.consensusEncode MAX_VEC_SIZE t.tx
  | getBlockTxn dat =>
    dat.txsRequest.indexes.length * BlockTransactionsRequest.SIZE_OF_TRANSACTION ≤ MAX_VEC_SIZE
  | blockTxn dat => ∀ tx ∈ dat.transactions.transactions, Dogecoin.Decodable tx
  | reject dat => Fits consensusEncodeWithSize MAX_VEC_SIZE (asBytes dat.message) ∧
    Fits consensusEncodeWithSize MAX_VEC_SIZE (asBytes dat.reason)
  | addrV2 dat => ∀ m ∈ dat, m.addr.Representable
  | _ => True

/-- The payload is written the way it is read.  The payload of an unknown message is written with a
length in front, and read without one; an inventory error is written with a hash, and read without
one, so that nothing but errors may follow it. -/
def WrittenAsRead {Header Block : Type} : NetworkMessage Header Block → Prop
  | inv dat => Inventory.ErrorsLast dat
  | getData dat => Inventory.ErrorsLast dat
  | notFound dat => Inventory.ErrorsLast dat
  | unknown _ _ => False
  | _ => True

end NetworkMessage

namespace Command

variable {c : Chain}

/-- For a payload `raw` of the command, `written` is what the encoder makes of it, where that has the
same length.  No byte of `raw` is left over, and `written` is `raw` itself but for the booleans, and
for inventory lists with errors at the end. -/
def Rewritten (c : Chain) : Command → Bytes → Bytes → Prop
  | version, written, raw =>
    BoolLast written raw ∧ VersionMessage.codec.consensusDecodeFromFiniteReader.Consumes raw
  | sendCmpct, written, raw =>
    BoolFirst written raw ∧ SendCmpct.codec.consensusDecodeFromFiniteReader.Consumes raw
  | inv, written, raw => Inventory.Padded written raw
  | getData, written, raw => Inventory.Padded written raw
  | notFound, written, raw => Inventory.Padded written raw
  | k, written, raw =>
    written = raw ∧ (k.codec c).consensusDecodeFromFiniteReader.Consumes raw

/-- What holds of every entry of the table. -/
structure Laws (c : Chain) (k : Command) : Prop where
  counts : Counts (k.codec c).consensusEncode
  readBack_iff : ∀ p w, (k.codec c).consensusEncode p = .ok w →
    ((∃ rest, (k.codec c).consensusDecodeFromFiniteReader.run w.bytes = .ok (p, rest)) ↔
      (k.message c p).Representable c ∧ (k.message c p).WrittenAsRead)
  representable : ∀ raw p rest,
    (k.codec c).consensusDecodeFromFiniteReader.run raw = .ok (p, rest) →
      (k.message c p).Representable c
  readsBack : ReadsBack (k.codec c).consensusEncode (k.codec c).consensusDecodeFromFiniteReader
    (k.Rewritten c)

/-- A decoder that returns nothing but what it reads back from its encoding. -/
theorem exists_run_iff {α : Type} {enc : Encoder α} {dec : Read α} {P Q R : α → Prop}
    (h : RoundTrips enc dec P) (hdec : ∀ bs a rest, dec.run bs = .ok (a, rest) → P a)
    (hP : ∀ a, P a ↔ Q a) (hR : ∀ a, R a) (a : α) (w : Written) (hw : enc a = .ok w) :
    (∃ rest, dec.run w.bytes = .ok (a, rest)) ↔ Q a ∧ R a := by
  rw [and_iff_left (hR a), ← hP a]
  constructor
  · rintro ⟨rest, hr⟩
    exact hdec _ _ _ hr
  · intro ha
    have hr := h a w ha hw []
    rw [List.append_nil] at hr
    exact ⟨[], hr⟩

/-- Entries with a lawful codec. -/
theorem Laws.ofLawful {k : Command} {P : k.Payload c → Prop} (h : (k.codec c).IsLawful P)
    (hP : ∀ p, P p ↔ (k.message c p).Representable c) (hW : ∀ p, (k.message c p).WrittenAsRead)
    (hR : k.Rewritten c = fun written raw =>
      written = raw ∧ (k.codec c).consensusDecodeFromFiniteReader.Consumes raw) : k.Laws c where
  counts := h.finite.counts
  readBack_iff := exists_run_iff h.finite.roundTrips
    (fun raw p rest hr => (h.finite.canonical raw p rest hr).1) hP hW
  representable := fun raw p rest hr => (hP p).1 (h.finite.canonical raw p rest hr).1
  readsBack := by
    rw [hR]
    exact h.finite.readsBack

theorem lawful_headerWrapper (c : Chain) : (headerWrapper c.header).IsLawful fun hs =>
    ∀ h ∈ hs, c.HeaderDecodable h ∧ Fits c.header.consensusEncode MAX_VEC_SIZE h := by
  have hpair := ((c.header_lawful.decode c.header_bounded).seq lawful_u8.finite).guard (·.2 = 0)
    fun _ => EncodeError.parseFailed "Headers message should not contain transactions"
  have hheader := hpair.retract (fun h => (h, (0 : UInt8))) Prod.fst
    fun p hp => Prod.ext rfl hp.2.symm
  have hlist := (lawful_len.counted hheader).congr
    (Q := fun hs => ∀ h ∈ hs, c.HeaderDecodable h ∧ Fits c.header.consensusEncode MAX_VEC_SIZE h)
    fun hs => by simp
  refine ⟨hlist, fun bs hbs => Decoder.run_limit_of_le _ (le_trans hbs ?_)⟩
  decide

theorem lawful_addrs : (vec (u32.tuple Address.codec)).IsLawful fun _ => True :=
  (lawful_vec (Codec.IsLawful.tuple lawful_u32.finite Address.lawful.finite)).congr
    fun _ => by simp

theorem laws (c : Chain) : ∀ k : Command, k.Laws c
  | version =>
    { counts := VersionMessage.counts
      readBack_iff := exists_run_iff VersionMessage.roundTrips
        (fun raw p rest hr => (VersionMessage.loose raw p rest hr).1) (fun _ => Iff.rfl)
        fun _ => trivial
      representable := fun raw p rest hr => (VersionMessage.loose raw p rest hr).1
      readsBack := VersionMessage.loose.readsBack VersionMessage.roundTrips
        (fun _ _ => BoolLast.length_eq) fun _ _ _ => BoolLast.unique }
  | verack => .ofLawful lawful_unitCodec (fun _ => Iff.rfl) (fun _ => trivial) rfl
  | addr => .ofLawful lawful_addrs (fun _ => Iff.rfl) (fun _ => trivial) rfl
  | inv =>
    { counts := Inventory.counts_list
      readBack_iff := fun _ _ => Inventory.run_encode_iff
      representable := fun _ _ _ => Inventory.representable_of_list
      readsBack := fun _ _ _ => Inventory.reads_back_iff }
  | getData =>
    { counts := Inventory.counts_list
      readBack_iff := fun _ _ => Inventory.run_encode_iff
      representable := fun _ _ _ => Inventory.representable_of_list
      readsBack := fun _ _ _ => Inventory.reads_back_iff }
  | notFound =>
    { counts := Inventory.counts_list
      readBack_iff := fun _ _ => Inventory.run_encode_iff
      representable := fun _ _ _ => Inventory.representable_of_list
      readsBack := fun _ _ _ => Inventory.reads_back_iff }
  | getBlocks => .ofLawful GetBlocksMessage.lawful (fun _ => Iff.rfl) (fun _ => trivial) rfl
  | getHeaders => .ofLawful GetHeadersMessage.lawful (fun _ => Iff.rfl) (fun _ => trivial) rfl
  | memPool => .ofLawful lawful_unitCodec (fun _ => Iff.rfl) (fun _ => trivial) rfl
  | tx => .ofLawful Transaction.lawful (fun _ => Iff.rfl) (fun _ => trivial) rfl
  | block => .ofLawful c.block_lawful (fun _ => Iff.rfl) (fun _ => trivial) rfl
  | headers => .ofLawful (lawful_headerWrapper c) (fun _ => Iff.rfl) (fun _ => trivial) rfl
  | sendHeaders => .ofLawful lawful_unitCodec (fun _ => Iff.rfl) (fun _ => trivial) rfl
  | getAddr => .ofLawful lawful_unitCodec (fun _ => Iff.rfl) (fun _ => trivial) rfl
  | ping => .ofLawful lawful_u64 (fun _ => Iff.rfl) (fun _ => trivial) rfl
  | pong => .ofLawful lawful_u64 (fun _ => Iff.rfl) (fun _ => trivial) rfl
  | merkleBlock => .ofLawful MerkleBlock.lawful (fun _ => Iff.rfl) (fun _ => trivial) rfl
  | filterLoad => .ofLawful FilterLoad.lawful (fun _ => Iff.rfl) (fun _ => trivial) rfl
  | filterAdd => .ofLawful FilterAdd.lawful (fun _ => Iff.rfl) (fun _ => trivial) rfl
  | filterClear => .ofLawful lawful_unitCodec (fun _ => Iff.rfl) (fun _ => trivial) rfl
  | getCFilters => .ofLawful GetCFilters.lawful (fun _ => Iff.rfl) (fun _ => trivial) rfl
  | cFilter => .ofLawful CFilter.lawful (fun _ => Iff.rfl) (fun _ => trivial) rfl
  | getCFHeaders => .ofLawful GetCFHeaders.lawful (fun _ => Iff.rfl) (fun _ => trivial) rfl
  | cFHeaders => .ofLawful CFHeaders.lawful (fun _ => Iff.rfl) (fun _ => trivial) rfl
  | getCFCheckpt => .ofLawful GetCFCheckpt.lawful (fun _ => Iff.rfl) (fun _ => trivial) rfl
  | cFCheckpt => .ofLawful CFCheckpt.lawful (fun _ => Iff.rfl) (fun _ => trivial) rfl
  | sendCmpct =>
    { counts := SendCmpct.counts
      readBack_iff := exists_run_iff SendCmpct.roundTrips (fun _ _ _ _ => trivial)
        (fun _ => Iff.rfl) fun _ => trivial
      representable := fun _ _ _ _ => trivial
      readsBack := SendCmpct.loose.readsBack SendCmpct.roundTrips
        (fun _ _ => BoolFirst.length_eq) fun _ _ _ => BoolFirst.unique }
  | cmpctBlock => .ofLawful CmpctBlock.lawful (fun _ => Iff.rfl) (fun _ => trivial) rfl
  | getBlockTxn => .ofLawful GetBlockTxn.lawful (fun _ => Iff.rfl) (fun _ => trivial) rfl
  | blockTxn => .ofLawful BlockTxn.lawful (fun _ => Iff.rfl) (fun _ => trivial) rfl
  | alert => .ofLawful lawful_vecU8 (fun _ => Iff.rfl) (fun _ => trivial) rfl
  | reject => .ofLawful Reject.lawful (fun _ => Iff.rfl) (fun _ => trivial) rfl
  | feeFilter => .ofLawful lawful_i64 (fun _ => Iff.rfl) (fun _ => trivial) rfl
  | wtxidRelay => .ofLawful lawful_unitCodec (fun _ => Iff.rfl) (fun _ => trivial) rfl
  | addrV2 => .ofLawful (lawful_vec AddrV2Message.lawful) (fun _ => Iff.rfl) (fun _ => trivial) rfl
  | sendAddrV2 => .ofLawful lawful_unitCodec (fun _ => Iff.rfl) (fun _ => trivial) rfl

end Command

end RustDogecoin
