import RustDogecoin.Dogecoin.Header
import RustDogecoin.MerkleTree.Block
import RustDogecoin.P2p.MessageBlockdata
import RustDogecoin.P2p.Payloads

/-!
# Network messages

`NetworkMessage` and `RawNetworkMessage` of `p2p/message.rs`.  The encoder goes by the variant of the
payload and the decoder by the text of the command, each through its own match; the length and the
checksum of a message are fields of it, kept as they were received or computed.
-/

namespace RustDogecoin

abbrev Magic := U8Array 4

/-- Bitcoin mainnet network magic bytes. -/
def Magic.BITCOIN : Magic := ⟨[0xF9, 0xBE, 0xB4, 0xD9], rfl⟩

/-- Maximum size, in bytes, of an encoded message. -/
def MAX_MSG_SIZE : ℕ := 5000000

/-! ## Command strings -/

/-- Serializer for command string. -/
structure CommandString where
  val : String
  deriving DecidableEq

structure CommandStringError where
  cow : String
  deriving DecidableEq

namespace CommandString

def tryFromStatic (s : String) : Outcome CommandStringError CommandString := do
  .ensure ((asBytes s).length ≤ 12) ⟨s⟩
  return ⟨s⟩

/-- The text padded with zeros; a text of more than 12 bytes fails the assertion on it. -/
def consensusEncode : Encoder CommandString := fun c =>
  if h : (asBytes c.val).length ≤ 12 then
    (u8Array 12).consensusEncode
      ⟨asBytes c.val ++ List.replicate (12 - (asBytes c.val).length) 0, by simp [h]⟩
  else .panic .assertion

/-- The bytes other than zero, each taken as a character. -/
def ofBytes (rawbytes : Bytes) : CommandString :=
  ⟨String.ofList ((rawbytes.filter (0 < ·)).map fun u => Char.ofNat u.toNat)⟩

def consensusDecode : Read CommandString := do
  let rawbytes ← (u8Array 12).consensusDecode
  return ofBytes rawbytes.toList

end CommandString

/-! ## Checked data -/

/-- Does a double-SHA256 on `data` and returns the first 4 bytes. -/
def sha2Checksum (data : Bytes) : U8Array 4 :=
  ⟨(Sha256d.hash data).toList.take 4, by simp⟩

/-- Data and a 4-byte checksum. -/
structure CheckedData where
  data : Bytes
  checksum : U8Array 4
  deriving DecidableEq

def CheckedData.consensusDecodeFromFiniteReader : Read CheckedData := do
  let len ← u32.consensusDecodeFromFiniteReader
  let checksum ← (u8Array 4).consensusDecodeFromFiniteReader
  let data ← readBytesFromFiniteReader len.toNat MAX_VEC_SIZE
  let expectedChecksum := sha2Checksum data
  Decoder.ensure (expectedChecksum = checksum) (.invalidChecksum expectedChecksum checksum)
  return ⟨data, checksum⟩

/-! ## Messages -/

/-- A network message payload. -/
inductive NetworkMessage (Header Block : Type) where
  | version (dat : VersionMessage)
  | verack
  | addr (dat : List (UInt32 × Address))
  | inv (dat : List Inventory)
  | getData (dat : List Inventory)
  | notFound (dat : List Inventory)
  | getBlocks (dat : GetBlocksMessage)
  | getHeaders (dat : GetHeadersMessage)
  | memPool
  | tx (dat : Transaction)
  | block (dat : Block)
  | headers (dat : List Header)
  | sendHeaders
  | getAddr
  | ping (dat : UInt64)
  | pong (dat : UInt64)
  | merkleBlock (dat : MerkleBlock)
  | filterLoad (dat : FilterLoad)
  | filterAdd (dat : FilterAdd)
  | filterClear
  | getCFilters (dat : GetCFilters)
  | cFilter (dat : CFilter)
  | getCFHeaders (dat : GetCFHeaders)
  | cFHeaders (dat : CFHeaders)
  | getCFCheckpt (dat : GetCFCheckpt)
  | cFCheckpt (dat : CFCheckpt)
  | sendCmpct (dat : SendCmpct)
  | cmpctBlock (dat : CmpctBlock)
  | getBlockTxn (dat : GetBlockTxn)
  | blockTxn (dat : BlockTxn)
  | alert (dat : Bytes)
  | reject (dat : Reject)
  | feeFilter (dat : Int64)
  | wtxidRelay
  | addrV2 (dat : List AddrV2Message)
  | sendAddrV2
  | unknown (command : CommandString) (payload : Bytes)
  deriving DecidableEq

/-- A network message. -/
structure RawNetworkMessage (Header Block : Type) where
  magic : Magic
  payload : NetworkMessage Header Block
  payloadLen : UInt32
  checksum : U8Array 4
  deriving DecidableEq

/-- The headers and blocks that the messages of a network carry, with their codecs and the values
that these can decode. -/
structure Chain where
  Header : Type
  Block : Type
  header : Codec Header
  block : Codec Block
  HeaderDecodable : Header → Prop
  BlockDecodable : Block → Prop
  header_lawful : header.IsLawful HeaderDecodable
  header_bounded : header.Bounded
  block_lawful : block.IsLawful BlockDecodable

def Chain.bitcoin : Chain where
  Header := PureHeader
  Block := Blockdata.Block
  header := Blockdata.Header.codec
  block := Blockdata.Block.codec
  HeaderDecodable _ := True
  BlockDecodable b := ∀ tx ∈ b.txdata, Dogecoin.Decodable tx
  header_lawful := Blockdata.Header.lawful
  header_bounded := Blockdata.Header.bounded
  block_lawful := Blockdata.Block.lawful

def Chain.dogecoin : Chain where
  Header := Dogecoin.Header
  Block := Dogecoin.Block
  header := Dogecoin.Header.codec
  block := Dogecoin.Block.codec
  HeaderDecodable := Dogecoin.Header.Decodable
  BlockDecodable b := b.header.Decodable ∧ ∀ tx ∈ b.txdata, Dogecoin.Decodable tx
  header_lawful := Dogecoin.Header.lawful
  header_bounded := Dogecoin.Header.bounded
  block_lawful := Dogecoin.Block.lawful

/-- `HeaderSerializationWrapper` and `HeaderDeserializationWrapper`: after each header stands the
number of its transactions, which is zero. -/
def headerWrapper {Header : Type} (header : Codec Header) : Codec (List Header) where
  consensusEncode := encodeLen.counted fun h =>
    (header.consensusEncode.seq u8.consensusEncode) (h, 0)
  consensusDecodeFromFiniteReader := Decoder.counted decodeLen
    (Prod.fst <$> (header.consensusDecode.seq u8.consensusDecode).guard (·.2 = 0)
      fun _ => .parseFailed "Headers message should not contain transactions")
  consensusDecode := Decoder.limit MAX_MSG_SIZE (Decoder.counted decodeLen
    (Prod.fst <$> (header.consensusDecode.seq u8.consensusDecode).guard (·.2 = 0)
      fun _ => .parseFailed "Headers message should not contain transactions"))

namespace NetworkMessage

variable {Header Block : Type}

/-- Return the message command as a static string reference. -/
def cmd : NetworkMessage Header Block → String
  | version _ => "version"
  | verack => "verack"
  | addr _ => "addr"
  | inv _ => "inv"
  | getData _ => "getdata"
  | notFound _ => "notfound"
  | getBlocks _ => "getblocks"
  | getHeaders _ => "getheaders"
  | memPool => "mempool"
  | tx _ => "tx"
  | block _ => "block"
  | headers _ => "headers"
  | sendHeaders => "sendheaders"
  | getAddr => "getaddr"
  | ping _ => "ping"
  | pong _ => "pong"
  | merkleBlock _ => "merkleblock"
  | filterLoad _ => "filterload"
  | filterAdd _ => "filteradd"
  | filterClear => "filterclear"
  | getCFilters _ => "getcfilters"
  | cFilter _ => "cfilter"
  | getCFHeaders _ => "getcfheaders"
  | cFHeaders _ => "cfheaders"
  | getCFCheckpt _ => "getcfcheckpt"
  | cFCheckpt _ => "cfcheckpt"
  | sendCmpct _ => "sendcmpct"
  | cmpctBlock _ => "cmpctblock"
  | getBlockTxn _ => "getblocktxn"
  | blockTxn _ => "blocktxn"
  | alert _ => "alert"
  | reject _ => "reject"
  | feeFilter _ => "feefilter"
  | wtxidRelay => "wtxidrelay"
  | addrV2 _ => "addrv2"
  | sendAddrV2 => "sendaddrv2"
  | unknown _ _ => "unknown"

/-- Return the CommandString for the message command. -/
def command : NetworkMessage Header Block → Outcome Empty CommandString
  | unknown c _ => .ok c
  | m => (CommandString.tryFromStatic m.cmd).expect

def consensusEncode (c : Chain) : Encoder (NetworkMessage c.Header c.Block)
  | version dat => VersionMessage.codec.consensusEncode dat
  | addr dat => (vec (u32.tuple Address.codec)).consensusEncode dat
  | inv dat => (vec Inventory.codec).consensusEncode dat
  | getData dat => (vec Inventory.codec).consensusEncode dat
  | notFound dat => (vec Inventory.codec).consensusEncode dat
  | getBlocks dat => GetBlocksMessage.codec.consensusEncode dat
  | getHeaders dat => GetHeadersMessage.codec.consensusEncode dat
  | tx dat => Transaction.codec.consensusEncode dat
  | block dat => c.block.consensusEncode dat
  | headers dat => (headerWrapper c.header).consensusEncode dat
  | ping dat => u64.consensusEncode dat
  | pong dat => u64.consensusEncode dat
  | merkleBlock dat => MerkleBlock.codec.consensusEncode dat
  | filterLoad dat => FilterLoad.codec.consensusEncode dat
  | filterAdd dat => FilterAdd.codec.consensusEncode dat
  | getCFilters dat => GetCFilters.codec.consensusEncode dat
  | cFilter dat => CFilter.codec.consensusEncode dat
  | getCFHeaders dat => GetCFHeaders.codec.consensusEncode dat
  | cFHeaders dat => CFHeaders.codec.consensusEncode dat
  | getCFCheckpt dat => GetCFCheckpt.codec.consensusEncode dat
  | cFCheckpt dat => CFCheckpt.codec.consensusEncode dat
  | sendCmpct dat => SendCmpct.codec.consensusEncode dat
  | cmpctBlock dat => CmpctBlock.codec.consensusEncode dat
  | getBlockTxn dat => GetBlockTxn.codec.consensusEncode dat
  | blockTxn dat => BlockTxn.codec.consensusEncode dat
  | alert dat => vecU8.consensusEncode dat
  | reject dat => Reject.codec.consensusEncode dat
  | feeFilter dat => i64.consensusEncode dat
  | addrV2 dat => (vec AddrV2Message.codec).consensusEncode dat
  | verack | sendHeaders | memPool | getAddr | wtxidRelay | filterClear | sendAddrV2 => .ok .empty
  | unknown _ data => vecU8.consensusEncode data

/-- A payload read off the front of the data; what is left of the data is not looked at. -/
def read {α : Type} (codec : Codec α) (message : α → NetworkMessage Header Block)
    (rawPayload : Bytes) : Outcome EncodeError (NetworkMessage Header Block) := do
  let (dat, _) ← codec.consensusDecodeFromFiniteReader.run rawPayload
  return message dat

/-- The payload of a message with the given command. -/
def decodePayload (c : Chain) (cmd : CommandString) (rawPayload : Bytes) :
    Outcome EncodeError (NetworkMessage c.Header c.Block) :=
  match cmd.val with
  | "version" => read VersionMessage.codec .version rawPayload
  | "verack" => .ok .verack
  | "addr" => read (vec (u32.tuple Address.codec)) .addr rawPayload
  | "inv" => read (vec Inventory.codec) .inv rawPayload
  | "getdata" => read (vec Inventory.codec) .getData rawPayload
  | "notfound" => read (vec Inventory.codec) .notFound rawPayload
  | "getblocks" => read GetBlocksMessage.codec .getBlocks rawPayload
  | "getheaders" => read GetHeadersMessage.codec .getHeaders rawPayload
  | "mempool" => .ok .memPool
  | "block" => read c.block .block rawPayload
  | "headers" => read (headerWrapper c.header) .headers rawPayload
  | "sendheaders" => .ok .sendHeaders
  | "getaddr" => .ok .getAddr
  | "ping" => read u64 .ping rawPayload
  | "pong" => read u64 .pong rawPayload
  | "merkleblock" => read MerkleBlock.codec .merkleBlock rawPayload
  | "filterload" => read FilterLoad.codec .filterLoad rawPayload
  | "filteradd" => read FilterAdd.codec .filterAdd rawPayload
  | "filterclear" => .ok .filterClear
  | "tx" => read Transaction.codec .tx rawPayload
  | "getcfilters" => read GetCFilters.codec .getCFilters rawPayload
  | "cfilter" => read CFilter.codec .cFilter rawPayload
  | "getcfheaders" => read GetCFHeaders.codec .getCFHeaders rawPayload
  | "cfheaders" => read CFHeaders.codec .cFHeaders rawPayload
  | "getcfcheckpt" => read GetCFCheckpt.codec .getCFCheckpt rawPayload
  | "cfcheckpt" => read CFCheckpt.codec .cFCheckpt rawPayload
  | "reject" => read Reject.codec .reject rawPayload
  | "alert" => read vecU8 .alert rawPayload
  | "feefilter" => read i64 .feeFilter rawPayload
  | "sendcmpct" => read SendCmpct.codec .sendCmpct rawPayload
  | "cmpctblock" => read CmpctBlock.codec .cmpctBlock rawPayload
  | "getblocktxn" => read GetBlockTxn.codec .getBlockTxn rawPayload
  | "blocktxn" => read BlockTxn.codec .blockTxn rawPayload
  | "wtxidrelay" => .ok .wtxidRelay
  | "addrv2" => read (vec AddrV2Message.codec) .addrV2 rawPayload
  | "sendaddrv2" => .ok .sendAddrV2
  | _ => .ok (.unknown cmd rawPayload)

end NetworkMessage

namespace RawNetworkMessage

/-- Creates a raw network message. -/
def new (c : Chain) (magic : Magic) (payload : NetworkMessage c.Header c.Block) :
    Outcome Empty (RawNetworkMessage c.Header c.Block) := do
  let engine ← payload.consensusEncode c
  .require (engine.len < 2 ^ 32) .unwrap
  return ⟨magic, payload, UInt32.ofNat engine.len, sha2Checksum engine.bytes⟩

def consensusEncode (c : Chain) : Encoder (RawNetworkMessage c.Header c.Block) := fun m => do
  let magic ← (u8Array 4).consensusEncode m.magic
  let command ← m.payload.command
  let command ← command.consensusEncode
  let payloadLen ← u32.consensusEncode m.payloadLen
  let checksum ← (u8Array 4).consensusEncode m.checksum
  let payload ← m.payload.consensusEncode c
  return magic ++ command ++ payloadLen ++ checksum ++ payload

def consensusDecodeFromFiniteReader (c : Chain) : Read (RawNetworkMessage c.Header c.Block) := do
  let magic ← (u8Array 4).consensusDecodeFromFiniteReader
  let cmd ← CommandString.consensusDecode
  let checkedData ← CheckedData.consensusDecodeFromFiniteReader
  let rawPayload := checkedData.data
  let payload ← Decoder.ofOutcome (NetworkMessage.decodePayload c cmd rawPayload)
  return ⟨magic, payload, UInt32.ofNat rawPayload.length, checkedData.checksum⟩

def codec (c : Chain) : Codec (RawNetworkMessage c.Header c.Block) where
  consensusEncode := consensusEncode c
  consensusDecodeFromFiniteReader := consensusDecodeFromFiniteReader c
  consensusDecode := (consensusDecodeFromFiniteReader c).limit MAX_MSG_SIZE

end RawNetworkMessage

end RustDogecoin
