import RustDogecoin.Bip152
import RustDogecoin.P2p.Address

/-!
# Message payloads

The structures of `p2p/message_network.rs`, `p2p/message_filter.rs`, `p2p/message_bloom.rs` and
`p2p/message_compact_blocks.rs`.  Two of them have a boolean, which is read from any byte and written
as `0` or `1`.
-/

namespace RustDogecoin

/-! ## Booleans -/

/-- The byte that a boolean is written as when it was read from `b`. -/
def boolByte (b : UInt8) : UInt8 := if b = 0 then 0 else 1

/-- `read` and `written` differ in a boolean at the end. -/
def BoolLast (written read : Bytes) : Prop := ∃ pre b, read = pre ++ [b] ∧ written = pre ++ [boolByte b]

/-- `read` and `written` differ in a boolean in front. -/
def BoolFirst (written read : Bytes) : Prop := ∃ b post, read = b :: post ∧ written = boolByte b :: post

theorem loose_bool : Loose bool.consensusEncode bool.consensusDecode (fun _ => True)
    fun written read => ∃ b, read = [b] ∧ written = [boolByte b] := by
  intro bs x rest h
  obtain ⟨b, mid, hb, hpure⟩ := Decoder.run_bind_eq_ok_iff.1 h
  obtain rfl := eq_of_run_u8 hb
  cases hpure
  refine ⟨trivial, _, [b], rfl, congrArg (· ++ rest) (leBytes_one_toNat b), b, rfl, ?_⟩
  by_cases hzero : b = 0 <;> simp [boolByte, hzero]

theorem BoolLast.append (u : Bytes) {written read : Bytes} (h : BoolLast written read) :
    BoolLast (u ++ written) (u ++ read) := by
  obtain ⟨pre, b, rfl, rfl⟩ := h
  exact ⟨u ++ pre, b, by simp, by simp⟩

theorem BoolFirst.append (u : Bytes) {written read : Bytes} (h : BoolFirst written read) :
    BoolFirst (written ++ u) (read ++ u) := by
  obtain ⟨b, post, rfl, rfl⟩ := h
  exact ⟨b, post ++ u, by simp, by simp⟩

theorem BoolLast.length_eq {written read : Bytes} (h : BoolLast written read) :
    written.length = read.length := by
  obtain ⟨pre, b, rfl, rfl⟩ := h
  simp

theorem BoolFirst.length_eq {written read : Bytes} (h : BoolFirst written read) :
    written.length = read.length := by
  obtain ⟨b, post, rfl, rfl⟩ := h
  simp

theorem BoolLast.unique {w w' read : Bytes} (h : BoolLast w read) (h' : BoolLast w' read) : w = w' := by
  obtain ⟨pre, b, rfl, rfl⟩ := h
  obtain ⟨pre', b', e, rfl⟩ := h'
  obtain ⟨rfl, hb⟩ := List.append_inj' e rfl
  cases hb
  rfl

theorem BoolFirst.unique {w w' read : Bytes} (h : BoolFirst w read) (h' : BoolFirst w' read) :
    w = w' := by
  obtain ⟨b, post, rfl, rfl⟩ := h
  obtain ⟨b', post', e, rfl⟩ := h'
  cases e
  rfl

theorem counts_bool : Counts bool.consensusEncode := by
  intro b w e
  obtain rfl := Outcome.ok.inj e
  rfl

/-! ## Network messages -/

/-- The `version` message. -/
structure VersionMessage where
  version : UInt32
  services : ServiceFlags
  timestamp : Int64
  receiver : Address
  sender : Address
  nonce : UInt64
  userAgent : String
  startHeight : Int32
  relay : Bool
  deriving DecidableEq

namespace VersionMessage

def equiv : VersionMessage ≃ UInt32 × ServiceFlags × Int64 × Address × Address × UInt64 × String ×
    Int32 × Bool where
  toFun m := (m.version, m.services, m.timestamp, m.receiver, m.sender, m.nonce, m.userAgent,
    m.startHeight, m.relay)
  invFun p := ⟨p.1, p.2.1, p.2.2.1, p.2.2.2.1, p.2.2.2.2.1, p.2.2.2.2.2.1, p.2.2.2.2.2.2.1,
    p.2.2.2.2.2.2.2.1, p.2.2.2.2.2.2.2.2⟩
  left_inv _ := rfl
  right_inv _ := rfl

def codec : Codec VersionMessage :=
  implConsensusEncoding equiv
    (u32.seq (u64.seq (i64.seq (Address.codec.seq (Address.codec.seq (u64.seq (string.seq
      (i32.seq bool))))))))

/-- The user agent has a size that `consensus_decode` of a string accepts. -/
def UserAgentFits (m : VersionMessage) : Prop :=
  Fits consensusEncodeWithSize MAX_VEC_SIZE (asBytes m.userAgent)

theorem counts : Counts codec.consensusEncode :=
  (lawful_u32.finite.counts.seq (lawful_u64.finite.counts.seq (lawful_i64.finite.counts.seq
    (Address.lawful.finite.counts.seq (Address.lawful.finite.counts.seq
      (lawful_u64.finite.counts.seq (lawful_string.finite.counts.seq
        (lawful_i32.finite.counts.seq counts_bool)))))))).comp equiv

theorem roundTrips : RoundTrips codec.consensusEncode codec.consensusDecodeFromFiniteReader
    UserAgentFits :=
  ((lawful_u32.finite.roundTrips.seq (lawful_u64.finite.roundTrips.seq
    (lawful_i64.finite.roundTrips.seq (Address.lawful.finite.roundTrips.seq
      (Address.lawful.finite.roundTrips.seq (lawful_u64.finite.roundTrips.seq
        (lawful_string.finite.roundTrips.seq (lawful_i32.finite.roundTrips.seq
          roundTrips_bool)))))))).xmap equiv).mono fun m hm => by
    simpa [equiv, UserAgentFits] using hm

/-- A version is read as it is written, up to the byte of `relay` at the end. -/
theorem loose : Loose codec.consensusEncode codec.consensusDecodeFromFiniteReader UserAgentFits
    BoolLast := by
  have hbool : Loose bool.consensusEncode bool.consensusDecodeFromFiniteReader (fun _ => True)
      BoolLast := by
    intro bs x rest h
    obtain ⟨-, w, read, hw, hbs, b, rfl, hb⟩ := loose_bool bs x rest h
    exact ⟨trivial, w, [b], hw, hbs, [], b, rfl, hb⟩
  have hpre : ∀ u w read, BoolLast w read → BoolLast (u ++ w) (u ++ read) :=
    fun u _ _ h => h.append u
  have h := (lawful_u32.finite.canonical.seq_loose (lawful_u64.finite.canonical.seq_loose
    (lawful_i64.finite.canonical.seq_loose (Address.lawful.finite.canonical.seq_loose
      (Address.lawful.finite.canonical.seq_loose (lawful_u64.finite.canonical.seq_loose
        (lawful_string.finite.canonical.seq_loose (lawful_i32.finite.canonical.seq_loose hbool hpre)
          hpre) hpre) hpre) hpre) hpre) hpre) hpre).xmap equiv
  intro bs m rest hr
  obtain ⟨hm, hw⟩ := h bs m rest hr
  exact ⟨hm.2.2.2.2.2.2.1, hw⟩

end VersionMessage

/-- Message rejection reason as a code. -/
inductive RejectReason where
  | malformed
  | invalid
  | obsolete
  | duplicate
  | nonStandard
  | dust
  | fee
  | checkpoint
  deriving DecidableEq, Repr

def RejectReason.toU8 : RejectReason → UInt8
  | malformed => 0x01
  | invalid => 0x10
  | obsolete => 0x11
  | duplicate => 0x12
  | nonStandard => 0x40
  | dust => 0x41
  | fee => 0x42
  | checkpoint => 0x43

def RejectReason.ofU8 (x : UInt8) : Option RejectReason :=
  if x = 0x01 then some .malformed
  else if x = 0x10 then some .invalid
  else if x = 0x11 then some .obsolete
  else if x = 0x12 then some .duplicate
  else if x = 0x40 then some .nonStandard
  else if x = 0x41 then some .dust
  else if x = 0x42 then some .fee
  else if x = 0x43 then some .checkpoint
  else none

/-- What to do with the filter after a match. -/
inductive BloomFlags where
  | none
  | all
  | pubkeyOnly
  deriving DecidableEq, Repr

def BloomFlags.toU8 : BloomFlags → UInt8
  | none => 0
  | all => 1
  | pubkeyOnly => 2

def BloomFlags.ofU8 (x : UInt8) : Option BloomFlags :=
  if x = 0 then some .none
  else if x = 1 then some .all
  else if x = 2 then some .pubkeyOnly
  else Option.none

/-- An enumeration that is written as one byte. -/
def enumeration {α : Type} (toU8 : α → UInt8) (ofU8 : UInt8 → Option α) (msg : String) : Codec α :=
  .ofDecode (fun a => .ok ⟨[toU8 a], 1⟩) do
    match ofU8 (← u8.consensusDecode) with
    | some a => return a
    | none => Decoder.fail (.parseFailed msg)

theorem lawful_enumeration {α : Type} {toU8 : α → UInt8} {ofU8 : UInt8 → Option α} {msg : String}
    (h : ∀ x a, ofU8 x = some a ↔ toU8 a = x) :
    (enumeration toU8 ofU8 msg).IsLawful fun _ => True := by
  refine .ofDecode ⟨?_, ?_, ?_⟩
  · intro a w e
    obtain rfl := Outcome.ok.inj e
    rfl
  · intro a w _ e rest
    obtain rfl := Outcome.ok.inj e
    have hrun := run_u8 (toU8 a) rest
    rw [leBytes_one_toNat] at hrun
    rw [Decoder.run_bind_of_ok hrun, (h _ a).2 rfl, Decoder.run_pure_eq]
  · intro bs a rest hr
    obtain ⟨x, mid, hx, ha⟩ := Decoder.run_bind_eq_ok_iff.1 hr
    obtain rfl := eq_of_run_u8 hx
    cases hof : ofU8 x with
    | none =>
      rw [hof] at ha
      cases ha
    | some b =>
      rw [hof] at ha
      cases ha
      obtain rfl := (h x a).1 hof
      exact ⟨trivial, _, rfl, congrArg (· ++ rest) (leBytes_one_toNat (toU8 a))⟩

def RejectReason.codec : Codec RejectReason := enumeration toU8 ofU8 "unknown reject code"

theorem RejectReason.ofU8_eq_some_iff (x : UInt8) (r : RejectReason) : ofU8 x = some r ↔ r.toU8 = x := by
  constructor
  · intro h
    unfold ofU8 at h
    split_ifs at h <;> cases h <;> exact Eq.symm (by assumption)
  · rintro rfl
    cases r <;> rfl

theorem RejectReason.lawful : RejectReason.codec.IsLawful fun _ => True :=
  lawful_enumeration ofU8_eq_some_iff

def BloomFlags.codec : Codec BloomFlags := enumeration toU8 ofU8 "unknown bloom flag"

theorem BloomFlags.ofU8_eq_some_iff (x : UInt8) (f : BloomFlags) : ofU8 x = some f ↔ f.toU8 = x := by
  constructor
  · intro h
    unfold ofU8 at h
    split_ifs at h <;> cases h <;> exact Eq.symm (by assumption)
  · rintro rfl
    cases f <;> rfl

theorem BloomFlags.lawful : BloomFlags.codec.IsLawful fun _ => True :=
  lawful_enumeration ofU8_eq_some_iff

/-- Reject message might be sent by peers rejecting one of our messages. -/
structure Reject where
  message : String
  ccode : RejectReason
  reason : String
  hash : U8Array 32
  deriving DecidableEq

def Reject.equiv : Reject ≃ String × RejectReason × String × U8Array 32 where
  toFun r := (r.message, r.ccode, r.reason, r.hash)
  invFun p := ⟨p.1, p.2.1, p.2.2.1, p.2.2.2⟩
  left_inv _ := rfl
  right_inv _ := rfl

def Reject.codec : Codec Reject :=
  implConsensusEncoding Reject.equiv (string.seq (RejectReason.codec.seq (string.seq (u8Array 32))))

theorem Reject.lawful : Reject.codec.IsLawful fun r =>
    Fits consensusEncodeWithSize MAX_VEC_SIZE (asBytes r.message) ∧
      Fits consensusEncodeWithSize MAX_VEC_SIZE (asBytes r.reason) :=
  ((lawful_string.seq (RejectReason.lawful.seq (lawful_string.seq
    (lawful_u8Array 32)))).implConsensusEncoding Reject.equiv).congr fun _ => by simp [Reject.equiv]

/-! ## Bloom filters -/

/-- `filterload` message sets the current bloom filter. -/
structure FilterLoad where
  filter : Bytes
  hashFuncs : UInt32
  tweak : UInt32
  flags : BloomFlags
  deriving DecidableEq

def FilterLoad.equiv : FilterLoad ≃ Bytes × UInt32 × UInt32 × BloomFlags where
  toFun f := (f.filter, f.hashFuncs, f.tweak, f.flags)
  invFun p := ⟨p.1, p.2.1, p.2.2.1, p.2.2.2⟩
  left_inv _ := rfl
  right_inv _ := rfl

def FilterLoad.codec : Codec FilterLoad :=
  implConsensusEncoding FilterLoad.equiv (vecU8.seq (u32.seq (u32.seq BloomFlags.codec)))

theorem FilterLoad.lawful : FilterLoad.codec.IsLawful fun _ => True :=
  ((lawful_vecU8.seq (lawful_u32.seq (lawful_u32.seq BloomFlags.lawful))).implConsensusEncoding
    FilterLoad.equiv).congr fun _ => by simp

/-- `filteradd` message updates the current filter with new data. -/
structure FilterAdd where
  data : Bytes
  deriving DecidableEq

def FilterAdd.equiv : FilterAdd ≃ Bytes := ⟨FilterAdd.data, FilterAdd.mk, fun _ => rfl, fun _ => rfl⟩

def FilterAdd.codec : Codec FilterAdd := implConsensusEncoding FilterAdd.equiv vecU8

theorem FilterAdd.lawful : FilterAdd.codec.IsLawful fun _ => True :=
  lawful_vecU8.implConsensusEncoding FilterAdd.equiv

/-! ## Client side block filtering -/

/-- `getcfilters` message. -/
structure GetCFilters where
  filterType : UInt8
  startHeight : UInt32
  stopHash : BlockHash
  deriving DecidableEq

def GetCFilters.equiv : GetCFilters ≃ UInt8 × UInt32 × BlockHash where
  toFun m := (m.filterType, m.startHeight, m.stopHash)
  invFun p := ⟨p.1, p.2.1, p.2.2⟩
  left_inv _ := rfl
  right_inv _ := rfl

def GetCFilters.codec : Codec GetCFilters :=
  implConsensusEncoding GetCFilters.equiv (u8.seq (u32.seq (u8Array 32)))

theorem GetCFilters.lawful : GetCFilters.codec.IsLawful fun _ => True :=
  ((lawful_u8.seq (lawful_u32.seq (lawful_u8Array 32))).implConsensusEncoding
    GetCFilters.equiv).congr fun _ => by simp

/-- `cfilter` message. -/
structure CFilter where
  filterType : UInt8
  blockHash : BlockHash
  filter : Bytes
  deriving DecidableEq

def CFilter.equiv : CFilter ≃ UInt8 × BlockHash × Bytes where
  toFun m := (m.filterType, m.blockHash, m.filter)
  invFun p := ⟨p.1, p.2.1, p.2.2⟩
  left_inv _ := rfl
  right_inv _ := rfl

def CFilter.codec : Codec CFilter :=
  implConsensusEncoding CFilter.equiv (u8.seq ((u8Array 32).seq vecU8))

theorem CFilter.lawful : CFilter.codec.IsLawful fun _ => True :=
  ((lawful_u8.seq ((lawful_u8Array 32).seq lawful_vecU8)).implConsensusEncoding
    CFilter.equiv).congr fun _ => by simp

/-- `getcfheaders` message. -/
structure GetCFHeaders where
  filterType : UInt8
  startHeight : UInt32
  stopHash : BlockHash
  deriving DecidableEq

def GetCFHeaders.equiv : GetCFHeaders ≃ UInt8 × UInt32 × BlockHash where
  toFun m := (m.filterType, m.startHeight, m.stopHash)
  invFun p := ⟨p.1, p.2.1, p.2.2⟩
  left_inv _ := rfl
  right_inv _ := rfl

def GetCFHeaders.codec : Codec GetCFHeaders :=
  implConsensusEncoding GetCFHeaders.equiv (u8.seq (u32.seq (u8Array 32)))

theorem GetCFHeaders.lawful : GetCFHeaders.codec.IsLawful fun _ => True :=
  ((lawful_u8.seq (lawful_u32.seq (lawful_u8Array 32))).implConsensusEncoding
    GetCFHeaders.equiv).congr fun _ => by simp

/-- `cfheaders` message. -/
structure CFHeaders where
  filterType : UInt8
  stopHash : BlockHash
  previousFilterHeader : U8Array 32
  filterHashes : List (U8Array 32)
  deriving DecidableEq

def CFHeaders.equiv : CFHeaders ≃ UInt8 × BlockHash × U8Array 32 × List (U8Array 32) where
  toFun m := (m.filterType, m.stopHash, m.previousFilterHeader, m.filterHashes)
  invFun p := ⟨p.1, p.2.1, p.2.2.1, p.2.2.2⟩
  left_inv _ := rfl
  right_inv _ := rfl

def CFHeaders.codec : Codec CFHeaders :=
  implConsensusEncoding CFHeaders.equiv
    (u8.seq ((u8Array 32).seq ((u8Array 32).seq (vec (u8Array 32)))))

theorem CFHeaders.lawful : CFHeaders.codec.IsLawful fun _ => True :=
  ((lawful_u8.seq ((lawful_u8Array 32).seq ((lawful_u8Array 32).seq
    (lawful_vec (lawful_u8Array 32))))).implConsensusEncoding CFHeaders.equiv).congr
      fun _ => by simp

/-- `getcfcheckpt` message. -/
structure GetCFCheckpt where
  filterType : UInt8
  stopHash : BlockHash
  deriving DecidableEq

def GetCFCheckpt.equiv : GetCFCheckpt ≃ UInt8 × BlockHash where
  toFun m := (m.filterType, m.stopHash)
  invFun p := ⟨p.1, p.2⟩
  left_inv _ := rfl
  right_inv _ := rfl

def GetCFCheckpt.codec : Codec GetCFCheckpt :=
  implConsensusEncoding GetCFCheckpt.equiv (u8.seq (u8Array 32))

theorem GetCFCheckpt.lawful : GetCFCheckpt.codec.IsLawful fun _ => True :=
  ((lawful_u8.seq (lawful_u8Array 32)).implConsensusEncoding GetCFCheckpt.equiv).congr
    fun _ => by simp

/-- `cfcheckpt` message. -/
structure CFCheckpt where
  filterType : UInt8
  stopHash : BlockHash
  filterHeaders : List (U8Array 32)
  deriving DecidableEq

def CFCheckpt.equiv : CFCheckpt ≃ UInt8 × BlockHash × List (U8Array 32) where
  toFun m := (m.filterType, m.stopHash, m.filterHeaders)
  invFun p := ⟨p.1, p.2.1, p.2.2⟩
  left_inv _ := rfl
  right_inv _ := rfl

def CFCheckpt.codec : Codec CFCheckpt :=
  implConsensusEncoding CFCheckpt.equiv (u8.seq ((u8Array 32).seq (vec (u8Array 32))))

theorem CFCheckpt.lawful : CFCheckpt.codec.IsLawful fun _ => True :=
  ((lawful_u8.seq ((lawful_u8Array 32).seq (lawful_vec (lawful_u8Array 32)))).implConsensusEncoding
    CFCheckpt.equiv).congr fun _ => by simp

/-! ## Compact blocks -/

/-- `sendcmpct` message. -/
structure SendCmpct where
  sendCompact : Bool
  version : UInt64
  deriving DecidableEq

namespace SendCmpct

def equiv : SendCmpct ≃ Bool × UInt64 where
  toFun m := (m.sendCompact, m.version)
  invFun p := ⟨p.1, p.2⟩
  left_inv _ := rfl
  right_inv _ := rfl

def codec : Codec SendCmpct := implConsensusEncoding equiv (bool.seq u64)

theorem counts : Counts codec.consensusEncode := (counts_bool.seq lawful_u64.finite.counts).comp equiv

theorem roundTrips : RoundTrips codec.consensusEncode codec.consensusDecodeFromFiniteReader
    fun _ => True :=
  ((roundTrips_bool.seq lawful_u64.finite.roundTrips).xmap equiv).mono fun _ _ => ⟨trivial, trivial⟩

/-- The message is read as it is written, up to the byte of `send_compact` in front. -/
theorem loose : Loose codec.consensusEncode codec.consensusDecodeFromFiniteReader (fun _ => True)
    BoolFirst := by
  have hbool : Loose bool.consensusEncode bool.consensusDecodeFromFiniteReader (fun _ => True)
      BoolFirst := by
    intro bs x rest h
    obtain ⟨-, w, read, hw, hbs, b, rfl, hb⟩ := loose_bool bs x rest h
    exact ⟨trivial, w, [b], hw, hbs, b, [], rfl, hb⟩
  have h := (hbool.seq_canonical lawful_u64.finite.canonical fun u _ _ h => h.append u).xmap equiv
  intro bs m rest hr
  exact ⟨trivial, (h bs m rest hr).2⟩

end SendCmpct

/-- `cmpctblock` message. -/
structure CmpctBlock where
  compactBlock : HeaderAndShortIds
  deriving DecidableEq

def CmpctBlock.equiv : CmpctBlock ≃ HeaderAndShortIds :=
  ⟨CmpctBlock.compactBlock, CmpctBlock.mk, fun _ => rfl, fun _ => rfl⟩

def CmpctBlock.codec : Codec CmpctBlock :=
  implConsensusEncoding CmpctBlock.equiv HeaderAndShortIds.codec

theorem CmpctBlock.lawful : CmpctBlock.codec.IsLawful fun m =>
    ∀ t ∈ m.compactBlock.prefilledTxs,
      (∀ i ∈ t.tx.input, i.witness.repr.indicesStart ≤ MAX_VEC_SIZE) ∧
        Fits Transaction.codec.consensusEncode MAX_VEC_SIZE t.tx :=
  HeaderAndShortIds.lawful.implConsensusEncoding CmpctBlock.equiv

/-- `getblocktxn` message. -/
structure GetBlockTxn where
  txsRequest : BlockTransactionsRequest
  deriving DecidableEq

def GetBlockTxn.equiv : GetBlockTxn ≃ BlockTransactionsRequest :=
  ⟨GetBlockTxn.txsRequest, GetBlockTxn.mk, fun _ => rfl, fun _ => rfl⟩

def GetBlockTxn.codec : Codec GetBlockTxn :=
  implConsensusEncoding GetBlockTxn.equiv BlockTransactionsRequest.codec

theorem GetBlockTxn.lawful : GetBlockTxn.codec.IsLawful fun m =>
    m.txsRequest.indexes.length * BlockTransactionsRequest.SIZE_OF_TRANSACTION ≤ MAX_VEC_SIZE :=
  BlockTransactionsRequest.lawful.implConsensusEncoding GetBlockTxn.equiv

/-- `blocktxn` message. -/
structure BlockTxn where
  transactions : BlockTransactions
  deriving DecidableEq

def BlockTxn.equiv : BlockTxn ≃ BlockTransactions :=
  ⟨BlockTxn.transactions, BlockTxn.mk, fun _ => rfl, fun _ => rfl⟩

def BlockTxn.codec : Codec BlockTxn := implConsensusEncoding BlockTxn.equiv BlockTransactions.codec

theorem BlockTxn.lawful : BlockTxn.codec.IsLawful fun m =>
    ∀ tx ∈ m.transactions.transactions, ∀ i ∈ tx.input,
      i.witness.repr.indicesStart ≤ MAX_VEC_SIZE :=
  BlockTransactions.lawful.implConsensusEncoding BlockTxn.equiv

end RustDogecoin
