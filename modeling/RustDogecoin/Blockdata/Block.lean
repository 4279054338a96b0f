import RustDogecoin.Blockdata.Transaction

/-!
# Bitcoin headers and blocks

`Header` and `Block` of `blockdata/block.rs`.  The Bitcoin header is also the part of a Dogecoin
header that the proof of work is about, where it goes by the name of `PureHeader`.
-/

namespace RustDogecoin

abbrev BlockHash := U8Array 32

abbrev TxMerkleNode := U8Array 32

namespace Blockdata

structure Header where
  version : Int32
  prevBlockhash : BlockHash
  merkleRoot : TxMerkleNode
  time : UInt32
  bits : UInt32
  nonce : UInt32
  deriving DecidableEq, Repr

structure Block where
  header : Header
  txdata : List Transaction
  deriving DecidableEq

def Header.equiv :
    Header ≃ Int32 × BlockHash × TxMerkleNode × UInt32 × UInt32 × UInt32 where
  toFun h := (h.version, h.prevBlockhash, h.merkleRoot, h.time, h.bits, h.nonce)
  invFun p := ⟨p.1, p.2.1, p.2.2.1, p.2.2.2.1, p.2.2.2.2.1, p.2.2.2.2.2⟩
  left_inv _ := rfl
  right_inv _ := rfl

def Header.codec : Codec Header :=
  implConsensusEncoding Header.equiv
    (i32.seq ((u8Array 32).seq ((u8Array 32).seq (u32.seq (u32.seq u32)))))

def Block.equiv : Block ≃ Header × List Transaction where
  toFun b := (b.header, b.txdata)
  invFun p := ⟨p.1, p.2⟩
  left_inv _ := rfl
  right_inv _ := rfl

def Block.codec : Codec Block :=
  implConsensusEncoding Block.equiv (Header.codec.seq (vec Transaction.codec))

/-- `Header::block_hash`. -/
def Header.blockHash (h : Header) : Outcome Empty BlockHash := do
  let w ← Header.codec.consensusEncode h
  return Sha256d.hash w.bytes

theorem Header.lawful_fields :
    (i32.seq ((u8Array 32).seq ((u8Array 32).seq (u32.seq (u32.seq u32))))).IsLawful fun _ => True :=
  (lawful_i32.seq ((lawful_u8Array 32).seq ((lawful_u8Array 32).seq
    (lawful_u32.seq (lawful_u32.seq lawful_u32))))).congr fun _ => by simp

theorem Header.lawful : Header.codec.IsLawful fun _ => True :=
  Header.lawful_fields.implConsensusEncoding Header.equiv

theorem Header.bounded : Header.codec.Bounded :=
  Header.lawful_fields.bounded_implConsensusEncoding Header.equiv

theorem Header.length_encode {h : Header} {w : Written}
    (e : Header.codec.consensusEncode h = .ok w) : w.bytes.length = 80 := by
  obtain rfl := Outcome.ok.inj e
  simp

theorem Header.exists_encode (h : Header) : ∃ w, Header.codec.consensusEncode h = .ok w := ⟨_, rfl⟩

/-- The size limits of the transactions of a block are those of each of them. -/
theorem lawful_txdata : (vec Transaction.codec).IsLawful fun txs =>
    ∀ tx ∈ txs, ∀ t ∈ tx.input, t.witness.repr.indicesStart ≤ MAX_VEC_SIZE :=
  lawful_vec Transaction.lawful

theorem exists_txdata {txs : List Transaction} (hlen : txs.length < 2 ^ 64)
    (h : ∀ tx ∈ txs, tx.Sized) : ∃ w, (vec Transaction.codec).consensusEncode txs = .ok w :=
  Encoder.exists_counted (exists_encodeLen hlen) fun tx ht => Transaction.exists_encode (h tx ht)

theorem Block.lawful : Block.codec.IsLawful fun b =>
    ∀ tx ∈ b.txdata, ∀ t ∈ tx.input, t.witness.repr.indicesStart ≤ MAX_VEC_SIZE :=
  ((Header.lawful.seq lawful_txdata).implConsensusEncoding Block.equiv).congr
    fun _ => by simp [Block.equiv]

end Blockdata

abbrev PureHeader := Blockdata.Header

end RustDogecoin
