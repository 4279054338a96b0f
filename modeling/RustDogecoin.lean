import RustDogecoin.Lib.Outcome
import RustDogecoin.Lib.Bytes
import RustDogecoin.Lib.Codec
import RustDogecoin.Lib.Search
import RustDogecoin.Lib.Merkle
import RustDogecoin.Lib.Grid
import RustDogecoin.Consensus.Encode
import RustDogecoin.Hashes.Sha256
import RustDogecoin.Blockdata.Witness
import RustDogecoin.Blockdata.Transaction
import RustDogecoin.Blockdata.Block
import RustDogecoin.Dogecoin.Header
import RustDogecoin.Dogecoin.AuxPow
import RustDogecoin.Pow.U256
import RustDogecoin.Pow.Target
import RustDogecoin.Dogecoin.Params
import RustDogecoin.Pow.Retarget
import RustDogecoin.MerkleTree.Root
import RustDogecoin.MerkleTree.Block
import RustDogecoin.Bip152
import RustDogecoin.P2p.Address
import RustDogecoin.P2p.MessageBlockdata
import RustDogecoin.P2p.Payloads
import RustDogecoin.P2p.Message
import RustDogecoin.P2p.Command
import RustDogecoin.P2p.RoundTrip
import RustDogecoin.Lib.Numeral
import RustDogecoin.Base58
import RustDogecoin.Dogecoin.Address
import RustDogecoin.Blockdata.WitnessOps
import RustDogecoin.Lib.BitString
import RustDogecoin.Lib.SortedScan
import RustDogecoin.Hashes.Siphash24
import RustDogecoin.Bip158
import RustDogecoin.Hashes.Sha256t
import RustDogecoin.Hashes.Sha512
import RustDogecoin.Hashes.Ripemd160
import RustDogecoin.Lib.DepthFirst
import RustDogecoin.Taproot.Node
import RustDogecoin.Taproot.Builder
import RustDogecoin.Crypto.Secp256k1
import RustDogecoin.Bip32
import RustDogecoin.Lib.BTreeMap
import RustDogecoin.Crypto.Key
import RustDogecoin.Crypto.CurveFormats
import RustDogecoin.Taproot.ControlBlock
import RustDogecoin.Bip32.Encode
import RustDogecoin.Psbt.Raw
import RustDogecoin.Psbt.Map
import RustDogecoin.Psbt.Combine
import RustDogecoin.Psbt.Serialize
import RustDogecoin.Psbt.Formats
import RustDogecoin.Lib.Entries
import RustDogecoin.Psbt.Fields
import RustDogecoin.Psbt.MapLaws
import RustDogecoin.Psbt.RoundTrip
import RustDogecoin.Blockdata.Script
import RustDogecoin.Bitcoin.Address
import RustDogecoin.Lib.Effect
import RustDogecoin.Crypto.Sighash
import RustDogecoin.Crypto.SighashCache
import RustDogecoin.Crypto.SighashIndex
import RustDogecoin.Crypto.LegacySighash
import RustDogecoin.Lib.Commit
import RustDogecoin.Crypto.SigningMessage
import RustDogecoin.Psbt.CombineXpub
import RustDogecoin.Crypto.Wif
import RustDogecoin.Blockdata.Weight
import RustDogecoin.Psbt.Limits
import RustDogecoin.Psbt.Extract
import RustDogecoin.Crypto.Signing
import RustDogecoin.Psbt.Sign
import RustDogecoin.Crypto.SighashReturns
import RustDogecoin.Psbt.SpendUtxo
import RustDogecoin.Psbt.TaprootMessage
import RustDogecoin.Psbt.SignPanics
import RustDogecoin.Lib.Blocks
import RustDogecoin.Lib.Str
import RustDogecoin.Pow.Compact
import RustDogecoin.Pow.Mul
import RustDogecoin.Pow.Division
import RustDogecoin.Pow.Work
import RustDogecoin.Hashes.SiphashStream
import RustDogecoin.Hashes.Sha256Pad
import RustDogecoin.Blockdata.RelativeLockTime
import RustDogecoin.Units.Amount
import RustDogecoin.Units.Parse
import RustDogecoin.Units.Exact
import RustDogecoin.Units.RoundTrip
import RustDogecoin.Units.HexParse
import RustDogecoin.Pow.Hex
import RustDogecoin.Lib.MerkleCount
import RustDogecoin.MerkleTree.TopHash
import RustDogecoin.MerkleTree.Size
import RustDogecoin.Dogecoin.MerkleBranch
import RustDogecoin.P2p.SocketAddr
import RustDogecoin.Blockdata.Size
import RustDogecoin.Blockdata.PredictWeight
import RustDogecoin.Lib.Iteration
import RustDogecoin.Blockdata.Opcode
import RustDogecoin.Blockdata.Push
import RustDogecoin.Blockdata.Instruction
import RustDogecoin.Blockdata.InstructionRuns
import RustDogecoin.Blockdata.InstructionNth
import RustDogecoin.Blockdata.InstructionItems
import RustDogecoin.Blockdata.ScriptExtend
import RustDogecoin.Lib.SignMagnitude
import RustDogecoin.Blockdata.ScriptInt
import RustDogecoin.Blockdata.Multisig
import RustDogecoin.Blockdata.Sigops
import RustDogecoin.Blockdata.ScriptBuilder
import RustDogecoin.Dogecoin.AddressScript
import RustDogecoin.Lib.Selection
import RustDogecoin.Bip152.FromBlock
import RustDogecoin.Bip158.BitStream
import RustDogecoin.Bip158.Untrusted
import RustDogecoin.Lib.Huffman
import RustDogecoin.Taproot.Huffman
import RustDogecoin.Lib.Reader
import RustDogecoin.Taproot.Order
import RustDogecoin.Taproot.SpendInfo
import RustDogecoin.Taproot.Leaves
import RustDogecoin.Bip32.Codec
import RustDogecoin.Units.IntParse
import RustDogecoin.Bip32.Path
import RustDogecoin.Hex
import RustDogecoin.Blockdata.OutPointText
import RustDogecoin.Consensus.Generic
import RustDogecoin.Consensus.GenericTypes
import RustDogecoin.Consensus.IterReader
import RustDogecoin.Bitcoin.Retarget
import RustDogecoin.Blockdata.SigopCost
import RustDogecoin.Blockdata.Bip34
import RustDogecoin.Blockdata.OpcodeName
import RustDogecoin.Blockdata.ScriptAsm
import RustDogecoin.Lib.Stable
import RustDogecoin.Consensus.Stable
import RustDogecoin.Consensus.Serde
import RustDogecoin.Crypto.SerializedSignature
import RustDogecoin.Hashes.Sha1
import RustDogecoin.Hashes.Padding
import RustDogecoin.Hashes.Hmac
import RustDogecoin.Lib.Rounding
import RustDogecoin.Pow.Float
import RustDogecoin.Lib.ByteReader
import RustDogecoin.Io.Read
import RustDogecoin.Internals.ArrayVec
import RustDogecoin.Pow.Decimal
import RustDogecoin.Consensus.FiniteReader
import RustDogecoin.Bip158.BlockFilter
import RustDogecoin.Blockdata.Commitment
import RustDogecoin.Blockdata.LockTime
import RustDogecoin.Crypto.SegwitMessage
import RustDogecoin.Lib.Channel
import RustDogecoin.Lib.TreeProof
import RustDogecoin.MerkleTree.MerkleBlock
import RustDogecoin.P2p.Stream
import RustDogecoin.Psbt.GetKey
import RustDogecoin.Psbt.Parties
import RustDogecoin.Psbt.Wallet
import RustDogecoin.Taproot.Spend
