import RustDogecoin.Blockdata.Size
import RustDogecoin.Blockdata.WitnessOps
import RustDogecoin.Lib.Commit
import RustDogecoin.Lib.Entries
import RustDogecoin.Lib.MerkleSpread
import RustDogecoin.MerkleTree.Block

/-!
# What a header commits to

The checks of `blockdata/block.rs` that tie the transactions of a block to its header: the merkle root,
and the commitment to the witnesses in the coinbase.  `Block.check_merkle_root_iff_spread` says which
lists of transactions pass under one header, and `Block.block_hash_commits` that a block that passes both
checks is known from its block hash.  The only assumption on the hash is that no two of the messages that
are hashed on the way (`Block.Hashed`) collide.
-/

namespace RustDogecoin

open Merkle MerkleTree

abbrev WitnessMerkleNode := U8Array 32

abbrev WitnessCommitment := U8Array 32

/-- `OutPoint::null`. -/
def OutPoint.null : OutPoint := ⟨.replicate 32 0, 0xFFFFFFFF⟩

/-- Checks if an `OutPoint` is "null". -/
def OutPoint.isNull (o : OutPoint) : Bool := o = .null

/-- Checks if this is a coinbase transaction. -/
def Transaction.isCoinbase (tx : Transaction) : Bool :=
  match tx.input with
  | [input] => input.previousOutput.isNull
  | _ => false

/-- `calculate_root` over hashes. -/
def MerkleTree.calculateRootOf (hashes : List (U8Array 32)) : Outcome Empty (Option (U8Array 32)) :=
  calculateRoot PartialMerkleTree.parentHash hashes

namespace Blockdata.Block

/-- Computes the transaction merkle root. -/
def computeMerkleRoot (b : Block) : Outcome Empty (Option TxMerkleNode) := do
  let hashes ← b.txdata.mapM Transaction.computeTxid
  calculateRootOf hashes

/-- Checks if merkle root of header matches merkle root of the transaction list. -/
def checkMerkleRoot (b : Block) : Outcome Empty Bool := do
  match ← b.computeMerkleRoot with
  | some merkleRoot => return b.header.merkleRoot = merkleRoot
  | none => return false

/-- The hashes of the witness tree: the first one is replaced with zeroes. -/
def witnessHashes : List Transaction → Outcome Empty (List (U8Array 32))
  | [] => return []
  | _ :: txs => do
    let hashes ← txs.mapM Transaction.computeWtxid
    return .replicate 32 0 :: hashes

/-- Computes the merkle root of transactions hashed for witness. -/
def witnessRoot (b : Block) : Outcome Empty (Option WitnessMerkleNode) := do
  let hashes ← witnessHashes b.txdata
  calculateRootOf hashes

/-- Computes the witness commitment for the block's transaction list. -/
def computeWitnessCommitment (witnessRoot : WitnessMerkleNode) (witnessReservedValue : Bytes) :
    WitnessCommitment :=
  Sha256d.hash (witnessRoot.toList ++ witnessReservedValue)

def MAGIC : Bytes := [0x6a, 0x24, 0xaa, 0x21, 0xa9, 0xed]

/-- There are no transactions using SegWit in the block. -/
def noWitness (b : Block) : Bool := b.txdata.all fun t => t.input.all fun i => i.witness.isEmpty

/-- The last output that starts with magic bytes. -/
def commitmentOutput (coinbase : Transaction) : Option TxOut :=
  coinbase.output.reverse.find? fun o => 38 ≤ o.scriptPubkey.length ∧ o.scriptPubkey.take 6 = MAGIC

/-- Checks if witness commitment in coinbase matches the transaction list. -/
def checkWitnessCommitment (b : Block) : Outcome Empty Bool := do
  if b.noWitness then return true
  else
    match b.txdata with
    | [] => return false
    | coinbase :: _ =>
      if !coinbase.isCoinbase then return false
      else
        match commitmentOutput coinbase with
        | none => return false
        | some o =>
          let commitment := (o.scriptPubkey.drop 6).take 32
          -- witness reserved value is in coinbase input witness
          let input ← indexSlice coinbase.input 0
          match ← input.witness.repr.toVec with
          | [witnessReservedValue] =>
            if witnessReservedValue.length = 32 then
              match ← b.witnessRoot with
              | some witnessRoot =>
                return commitment = (computeWitnessCommitment witnessRoot witnessReservedValue).toList
              | none => return false
            else return false
          | _ => return false

end Blockdata.Block

/-! ## Transactions without their witnesses -/

namespace Transaction

variable {tx tx' : Transaction} {w w' : Written}

/-- The transaction as a node sees it that does not know of witnesses. -/
def stripped (tx : Transaction) : Transaction := { tx with input := tx.input.map strip }

theorem encodeStripped_stripped (tx : Transaction) :
    encodeStripped tx.stripped = encodeStripped tx := by
  simp only [encodeStripped, stripped, encode_map_strip]

theorem computeWtxid_eq_ok_iff {wtxid : Wtxid} : tx.computeWtxid = .ok wtxid ↔
    ∃ w, consensusEncode tx = .ok w ∧ Sha256d.hash w.bytes = wtxid := by
  rw [computeWtxid, Outcome.bind_eq_ok_iff]
  simp only [Outcome.pure_eq_ok, Outcome.ok.injEq]
  rfl

theorem Allocated.stripped (h : tx.Allocated) : tx.stripped.Allocated := by
  refine ⟨?_, ?_, ?_, h.output, h.scriptPubkey⟩
  · rw [Transaction.stripped, List.length_map]
    exact h.input
  · intro t ht
    obtain ⟨t', ht', rfl⟩ := List.mem_map.1 ht
    exact h.scriptSig t' ht'
  · intro t ht
    obtain ⟨t', -, rfl⟩ := List.mem_map.1 ht
    exact show 0 < 2 ^ 63 by decide

theorem computeTxid_stripped (tx : Transaction) : tx.stripped.computeTxid = tx.computeTxid := by
  rw [computeTxid_eq, computeTxid_eq, encodeStripped_stripped]

/-- The message of a txid determines everything but the witnesses. -/
theorem stripped_eq_of_bytes_eq (e : encodeStripped tx = .ok w) (e' : encodeStripped tx' = .ok w')
    (hbytes : w.bytes = w'.bytes) : tx.stripped = tx'.stripped := by
  obtain ⟨v, i, o, l, hv, hi, ho, hl, rfl⟩ := encodeStripped_eq_ok_iff.1 e
  obtain ⟨v', i', o', l', hv', hi', ho', hl', rfl⟩ := encodeStripped_eq_ok_iff.1 e'
  have hstrip : ∀ (input : List TxIn), ∀ t ∈ input.map strip, t.witness = Witness.new := by
    intro input t ht
    obtain ⟨t', -, rfl⟩ := List.mem_map.1 ht
    rfl
  rw [← encode_map_strip] at hi hi'
  simp only [Written.bytes_append, List.append_assoc] at hbytes
  obtain ⟨hversion, hbytes⟩ := lawful_i32.finite.roundTrips.append_inj trivial trivial hv hv' hbytes
  obtain ⟨hinput, hbytes⟩ := (lawful_vec TxIn.lawful).finite.roundTrips.append_inj (hstrip _) (hstrip _)
    hi hi' hbytes
  obtain ⟨houtput, hbytes⟩ := (lawful_vec TxOut.lawful).finite.roundTrips.append_inj
    (fun _ _ => trivial) (fun _ _ => trivial) ho ho' hbytes
  have hlock := LockTime.lawful.finite.roundTrips.encode_injective trivial trivial hl hl' hbytes
  rw [stripped, stripped, hversion, hlock, hinput, houtput]

end Transaction

/-! ## Witnesses -/

/-- An element is told from what follows by the length in front of it. -/
theorem elementBytes_append_inj {elem elem' r s : Bytes} (h : elem.length < 2 ^ 64)
    (h' : elem'.length < 2 ^ 64) (hbytes : elementBytes elem ++ r = elementBytes elem' ++ s) :
    elem = elem' ∧ r = s := by
  rw [elementBytes, elementBytes, List.append_assoc, List.append_assoc] at hbytes
  obtain ⟨hlen, hbytes⟩ := VarInt.roundTrips.append_inj trivial trivial rfl rfl hbytes
  rw [VarInt.mk.injEq] at hlen
  have hcount := congrArg UInt64.toNat hlen
  rw [UInt64.toNat_ofNat_of_lt' h, UInt64.toNat_ofNat_of_lt' h'] at hcount
  exact List.append_inj hbytes hcount

theorem flatMap_elementBytes_inj {elems elems' : List Bytes} (hlen : elems.length = elems'.length)
    (h : ∀ elem ∈ elems, elem.length < 2 ^ 64) (h' : ∀ elem ∈ elems', elem.length < 2 ^ 64) {r s : Bytes}
    (hbytes : elems.flatMap elementBytes ++ r = elems'.flatMap elementBytes ++ s) :
    elems = elems' ∧ r = s := by
  induction elems generalizing elems' with
  | nil =>
    obtain rfl := List.length_eq_zero_iff.1 hlen.symm
    exact ⟨rfl, hbytes⟩
  | cons elem elems ih =>
    obtain ⟨elem', elems', rfl⟩ := List.exists_cons_of_length_eq_add_one hlen.symm
    rw [List.flatMap_cons, List.flatMap_cons, List.append_assoc, List.append_assoc] at hbytes
    rw [List.forall_mem_cons] at h h'
    obtain ⟨rfl, htail⟩ := elementBytes_append_inj h.1 h'.1 hbytes
    obtain ⟨rfl, hrest⟩ := ih (by simpa using hlen) h.2 h'.2 htail
    exact ⟨rfl, hrest⟩

/-- The encoder of witnesses is prefix free on all of them, also on those that are too long for the
decoder. -/
theorem Witness.prefixFree : Witness.codec.consensusEncode.PrefixFree := by
  rintro ⟨_, elems, hp, rfl⟩ ⟨_, elems', hp', rfl⟩ w v e e' r s hbytes
  obtain ⟨u, hu, rfl⟩ := WitnessRepr.consensusEncode_pack.1 e
  obtain ⟨u', hu', rfl⟩ := WitnessRepr.consensusEncode_pack.1 e'
  simp only [List.append_assoc] at hbytes
  obtain ⟨hlen, hbytes⟩ := lawful_len.roundTrips.append_inj trivial trivial hu hu' hbytes
  obtain ⟨rfl, hrest⟩ := flatMap_elementBytes_inj hlen hp.length_lt hp'.length_lt hbytes
  exact ⟨rfl, hrest⟩

/-- A witness is known from what its iterator returns. -/
theorem Witness.eq_of_toVec_eq {w w' : Witness} (hw : w.repr.content.length < 2 ^ 63)
    (hw' : w'.repr.content.length < 2 ^ 63) (h : w.repr.toVec = w'.repr.toVec) : w = w' := by
  obtain ⟨_, elems, hp, rfl⟩ := w
  obtain ⟨_, elems', hp', rfl⟩ := w'
  have hholds : (pack elems).Holds elems := ⟨rfl, hp, hw⟩
  have hholds' : (pack elems').Holds elems' := ⟨rfl, hp', hw'⟩
  have hvec : (Outcome.ok elems : Outcome Empty _) = .ok elems' := by
    rw [← hholds.toVec_eq, ← hholds'.toVec_eq]
    exact h
  cases hvec
  rfl

namespace Transaction

variable {tx tx' : Transaction} {w w' : Written}

theorem baseSize_stripped (tx : Transaction) : tx.stripped.baseSize = tx.baseSize := by
  simp only [baseSize, stripped, List.map_map, List.length_map]
  rfl

theorem strip_witness_injective : Function.Injective fun t : TxIn => (strip t, t.witness) := by
  rintro ⟨o, s, n, w⟩ ⟨o', s', n', w'⟩ h
  simpa [strip, TxIn.ofFields, TxIn.fields, and_assoc] using h

/-- Transactions that agree but for the witnesses agree if their inputs have the same witnesses. -/
theorem eq_of_stripped_eq (h : tx.stripped = tx'.stripped)
    (hwitness : tx.input.map TxIn.witness = tx'.input.map TxIn.witness) : tx = tx' := by
  have hpairs : tx.input.map (fun t => (strip t, t.witness)) = tx'.input.map fun t => (strip t, t.witness) := by
    have hstrip : tx.input.map strip = tx'.input.map strip := congrArg Transaction.input h
    rw [← List.zip_map', ← List.zip_map', hstrip, hwitness]
  have hinput : tx.input = tx'.input := List.map_injective_iff.2 strip_witness_injective hpairs
  obtain ⟨version, lockTime, input, output⟩ := tx
  obtain ⟨version', lockTime', input', output'⟩ := tx'
  simp only [stripped, Transaction.mk.injEq] at h hinput ⊢
  exact ⟨h.1, h.2.1, hinput, h.2.2.2⟩

/-- The message of a wtxid determines the witnesses as well. -/
theorem eq_of_bytes_eq (hstripped : tx.stripped = tx'.stripped) (e : consensusEncode tx = .ok w)
    (e' : consensusEncode tx' = .ok w') (hbytes : w.bytes = w'.bytes) : tx = tx' := by
  have hbase : tx.baseSize = tx'.baseSize := by
    rw [← baseSize_stripped, ← baseSize_stripped tx', hstripped]
  have hsize : tx.encodedSize = tx'.encodedSize := by
    rw [← measures _ _ e, ← measures _ _ e', hbytes]
  have hinput : tx.input.length = tx'.input.length := by
    have h := congrArg (fun t => t.input.length) hstripped
    simpa [stripped] using h
  apply eq_of_stripped_eq hstripped
  -- the two layouts differ in length
  cases hseg : tx.usesSegwitSerialization <;> cases hseg' : tx'.usesSegwitSerialization
  · have hnew := (usesSegwitSerialization_eq_false_iff.1 hseg).1
    have hnew' := (usesSegwitSerialization_eq_false_iff.1 hseg').1
    rw [List.map_congr_left hnew, List.map_congr_left hnew', List.map_const', List.map_const', hinput]
  · rw [encodedSize, encodedSize, hseg, hseg', hbase] at hsize
    simp at hsize
  · rw [encodedSize, encodedSize, hseg, hseg', hbase] at hsize
    simp at hsize
  · obtain ⟨v, i, o, ws, l, hv, hi, ho, hws, hl, rfl⟩ := (consensusEncode_segwit hseg).1 e
    obtain ⟨v', i', o', ws', l', hv', hi', ho', hws', hl', rfl⟩ := (consensusEncode_segwit hseg').1 e'
    have hv'' : i32.consensusEncode tx.stripped.version = .ok v' := by rw [hstripped]; exact hv'
    have hi'' : (vec TxIn.codec).consensusEncode tx.stripped.input = .ok i' := by
      rw [hstripped, stripped, encode_map_strip]
      exact hi'
    have ho'' : (vec TxOut.codec).consensusEncode tx.stripped.output = .ok o' := by
      rw [hstripped]
      exact ho'
    rw [stripped, encode_map_strip] at hi''
    obtain rfl : v = v' := Outcome.ok.inj (hv.symm.trans hv'')
    obtain rfl : i = i' := Outcome.ok.inj (hi.symm.trans hi'')
    obtain rfl : o = o' := Outcome.ok.inj (ho.symm.trans ho'')
    simp only [Written.bytes_append, List.append_assoc, List.append_cancel_left_eq] at hbytes
    exact (Witness.prefixFree.list (by rw [List.length_map, List.length_map, hinput]) hws hws' hbytes).1

end Transaction

/-! ## Trees of hashes -/

section

variable {hs hs' : List (U8Array 32)}

/-- What is hashed for a pair of nodes. -/
def pairBytes (p : U8Array 32 × U8Array 32) : Bytes := p.1.toList ++ p.2.toList

theorem pairBytes_injective : Function.Injective pairBytes := by
  intro p q h
  obtain ⟨hleft, hright⟩ := List.append_inj h (by rw [p.1.length_eq, q.1.length_eq])
  exact Prod.ext (U8Array.ext hleft) (U8Array.ext hright)

theorem length_pairBytes (p : U8Array 32 × U8Array 32) : (pairBytes p).length = 64 := by
  rw [pairBytes, List.length_append, p.1.length_eq, p.2.length_eq]

theorem hashPair_eq (p : U8Array 32 × U8Array 32) :
    hashPair PartialMerkleTree.parentHash p = Sha256d.hash (pairBytes p) := rfl

/-- The root over some hashes. -/
def rootNode (hs : List (U8Array 32)) : U8Array 32 :=
  nodeAt PartialMerkleTree.parentHash hs.length (leafOf hs) (height hs.length) 0

/-- The pairs that are hashed above some hashes. -/
def nodePairs (hs : List (U8Array 32)) : List (U8Array 32 × U8Array 32) :=
  treePairs PartialMerkleTree.parentHash hs.length (leafOf hs) (height hs.length)

theorem calculateRootOf_eq_some_iff {root : U8Array 32} :
    calculateRootOf hs = .ok (some root) ↔ hs ≠ [] ∧ root = rootNode hs := by
  rw [calculateRootOf]
  by_cases hne : hs = []
  · subst hne
    simp [calculateRoot]
  · rw [calculateRoot_eq hne]
    simp [hne, rootNode, eq_comm]

variable {S : Set Bytes}

theorem injOn_pairs {ps qs : List (U8Array 32 × U8Array 32)} (hinj : Set.InjOn Sha256d.hash S)
    (h : ∀ p ∈ ps, pairBytes p ∈ S) (h' : ∀ q ∈ qs, pairBytes q ∈ S) :
    Set.InjOn (hashPair PartialMerkleTree.parentHash) {q | q ∈ ps ++ qs} := by
  have hmem : ∀ q ∈ ps ++ qs, pairBytes q ∈ S := by
    intro q hq
    exact (List.mem_append.1 hq).elim (h q) (h' q)
  intro p hp q hq hpq
  rw [hashPair_eq, hashPair_eq] at hpq
  exact pairBytes_injective (hinj (hmem p hp) (hmem q hq) hpq)

/-- The hash of a message that is not as long as a pair of nodes is not that of a pair. -/
theorem ne_hashPair {x : U8Array 32} {q : U8Array 32 × U8Array 32} (hinj : Set.InjOn Sha256d.hash S)
    (hx : ∃ m ∈ S, m.length ≠ 64 ∧ x = Sha256d.hash m) (hq : pairBytes q ∈ S) :
    x ≠ hashPair PartialMerkleTree.parentHash q := by
  obtain ⟨m, hm, hlen, rfl⟩ := hx
  intro e
  rw [hinj hm hq e, length_pairBytes] at hlen
  exact hlen rfl

/-- The root over hashes of messages that are not as long as a pair of nodes. -/
theorem spread_eq_of_rootNode_eq (hne : hs ≠ []) (hne' : hs' ≠ []) (hinj : Set.InjOn Sha256d.hash S)
    (h : ∀ p ∈ nodePairs hs, pairBytes p ∈ S) (h' : ∀ p ∈ nodePairs hs', pairBytes p ∈ S)
    (hleaf : ∀ x ∈ hs ++ hs', ∃ m ∈ S, m.length ≠ 64 ∧ x = Sha256d.hash m)
    (hroot : rootNode hs = rootNode hs') :
    spread hs.length (leafOf hs) (height hs.length) 0 =
      spread hs'.length (leafOf hs') (height hs'.length) 0 := by
  have hpos := List.length_pos_iff.2 hne
  have hpos' := List.length_pos_iff.2 hne'
  have hfirst : leafOf hs 0 ∈ hs ++ hs' :=
    List.mem_append_left _ (List.mem_of_getElem? (getElem?_leafOf hpos))
  have hfirst' : leafOf hs' 0 ∈ hs ++ hs' :=
    List.mem_append_right _ (List.mem_of_getElem? (getElem?_leafOf hpos'))
  exact (spread_eq_of_root_eq hpos hpos' (injOn_pairs hinj h h')
    (fun q hq => ne_hashPair hinj (hleaf _ hfirst) (h' q hq))
    (fun q hq => ne_hashPair hinj (hleaf _ hfirst') (h q hq)) hroot).2

/-- A partial tree with the root over such hashes marks no others. -/
theorem mem_of_found {h : ℕ} {t : PartialTree (U8Array 32) h} {x : U8Array 32} (hne : hs ≠ [])
    (hinj : Set.InjOn Sha256d.hash S) (hnodes : ∀ p ∈ nodePairs hs, pairBytes p ∈ S)
    (hproof : ∀ p ∈ t.pairs PartialMerkleTree.parentHash, pairBytes p ∈ S)
    (hleaf : ∀ y ∈ x :: hs, ∃ m ∈ S, m.length ≠ 64 ∧ y = Sha256d.hash m)
    (hroot : t.root PartialMerkleTree.parentHash = rootNode hs) (hx : x ∈ (t.found 0).map Prod.snd) :
    x ∈ hs := by
  have hpos := List.length_pos_iff.2 hne
  have hmem : ∀ i, i < hs.length → leafOf hs i ∈ hs :=
    fun i hi => List.mem_of_getElem? (getElem?_leafOf hi)
  obtain ⟨p, hp, rfl⟩ := List.mem_map.1 hx
  have hzero : 0 * 2 ^ height hs.length < hs.length := by rwa [Nat.zero_mul]
  obtain ⟨i, hi, hfound⟩ := PartialTree.exists_leaf_of_found (injOn_pairs hinj hproof hnodes) le_rfl hzero hroot
    (fun i hi q hq => ne_hashPair hinj (hleaf _ (List.mem_cons_of_mem _ (hmem i hi))) (hproof q hq)) hp
    (fun q hq => ne_hashPair hinj (hleaf _ List.mem_cons_self) (hnodes q hq))
  rw [hfound]
  exact hmem i hi

/-- The root over hashes of a known number. -/
theorem eq_of_rootNode_eq (hne : hs ≠ []) (hlen : hs.length = hs'.length)
    (hinj : Set.InjOn Sha256d.hash S) (h : ∀ p ∈ nodePairs hs, pairBytes p ∈ S)
    (h' : ∀ p ∈ nodePairs hs', pairBytes p ∈ S) (hroot : rootNode hs = rootNode hs') : hs = hs' := by
  have hpos := List.length_pos_iff.2 hne
  have hpairs := injOn_pairs hinj h h'
  rw [rootNode, rootNode] at hroot
  rw [nodePairs, nodePairs] at hpairs
  rw [← hlen] at hroot hpairs
  have hspread := spread_injective hpairs le_rfl le_rfl (by omega) (by omega) hroot
  have hmap := map_eq_of_spread_eq_of_length hpos (le_two_pow_height _) hspread
  rw [map_leafOf_range, hlen, map_leafOf_range] at hmap
  exact hmap

end

/-! ## Blocks -/

namespace Transaction

/-- The txid, where the lengths of the transaction can be written. -/
def txid (tx : Transaction) : Txid :=
  match tx.computeTxid with
  | .ok txid => txid
  | _ => default

variable {tx tx' : Transaction}

theorem txid_of_encodeStripped {w : Written} (e : encodeStripped tx = .ok w) :
    tx.txid = Sha256d.hash w.bytes := by
  rw [txid, computeTxid_eq, e]
  rfl

theorem computeTxid_eq_txid (h : tx.Sized) : tx.computeTxid = .ok tx.txid := by
  obtain ⟨w, e⟩ := exists_encodeStripped h
  rw [txid_of_encodeStripped e, computeTxid_eq, e]
  rfl

theorem txid_stripped (tx : Transaction) : tx.stripped.txid = tx.txid := by
  rw [txid, txid, computeTxid_stripped]

end Transaction

namespace Blockdata.Block

variable {b b' : Block}

/-- The messages that are hashed for the hash of a block and by the two checks. -/
inductive Hashed (b : Block) : Bytes → Prop
  | header {w : Written} (e : Header.codec.consensusEncode b.header = .ok w) : Hashed b w.bytes
  | txid {tx : Transaction} {w : Written} (h : tx ∈ b.txdata) (e : tx.encodeStripped = .ok w) :
    Hashed b w.bytes
  | node {p : U8Array 32 × U8Array 32} (h : p ∈ nodePairs (b.txdata.map Transaction.txid)) :
    Hashed b (pairBytes p)
  | wtxid {tx : Transaction} {w : Written} (h : tx ∈ b.txdata.tail) (e : tx.consensusEncode = .ok w) :
    Hashed b w.bytes
  | witnessNode {hashes : List (U8Array 32)} {p : U8Array 32 × U8Array 32}
    (e : witnessHashes b.txdata = .ok hashes) (h : p ∈ nodePairs hashes) : Hashed b (pairBytes p)
  | commitment {root : WitnessMerkleNode} {tx : Transaction} {input : TxIn} {reserved : Bytes}
    (e : b.witnessRoot = .ok (some root)) (htx : tx ∈ b.txdata.head?) (hinput : input ∈ tx.input)
    (hreserved : input.witness.repr.toVec = .ok [reserved]) : Hashed b (root.toList ++ reserved)

/-- The messages that are hashed for two blocks do not collide. -/
def CollisionFree (b b' : Block) : Prop := Set.InjOn Sha256d.hash {m | b.Hashed m ∨ b'.Hashed m}

/-- The block as a node sees it that does not know of witnesses. -/
def stripped (b : Block) : Block := { b with txdata := b.txdata.map Transaction.stripped }

/-- The transactions without witnesses, with the repetitions that complete the merkle tree. -/
def spreadTxdata (b : Block) : List (Option Transaction) :=
  spread b.txdata.length (fun i => b.stripped.txdata[i]?) (height b.txdata.length) 0

theorem computeTxids_eq (hb : b.Allocated) :
    b.txdata.mapM Transaction.computeTxid = .ok (b.txdata.map Transaction.txid) :=
  Outcome.mapM_of_forall fun tx htx => Transaction.computeTxid_eq_txid (hb.transaction tx htx).sized

theorem checkMerkleRoot_iff (hb : b.Allocated) :
    b.checkMerkleRoot = .ok true ↔
      b.txdata ≠ [] ∧ b.header.merkleRoot = rootNode (b.txdata.map Transaction.txid) := by
  rw [checkMerkleRoot, computeMerkleRoot, computeTxids_eq hb, Outcome.ok_bind, Outcome.bind_eq_ok_iff]
  constructor
  · rintro ⟨root, hroot, h⟩
    cases root with
    | none => cases h
    | some root =>
      obtain ⟨hne, rfl⟩ := calculateRootOf_eq_some_iff.1 hroot
      exact ⟨mt List.map_eq_nil_iff.2 hne, by simpa using h⟩
  · rintro ⟨hne, hroot⟩
    refine ⟨_, calculateRootOf_eq_some_iff.2 ⟨mt List.map_eq_nil_iff.1 hne, rfl⟩, ?_⟩
    simp [hroot]

/-- Txids tell apart transactions that differ in more than their witnesses. -/
theorem stripped_eq_of_txid_eq (hb : b.Allocated) (hb' : b'.Allocated) (hfree : b.CollisionFree b')
    {tx tx' : Transaction} (htx : tx ∈ b.txdata ++ b'.txdata) (htx' : tx' ∈ b.txdata ++ b'.txdata)
    (h : tx.txid = tx'.txid) : tx.stripped = tx'.stripped := by
  have hmsg : ∀ t ∈ b.txdata ++ b'.txdata, ∃ w, t.encodeStripped = .ok w ∧
      (b.Hashed w.bytes ∨ b'.Hashed w.bytes) := by
    intro t ht
    rcases List.mem_append.1 ht with ht | ht
    · obtain ⟨w, e⟩ := Transaction.exists_encodeStripped (hb.transaction t ht).sized
      exact ⟨w, e, .inl (.txid ht e)⟩
    · obtain ⟨w, e⟩ := Transaction.exists_encodeStripped (hb'.transaction t ht).sized
      exact ⟨w, e, .inr (.txid ht e)⟩
  obtain ⟨w, e, hw⟩ := hmsg tx htx
  obtain ⟨w', e', hw'⟩ := hmsg tx' htx'
  rw [Transaction.txid_of_encodeStripped e, Transaction.txid_of_encodeStripped e'] at h
  exact Transaction.stripped_eq_of_bytes_eq e e' (hfree hw hw' h)

/-- The leaves of the merkle tree are the txids of the transactions. -/
theorem map_spreadTxdata (b : Block) :
    b.spreadTxdata.map (fun tx => (tx.map Transaction.txid).getD default) =
      spread (b.txdata.map Transaction.txid).length (leafOf (b.txdata.map Transaction.txid))
        (height (b.txdata.map Transaction.txid).length) 0 := by
  have hleaf : ∀ i, (b.stripped.txdata[i]?.map Transaction.txid).getD default =
      leafOf (b.txdata.map Transaction.txid) i := by
    intro i
    rw [leafOf, List.getD_eq_getElem?_getD, List.getElem?_map, stripped, List.getElem?_map,
      Option.map_map]
    congr 2
    funext tx
    exact Transaction.txid_stripped tx
  rw [spreadTxdata, map_spread, funext hleaf, List.length_map]

theorem mem_spreadTxdata (hne : b.txdata ≠ []) {tx : Option Transaction} (h : tx ∈ b.spreadTxdata) :
    ∃ t ∈ b.txdata, tx = some t.stripped := by
  have hmem := mem_spread_top (List.length_pos_iff.2 hne) (le_two_pow_height _) h
  obtain ⟨i, hi, rfl⟩ := List.mem_map.1 hmem
  rw [List.mem_range] at hi
  refine ⟨b.txdata[i], List.getElem_mem hi, ?_⟩
  rw [stripped, List.getElem?_map, List.getElem?_eq_getElem hi]
  rfl

/-- The root of the txids says what the transactions spread to. -/
theorem rootNode_eq_iff_spread (hb : b.Allocated) (hb' : b'.Allocated) (hne : b.txdata ≠ [])
    (hne' : b'.txdata ≠ []) (hsize : ∀ tx ∈ b.txdata ++ b'.txdata, tx.baseSize ≠ 64)
    (hfree : b.CollisionFree b') :
    rootNode (b.txdata.map Transaction.txid) = rootNode (b'.txdata.map Transaction.txid) ↔
      b.spreadTxdata = b'.spreadTxdata := by
  have hmap := map_spreadTxdata b
  have hmap' := map_spreadTxdata b'
  constructor
  · intro hroot
    have hspread := spread_eq_of_rootNode_eq (mt List.map_eq_nil_iff.1 hne)
      (mt List.map_eq_nil_iff.1 hne') hfree (fun p hp => .inl (.node hp)) (fun p hp => .inr (.node hp))
      ?_ hroot
    · rw [← hmap, ← hmap'] at hspread
      refine eq_of_map_eq ?_ hspread
      have hstripped : ∀ tx ∈ b.spreadTxdata ++ b'.spreadTxdata,
          ∃ t ∈ b.txdata ++ b'.txdata, tx = some t.stripped := by
        intro tx htx
        rcases List.mem_append.1 htx with htx | htx
        · obtain ⟨t, ht, rfl⟩ := mem_spreadTxdata hne htx
          exact ⟨t, List.mem_append_left _ ht, rfl⟩
        · obtain ⟨t, ht, rfl⟩ := mem_spreadTxdata hne' htx
          exact ⟨t, List.mem_append_right _ ht, rfl⟩
      intro tx htx tx' htx' h
      obtain ⟨t, ht, rfl⟩ := hstripped tx htx
      obtain ⟨t', ht', rfl⟩ := hstripped tx' htx'
      have htxid : t.txid = t'.txid := by simpa [Transaction.txid_stripped] using h
      rw [stripped_eq_of_txid_eq hb hb' hfree ht ht' htxid]
    · intro x hx
      rw [← List.map_append] at hx
      obtain ⟨tx, htx, rfl⟩ := List.mem_map.1 hx
      rcases List.mem_append.1 htx with h | h
      · obtain ⟨w, e⟩ := Transaction.exists_encodeStripped (hb.transaction tx h).sized
        refine ⟨w.bytes, .inl (.txid h e), ?_, Transaction.txid_of_encodeStripped e⟩
        rw [Transaction.measures_encodeStripped _ _ e]
        exact hsize tx htx
      · obtain ⟨w, e⟩ := Transaction.exists_encodeStripped (hb'.transaction tx h).sized
        refine ⟨w.bytes, .inr (.txid h e), ?_, Transaction.txid_of_encodeStripped e⟩
        rw [Transaction.measures_encodeStripped _ _ e]
        exact hsize tx htx
  · intro hspread
    rw [hspread, hmap'] at hmap
    have hlen := congrArg List.length hmap
    rw [length_spread, length_spread] at hlen
    have hheight := Nat.pow_right_injective le_rfl hlen
    rw [hheight] at hmap
    exact (nodeAt_congr hmap.symm).trans (by rw [rootNode, hheight])

theorem ne_nil_of_spreadTxdata (hne : b.txdata ≠ []) (h : b'.spreadTxdata = b.spreadTxdata) :
    b'.txdata ≠ [] := by
  intro hnil
  have hnone : none ∈ b'.spreadTxdata := by
    rw [spreadTxdata, hnil]
    simp [spread, height, stripped, hnil]
  rw [h] at hnone
  obtain ⟨t, -, e⟩ := mem_spreadTxdata hne hnone
  cases e

/-- The header of a block lets exactly those transactions through, witnesses apart, that spread to the
same list. -/
theorem check_merkle_root_iff_spread (hb : b.Allocated) (hb' : b'.Allocated)
    (hsize : ∀ tx ∈ b.txdata ++ b'.txdata, tx.baseSize ≠ 64) (hfree : b.CollisionFree b')
    (hheader : b'.header = b.header) (hcheck : b.checkMerkleRoot = .ok true) :
    b'.checkMerkleRoot = .ok true ↔ b'.spreadTxdata = b.spreadTxdata := by
  obtain ⟨hne, hroot⟩ := (checkMerkleRoot_iff hb).1 hcheck
  rw [checkMerkleRoot_iff hb', hheader, hroot]
  constructor
  · rintro ⟨hne', hroot'⟩
    exact ((rootNode_eq_iff_spread hb hb' hne hne' hsize hfree).1 hroot').symm
  · intro hspread
    have hne' := ne_nil_of_spreadTxdata hne hspread
    exact ⟨hne', (rootNode_eq_iff_spread hb hb' hne hne' hsize hfree).2 hspread.symm⟩

/-- Transactions that differ in more than their witnesses are known from what they spread to. -/
theorem stripped_txdata_eq (hne : b.txdata ≠ []) (hne' : b'.txdata ≠ [])
    (hnodup : b.stripped.txdata.Nodup) (hnodup' : b'.stripped.txdata.Nodup)
    (hspread : b.spreadTxdata = b'.spreadTxdata) : b.stripped.txdata = b'.stripped.txdata := by
  have hsome : ∀ c : Block, ((List.range c.txdata.length).map fun i => c.stripped.txdata[i]?) =
      c.stripped.txdata.map some := by
    intro c
    apply List.ext_getElem
    · simp [stripped]
    · intro i hi hi'
      simp [stripped, List.getElem?_eq_getElem (by simpa [stripped] using hi' : i < c.txdata.length)]
  have hlen := congrArg List.length hspread
  rw [spreadTxdata, spreadTxdata, length_spread, length_spread] at hlen
  have hheight := Nat.pow_right_injective le_rfl hlen
  rw [spreadTxdata, spreadTxdata, ← hheight] at hspread
  have hmap := map_eq_of_spread_eq (List.length_pos_iff.2 hne) (List.length_pos_iff.2 hne')
    (le_two_pow_height _) (hheight ▸ le_two_pow_height _) hspread
    (by rw [hsome]; exact hnodup.map (Option.some_injective _))
    (by rw [hsome]; exact hnodup'.map (Option.some_injective _))
  rw [hsome, hsome] at hmap
  exact List.map_injective_iff.2 (Option.some_injective _) hmap

/-! ### The witness commitment -/

/-- The parts that a witness commitment is checked with. -/
structure Committed (b : Block) (coinbase : Transaction) (txs : List Transaction) (input : TxIn)
    (o : TxOut) (root : WitnessMerkleNode) (reserved : Bytes) : Prop where
  txdata_eq : b.txdata = coinbase :: txs
  input_eq : coinbase.input = [input]
  output_eq : commitmentOutput coinbase = some o
  reserved_eq : input.witness.repr.toVec = .ok [reserved]
  length_reserved : reserved.length = 32
  root_eq : b.witnessRoot = .ok (some root)
  commitment_eq : (o.scriptPubkey.drop 6).take 32 = (computeWitnessCommitment root reserved).toList

theorem exists_committed (hcheck : b.checkWitnessCommitment = .ok true) (hsome : b.noWitness = false) :
    ∃ coinbase txs input o root reserved, Committed b coinbase txs input o root reserved := by
  rw [checkWitnessCommitment, hsome, if_neg (by decide)] at hcheck
  rcases htxdata : b.txdata with _ | ⟨coinbase, txs⟩
  · rw [htxdata] at hcheck
    cases hcheck
  rw [htxdata] at hcheck
  dsimp only at hcheck
  obtain ⟨input, hinput⟩ : ∃ input, coinbase.input = [input] ∧ coinbase.isCoinbase = true := by
    cases hcoinbase : coinbase.isCoinbase with
    | false =>
      rw [hcoinbase] at hcheck
      cases hcheck
    | true =>
      have h := hcoinbase
      unfold Transaction.isCoinbase at h
      split at h
      · exact ⟨_, ‹_›, rfl⟩
      · cases h
  rw [hinput.2, hinput.1, Bool.not_true, if_neg (by decide)] at hcheck
  cases houtput : commitmentOutput coinbase with
  | none =>
    rw [houtput] at hcheck
    cases hcheck
  | some o =>
    rw [houtput] at hcheck
    obtain ⟨input', hindex, hcheck⟩ := Outcome.bind_eq_ok_iff.1 hcheck
    cases hindex
    obtain ⟨elems, hvec, hcheck⟩ := Outcome.bind_eq_ok_iff.1 hcheck
    split at hcheck
    · split_ifs at hcheck with hlen
      · obtain ⟨root, hroot, hcheck⟩ := Outcome.bind_eq_ok_iff.1 hcheck
        cases root with
        | none => cases hcheck
        | some root =>
          refine ⟨coinbase, txs, input, o, root, _, htxdata, hinput.1, houtput, hvec, hlen, hroot, ?_⟩
          simpa using hcheck
      · cases hcheck
    · cases hcheck

theorem Committed.checkWitnessCommitment_eq {coinbase : Transaction} {txs : List Transaction} {input : TxIn}
    {o : TxOut} {root : WitnessMerkleNode} {reserved : Bytes}
    (h : Committed b coinbase txs input o root reserved) (hcoinbase : coinbase.isCoinbase = true) :
    b.checkWitnessCommitment = .ok true := by
  rw [checkWitnessCommitment]
  split_ifs
  · rfl
  · rw [h.txdata_eq]
    dsimp only
    rw [hcoinbase, h.output_eq, h.input_eq, Bool.not_true, if_neg (by decide)]
    have hindex : (indexSlice [input] 0 : Outcome Empty TxIn) = .ok input := rfl
    dsimp only
    rw [hindex, Outcome.ok_bind, h.reserved_eq, Outcome.ok_bind]
    dsimp only
    rw [if_pos h.length_reserved, h.root_eq, Outcome.ok_bind]
    dsimp only
    rw [h.commitment_eq, decide_eq_true rfl]
    rfl

/-- The witness root of a block with transactions. -/
theorem Committed.rootNode_eq {coinbase : Transaction} {txs : List Transaction} {input : TxIn} {o : TxOut}
    {root : WitnessMerkleNode} {reserved : Bytes} (h : Committed b coinbase txs input o root reserved) :
    ∃ wtxids, txs.mapM Transaction.computeWtxid = .ok wtxids ∧
      witnessHashes b.txdata = .ok (.replicate 32 0 :: wtxids) ∧
      root = rootNode (.replicate 32 0 :: wtxids) := by
  obtain ⟨hashes, hhashes, hroot⟩ := Outcome.bind_eq_ok_iff.1 h.root_eq
  have hcons := hhashes
  rw [h.txdata_eq] at hcons
  obtain ⟨wtxids, hwtxids, hpure⟩ := Outcome.bind_eq_ok_iff.1 hcons
  cases hpure
  exact ⟨wtxids, hwtxids, hhashes, (calculateRootOf_eq_some_iff.1 hroot).2⟩

/-- Wtxids of transactions that agree but for their witnesses tell the witnesses. -/
theorem eq_of_wtxids_eq {txs txs' : List Transaction} {wtxids : List Wtxid} {S : Set Bytes}
    (hinj : Set.InjOn Sha256d.hash S)
    (hmem : ∀ tx ∈ txs, ∀ w, tx.consensusEncode = .ok w → w.bytes ∈ S)
    (hmem' : ∀ tx ∈ txs', ∀ w, tx.consensusEncode = .ok w → w.bytes ∈ S)
    (h : txs.mapM Transaction.computeWtxid = .ok wtxids)
    (h' : txs'.mapM Transaction.computeWtxid = .ok wtxids)
    (hstripped : txs.map Transaction.stripped = txs'.map Transaction.stripped) : txs = txs' := by
  rw [Outcome.mapM_eq_ok_iff] at h h'
  induction h generalizing txs' with
  | nil =>
    cases h'
    rfl
  | @cons tx wtxid txs wtxids hx _ ih =>
    obtain _ | ⟨hx', htail⟩ := h'
    rw [List.map_cons, List.map_cons, List.cons.injEq] at hstripped
    rw [List.forall_mem_cons] at hmem hmem'
    obtain ⟨w, e, hw⟩ := Transaction.computeWtxid_eq_ok_iff.1 hx
    obtain ⟨w', e', hw'⟩ := Transaction.computeWtxid_eq_ok_iff.1 hx'
    have hbytes := hinj (hmem.1 w e) (hmem'.1 w' e') (hw.trans hw'.symm)
    rw [Transaction.eq_of_bytes_eq hstripped.1 e e' hbytes, ih hmem.2 hmem'.2 htail hstripped.2]

/-- With the same transactions but for their witnesses, the same commitment is to the same witnesses. -/
theorem txdata_eq_of_committed (hb : b.Allocated) (hb' : b'.Allocated) (hfree : b.CollisionFree b')
    (hstripped : b.stripped.txdata = b'.stripped.txdata) {coinbase coinbase' : Transaction}
    {txs txs' : List Transaction} {input input' : TxIn} {o o' : TxOut} {root root' : WitnessMerkleNode}
    {reserved reserved' : Bytes} (h : Committed b coinbase txs input o root reserved)
    (h' : Committed b' coinbase' txs' input' o' root' reserved') : b.txdata = b'.txdata := by
  have hparts : coinbase.stripped :: txs.map Transaction.stripped =
      coinbase'.stripped :: txs'.map Transaction.stripped := by
    have hmap := hstripped
    rw [stripped, stripped, h.txdata_eq, h'.txdata_eq] at hmap
    exact hmap
  obtain ⟨hcoinbase, htxs⟩ := List.cons.inj hparts
  -- the outputs, and with them the commitment, are those of the stripped coinbase
  obtain rfl : o = o' := by
    have houtput : coinbase.stripped.output = coinbase'.stripped.output := by rw [hcoinbase]
    change coinbase.output = coinbase'.output at houtput
    have ho := h.output_eq
    rw [commitmentOutput, houtput] at ho
    exact Option.some.inj (ho.symm.trans h'.output_eq)
  have hhash := U8Array.ext (h.commitment_eq.symm.trans h'.commitment_eq)
  have hmsg := hfree
    (.inl (.commitment h.root_eq (by rw [h.txdata_eq]; rfl) (by rw [h.input_eq]; exact List.mem_cons_self)
      h.reserved_eq))
    (.inr (.commitment h'.root_eq (by rw [h'.txdata_eq]; rfl)
      (by rw [h'.input_eq]; exact List.mem_cons_self) h'.reserved_eq)) hhash
  obtain ⟨hroot, rfl⟩ := List.append_inj hmsg (by rw [root.length_eq, root'.length_eq])
  obtain ⟨wtxids, hwtxids, hhashes, rfl⟩ := h.rootNode_eq
  obtain ⟨wtxids', hwtxids', hhashes', rfl⟩ := h'.rootNode_eq
  have hcount : wtxids.length = wtxids'.length := by
    rw [← (Outcome.mapM_eq_ok_iff.1 hwtxids).length_eq, ← (Outcome.mapM_eq_ok_iff.1 hwtxids').length_eq]
    simpa using congrArg List.length htxs
  have hwit := eq_of_rootNode_eq (List.cons_ne_nil _ _) (by simp [hcount]) hfree
    (fun p hp => .inl (.witnessNode hhashes hp)) (fun p hp => .inr (.witnessNode hhashes' hp))
    (U8Array.ext hroot)
  obtain rfl := (List.cons.inj hwit).2
  have htail : txs = txs' := by
    refine eq_of_wtxids_eq hfree ?_ ?_ hwtxids hwtxids' htxs
    · intro tx htx w e
      exact .inl (.wtxid (by rw [h.txdata_eq]; exact htx) e)
    · intro tx htx w e
      exact .inr (.wtxid (by rw [h'.txdata_eq]; exact htx) e)
  have hhead : coinbase = coinbase' := by
    apply Transaction.eq_of_stripped_eq hcoinbase
    have hmem : coinbase ∈ b.txdata := by rw [h.txdata_eq]; exact List.mem_cons_self
    have hmem' : coinbase' ∈ b'.txdata := by rw [h'.txdata_eq]; exact List.mem_cons_self
    have hinput : input ∈ coinbase.input := by rw [h.input_eq]; exact List.mem_cons_self
    have hinput' : input' ∈ coinbase'.input := by rw [h'.input_eq]; exact List.mem_cons_self
    have hvec := Witness.eq_of_toVec_eq ((hb.transaction _ hmem).witness _ hinput)
      ((hb'.transaction _ hmem').witness _ hinput') (h.reserved_eq.trans h'.reserved_eq.symm)
    rw [h.input_eq, h'.input_eq, List.map_singleton, List.map_singleton, hvec]
  rw [h.txdata_eq, h'.txdata_eq, hhead, htail]

theorem eq_of_noWitness (hstripped : b.stripped.txdata = b'.stripped.txdata) (h : b.noWitness = true)
    (h' : b'.noWitness = true) : b.txdata = b'.txdata := by
  have hself : ∀ c : Block, c.noWitness = true → c.stripped.txdata = c.txdata := by
    intro c hc
    rw [noWitness, List.all_eq_true] at hc
    conv_rhs => rw [← List.map_id c.txdata]
    apply List.map_congr_left
    intro tx htx
    have hnew : ∀ t ∈ tx.input, t.witness = Witness.new := by
      simpa [Witness.isEmpty_iff] using hc tx htx
    rw [Transaction.stripped, Transaction.map_strip_eq_self hnew]
    rfl
  rw [← hself b h, ← hself b' h', hstripped]

/-- Blocks with the same hash that pass both checks have the same transactions, witnesses apart, and the
same witnesses as soon as both have any: a transaction may neither stand twice in a block nor be as long
as a pair of nodes. -/
theorem block_hash_commits (hb : b.Allocated) (hb' : b'.Allocated) (hnodup : b.stripped.txdata.Nodup)
    (hnodup' : b'.stripped.txdata.Nodup) (hsize : ∀ tx ∈ b.txdata ++ b'.txdata, tx.baseSize ≠ 64)
    (hfree : b.CollisionFree b') (hhash : b.header.blockHash = b'.header.blockHash)
    (hroot : b.checkMerkleRoot = .ok true) (hroot' : b'.checkMerkleRoot = .ok true)
    (hwitness : b.checkWitnessCommitment = .ok true) (hwitness' : b'.checkWitnessCommitment = .ok true) :
    b.stripped = b'.stripped ∧ (b.noWitness = b'.noWitness → b = b') := by
  obtain ⟨w, e⟩ := b.header.exists_encode
  obtain ⟨w', e'⟩ := b'.header.exists_encode
  have hheader : b.header = b'.header := by
    rw [Header.blockHash, Header.blockHash, e, e'] at hhash
    have hbytes := hfree (.inl (.header e)) (.inr (.header e')) (Outcome.ok.inj hhash)
    exact Header.lawful.finite.roundTrips.encode_injective trivial trivial e e' hbytes
  obtain ⟨hne, hleft⟩ := (checkMerkleRoot_iff hb).1 hroot
  obtain ⟨hne', hright⟩ := (checkMerkleRoot_iff hb').1 hroot'
  rw [hheader, hright] at hleft
  have hspread := (rootNode_eq_iff_spread hb hb' hne hne' hsize hfree).1 hleft.symm
  have hstripped := stripped_txdata_eq hne hne' hnodup hnodup' hspread
  refine ⟨?_, fun hsame => ?_⟩
  · rw [show b.stripped = ⟨b.header, b.stripped.txdata⟩ from rfl, hheader, hstripped]
    rfl
  · have htxdata : b.txdata = b'.txdata := by
      cases hsome : b.noWitness with
      | true => exact eq_of_noWitness hstripped hsome (hsame ▸ hsome)
      | false =>
        obtain ⟨_, _, _, _, _, _, h⟩ := exists_committed hwitness hsome
        obtain ⟨_, _, _, _, _, _, h'⟩ := exists_committed hwitness' (hsame ▸ hsome)
        exact txdata_eq_of_committed hb hb' hfree hstripped h h'
    rw [show b = ⟨b.header, b.txdata⟩ from rfl, hheader, htxdata]

/-- A coinbase of one output, which is for the witness commitment. -/
def coinbaseOf (commitment : WitnessCommitment) : Transaction where
  version := 2
  lockTime := .fromConsensus 0
  input := [⟨.null, [0x51], 0, ⟨pack [List.replicate 32 0], [List.replicate 32 0],
    ⟨by decide, by decide⟩, rfl⟩⟩]
  output := [⟨0, MAGIC ++ commitment.toList⟩]

/-- A transaction that spends the first output of another one. -/
def spendOf (n : UInt8) : Transaction where
  version := 2
  lockTime := .fromConsensus 0
  input := [⟨⟨.replicate 32 n, 0⟩, [], 0, Witness.new⟩]
  output := []

/-! The hashes of a block of three transactions. -/

def sampleTxid₀ : Txid :=
  ⟨[166, 9, 203, 73, 29, 25, 195, 236, 191, 19, 90, 69, 70, 237, 53, 215, 121, 109, 106, 17, 4, 179, 191, 194,
    246, 99, 206, 151, 100, 124, 125, 50], rfl⟩

def sampleTxid₁ : Txid :=
  ⟨[84, 128, 220, 203, 78, 227, 134, 105, 176, 56, 139, 240, 65, 140, 24, 147, 184, 255, 217, 96, 41, 10, 16, 212,
    205, 242, 75, 70, 48, 14, 105, 23], rfl⟩

def sampleTxid₂ : Txid :=
  ⟨[166, 74, 219, 155, 29, 81, 17, 41, 54, 73, 229, 203, 106, 28, 165, 193, 221, 215, 144, 217, 143, 72, 107, 128,
    14, 223, 100, 203, 201, 198, 153, 227], rfl⟩

def sampleLeft : TxMerkleNode :=
  ⟨[207, 179, 79, 151, 107, 35, 89, 117, 123, 231, 210, 126, 226, 151, 0, 252, 235, 248, 117, 111, 169, 151, 129,
    182, 181, 33, 41, 122, 123, 185, 141, 10], rfl⟩

def sampleRight : TxMerkleNode :=
  ⟨[53, 26, 38, 28, 132, 61, 32, 140, 38, 185, 106, 53, 241, 107, 122, 129, 224, 156, 172, 114, 248, 48, 161, 178,
    34, 20, 51, 221, 146, 53, 41, 99], rfl⟩

def sampleMerkleRoot : TxMerkleNode :=
  ⟨[74, 61, 17, 170, 246, 235, 168, 39, 118, 20, 56, 142, 233, 182, 140, 125, 55, 50, 39, 70, 25, 192, 198, 214,
    133, 229, 206, 41, 134, 222, 195, 232], rfl⟩

def sampleWitnessLeft : WitnessMerkleNode :=
  ⟨[127, 190, 145, 109, 52, 207, 125, 40, 240, 156, 48, 212, 83, 62, 108, 93, 1, 236, 134, 20, 238, 75, 17, 36,
    56, 52, 84, 86, 48, 46, 217, 111], rfl⟩

def sampleWitnessRoot : WitnessMerkleNode :=
  ⟨[246, 212, 84, 95, 54, 47, 23, 162, 45, 83, 84, 186, 26, 0, 154, 219, 75, 30, 34, 64, 147, 160, 217, 140, 92,
    116, 4, 219, 77, 124, 129, 106], rfl⟩

def sampleCommitment : WitnessCommitment :=
  ⟨[32, 198, 63, 77, 138, 45, 233, 56, 43, 151, 182, 196, 137, 54, 97, 130, 124, 141, 162, 233, 33, 52, 57, 85,
    131, 53, 190, 67, 222, 223, 242, 169], rfl⟩

def sampleBlockHash : BlockHash :=
  ⟨[177, 236, 29, 99, 16, 33, 179, 111, 126, 177, 130, 195, 130, 136, 255, 163, 58, 187, 130, 8, 206, 178, 230,
    223, 192, 166, 116, 15, 130, 164, 123, 63], rfl⟩

def sampleBlock : Block :=
  ⟨⟨1, .replicate 32 0, sampleMerkleRoot, 0, 0, 0⟩, [coinbaseOf sampleCommitment, spendOf 1, spendOf 2]⟩

/-- The last transaction once more, which the merkle tree does not show. -/
def repeatedBlock : Block :=
  ⟨sampleBlock.header, [coinbaseOf sampleCommitment, spendOf 1, spendOf 2, spendOf 2]⟩

/-- What an encoder writes, if it does. -/
def written {α : Type} (enc : Encoder α) (a : α) : Bytes :=
  match enc a with
  | .ok w => w.bytes
  | _ => []

theorem bytes_eq_written {α : Type} {enc : Encoder α} {a : α} {w : Written} (e : enc a = .ok w) :
    w.bytes = written enc a := by
  rw [written, e]

/-- The messages that are hashed for the blocks: the header, the transactions without their witnesses, the
nodes of both trees, and the witness commitment. -/
def sampleMessages : List Bytes :=
  [written Header.codec.consensusEncode sampleBlock.header,
    written Transaction.encodeStripped (coinbaseOf sampleCommitment),
    written Transaction.encodeStripped (spendOf 1), written Transaction.encodeStripped (spendOf 2),
    pairBytes (sampleTxid₀, sampleTxid₁), pairBytes (sampleTxid₂, sampleTxid₂),
    pairBytes (sampleLeft, sampleRight), pairBytes (.replicate 32 0, sampleTxid₁),
    pairBytes (sampleWitnessLeft, sampleRight), sampleWitnessRoot.toList ++ List.replicate 32 0]

/-- The hashes of the messages, computed. -/
theorem hash_sampleMessages : sampleMessages.map Sha256d.hash =
    [sampleBlockHash, sampleTxid₀, sampleTxid₁, sampleTxid₂, sampleLeft, sampleRight, sampleMerkleRoot,
      sampleWitnessLeft, sampleWitnessRoot, sampleCommitment] := by
  decide +kernel

section

variable (x y z : U8Array 32)

theorem height_three : height 3 = 2 := by decide

theorem height_four : height 4 = 2 := by decide

/-- The nodes over three leaves, and over four of which the last is repeated. -/
theorem nodePairs_three : nodePairs [x, y, z] =
    [(x, y), (z, z), (PartialMerkleTree.parentHash x y, PartialMerkleTree.parentHash z z)] := by
  rw [nodePairs, List.length_cons, List.length_cons, List.length_singleton, height_three]
  rfl

theorem nodePairs_four : nodePairs [x, y, z, z] = nodePairs [x, y, z] := by
  rw [nodePairs_three, nodePairs, List.length_cons, List.length_cons, List.length_cons, List.length_singleton,
    height_four]
  rfl

theorem rootNode_three : rootNode [x, y, z] = PartialMerkleTree.parentHash (PartialMerkleTree.parentHash x y)
    (PartialMerkleTree.parentHash z z) := by
  rw [rootNode, List.length_cons, List.length_cons, List.length_singleton, height_three]
  rfl

theorem rootNode_four : rootNode [x, y, z, z] = rootNode [x, y, z] := by
  rw [rootNode_three, rootNode, List.length_cons, List.length_cons, List.length_cons, List.length_singleton,
    height_four]
  rfl

end

theorem allocated_coinbaseOf (commitment : WitnessCommitment) : (coinbaseOf commitment).Allocated := by
  have hone : 1 < 2 ^ 63 := by decide
  refine ⟨hone, ?_, ?_, hone, ?_⟩
  · intro t ht
    obtain rfl := List.mem_singleton.1 ht
    decide
  · intro t ht
    obtain rfl := List.mem_singleton.1 ht
    decide
  · intro o ho
    obtain rfl := List.mem_singleton.1 ho
    rw [List.length_append, commitment.length_eq]
    decide

theorem allocated_spendOf (n : UInt8) : (spendOf n).Allocated := by
  have hzero : 0 < 2 ^ 63 := by decide
  have hone : 1 < 2 ^ 63 := by decide
  refine ⟨hone, ?_, ?_, hzero, fun o ho => by cases ho⟩
  · intro t ht
    obtain rfl := List.mem_singleton.1 ht
    exact hzero
  · intro t ht
    obtain rfl := List.mem_singleton.1 ht
    exact hzero

theorem txid_eq_of_hash {tx : Transaction} {txid : Txid} (htx : tx.Allocated)
    (h : Sha256d.hash (written Transaction.encodeStripped tx) = txid) : tx.txid = txid := by
  obtain ⟨w, e⟩ := Transaction.exists_encodeStripped htx.sized
  rw [Transaction.txid_of_encodeStripped e, bytes_eq_written e, h]

/-- A transaction without a witness has its txid as wtxid too. -/
theorem consensusEncode_spendOf (n : UInt8) : (spendOf n).consensusEncode = (spendOf n).encodeStripped := rfl

theorem sample_txids : (coinbaseOf sampleCommitment).txid = sampleTxid₀ ∧ (spendOf 1).txid = sampleTxid₁ ∧
    (spendOf 2).txid = sampleTxid₂ := by
  have h := hash_sampleMessages
  simp only [sampleMessages, List.map_cons, List.map_nil, List.cons.injEq] at h
  obtain ⟨-, h₀, h₁, h₂, -⟩ := h
  exact ⟨txid_eq_of_hash (allocated_coinbaseOf _) h₀, txid_eq_of_hash (allocated_spendOf 1) h₁,
    txid_eq_of_hash (allocated_spendOf 2) h₂⟩

theorem sample_nodes : PartialMerkleTree.parentHash sampleTxid₀ sampleTxid₁ = sampleLeft ∧
    PartialMerkleTree.parentHash sampleTxid₂ sampleTxid₂ = sampleRight ∧
    PartialMerkleTree.parentHash sampleLeft sampleRight = sampleMerkleRoot ∧
    PartialMerkleTree.parentHash (.replicate 32 0) sampleTxid₁ = sampleWitnessLeft ∧
    PartialMerkleTree.parentHash sampleWitnessLeft sampleRight = sampleWitnessRoot := by
  have h := hash_sampleMessages
  simp only [sampleMessages, List.map_cons, List.map_nil, List.cons.injEq] at h
  obtain ⟨-, -, -, -, hleft, hright, hroot, hwleft, hwroot, -⟩ := h
  exact ⟨hleft, hright, hroot, hwleft, hwroot⟩

theorem map_txid_sampleBlock :
    sampleBlock.txdata.map Transaction.txid = [sampleTxid₀, sampleTxid₁, sampleTxid₂] := by
  obtain ⟨h₀, h₁, h₂⟩ := sample_txids
  rw [sampleBlock, List.map_cons, List.map_cons, List.map_singleton, h₀, h₁, h₂]

theorem nodePairs_sampleBlock : nodePairs [sampleTxid₀, sampleTxid₁, sampleTxid₂] =
    [(sampleTxid₀, sampleTxid₁), (sampleTxid₂, sampleTxid₂), (sampleLeft, sampleRight)] := by
  obtain ⟨hleft, hright, -⟩ := sample_nodes
  rw [nodePairs_three, hleft, hright]

theorem nodePairs_witness : nodePairs [.replicate 32 0, sampleTxid₁, sampleTxid₂] =
    [(.replicate 32 0, sampleTxid₁), (sampleTxid₂, sampleTxid₂), (sampleWitnessLeft, sampleRight)] := by
  obtain ⟨-, hright, -, hleft, -⟩ := sample_nodes
  rw [nodePairs_three, hleft, hright]

theorem rootNode_sampleBlock : rootNode [sampleTxid₀, sampleTxid₁, sampleTxid₂] = sampleMerkleRoot := by
  obtain ⟨hleft, hright, hroot, -⟩ := sample_nodes
  rw [rootNode_three, hleft, hright, hroot]

theorem rootNode_witness : rootNode [.replicate 32 0, sampleTxid₁, sampleTxid₂] = sampleWitnessRoot := by
  obtain ⟨-, hright, -, hleft, hroot⟩ := sample_nodes
  rw [rootNode_three, hleft, hright, hroot]

theorem computeWtxid_spendOf (n : UInt8) : (spendOf n).computeWtxid = .ok (spendOf n).txid := by
  have h := Transaction.computeTxid_eq_txid (allocated_spendOf n).sized
  rw [Transaction.computeTxid_eq] at h
  exact h

/-- The blocks with the header of the sample and its transactions: with or without the witness of the
coinbase, and with the last one repeated or not. -/
structure IsSample (c : Block) (coinbase : Transaction) : Prop where
  header_eq : c.header = sampleBlock.header
  coinbase_eq : coinbase = coinbaseOf sampleCommitment ∨ coinbase = (coinbaseOf sampleCommitment).stripped
  txdata_eq : c.txdata = [coinbase, spendOf 1, spendOf 2] ∨ c.txdata = [coinbase, spendOf 1, spendOf 2, spendOf 2]

namespace IsSample

variable {c : Block} {coinbase : Transaction}

theorem allocated_coinbase (h : IsSample c coinbase) : coinbase.Allocated := by
  rcases h.coinbase_eq with rfl | rfl
  · exact allocated_coinbaseOf _
  · exact (allocated_coinbaseOf _).stripped

theorem allocated (h : IsSample c coinbase) : c.Allocated := by
  rcases h.txdata_eq with htxs | htxs
  · refine ⟨by rw [htxs]; exact show 3 < 2 ^ 63 by decide, ?_⟩
    simp only [htxs, List.forall_mem_cons]
    exact ⟨h.allocated_coinbase, allocated_spendOf 1, allocated_spendOf 2, fun tx htx => by cases htx⟩
  · refine ⟨by rw [htxs]; exact show 4 < 2 ^ 63 by decide, ?_⟩
    simp only [htxs, List.forall_mem_cons]
    exact ⟨h.allocated_coinbase, allocated_spendOf 1, allocated_spendOf 2, allocated_spendOf 2,
      fun tx htx => by cases htx⟩

theorem txid_coinbase (h : IsSample c coinbase) : coinbase.txid = sampleTxid₀ := by
  obtain ⟨h₀, -⟩ := sample_txids
  rcases h.coinbase_eq with rfl | rfl
  · exact h₀
  · rw [Transaction.txid_stripped, h₀]

/-- The tree of txids is that of the sample. -/
theorem txids (h : IsSample c coinbase) :
    nodePairs (c.txdata.map Transaction.txid) = nodePairs [sampleTxid₀, sampleTxid₁, sampleTxid₂] ∧
      rootNode (c.txdata.map Transaction.txid) = sampleMerkleRoot := by
  obtain ⟨-, h₁, h₂⟩ := sample_txids
  rcases h.txdata_eq with htxs | htxs
  · rw [htxs, List.map_cons, List.map_cons, List.map_singleton, h.txid_coinbase, h₁, h₂]
    exact ⟨rfl, rootNode_sampleBlock⟩
  · rw [htxs, List.map_cons, List.map_cons, List.map_cons, List.map_singleton, h.txid_coinbase, h₁, h₂]
    exact ⟨nodePairs_four _ _ _, (rootNode_four _ _ _).trans rootNode_sampleBlock⟩

/-- The tree of wtxids is that of the sample. -/
theorem wtxids (h : IsSample c coinbase) : ∃ hashes, witnessHashes c.txdata = .ok hashes ∧ hashes ≠ [] ∧
    nodePairs hashes = nodePairs [.replicate 32 0, sampleTxid₁, sampleTxid₂] ∧
    rootNode hashes = sampleWitnessRoot := by
  obtain ⟨-, h₁, h₂⟩ := sample_txids
  have hw₁ : (spendOf 1).computeWtxid = .ok sampleTxid₁ := h₁ ▸ computeWtxid_spendOf 1
  have hw₂ : (spendOf 2).computeWtxid = .ok sampleTxid₂ := h₂ ▸ computeWtxid_spendOf 2
  rcases h.txdata_eq with htxs | htxs
  · refine ⟨[.replicate 32 0, sampleTxid₁, sampleTxid₂], ?_, List.cons_ne_nil _ _, rfl, rootNode_witness⟩
    rw [htxs, witnessHashes, List.mapM_cons, List.mapM_cons, hw₁, hw₂]
    rfl
  · refine ⟨[.replicate 32 0, sampleTxid₁, sampleTxid₂, sampleTxid₂], ?_, List.cons_ne_nil _ _,
      nodePairs_four _ _ _, (rootNode_four _ _ _).trans rootNode_witness⟩
    rw [htxs, witnessHashes, List.mapM_cons, List.mapM_cons, List.mapM_cons, hw₁, hw₂]
    rfl

theorem reserved_eq (h : IsSample c coinbase) {input : TxIn} {reserved : Bytes} (hinput : input ∈ coinbase.input)
    (hreserved : input.witness.repr.toVec = .ok [reserved]) : reserved = List.replicate 32 0 := by
  rcases h.coinbase_eq with rfl | rfl
  · obtain rfl := List.mem_singleton.1 hinput
    have hvec : (pack [List.replicate 32 0]).toVec = .ok [List.replicate 32 0] := by decide
    cases hvec.symm.trans hreserved
    rfl
  · obtain rfl := List.mem_singleton.1 hinput
    cases hreserved

theorem checkMerkleRoot (h : IsSample c coinbase) : c.checkMerkleRoot = .ok true := by
  rw [checkMerkleRoot_iff h.allocated, h.txids.2, h.header_eq]
  refine ⟨?_, rfl⟩
  rcases h.txdata_eq with htxs | htxs <;> rw [htxs] <;> exact List.cons_ne_nil _ _

theorem baseSize_ne (h : IsSample c coinbase) : ∀ tx ∈ c.txdata, tx.baseSize ≠ 64 := by
  have hcoinbase : coinbase.baseSize ≠ 64 := by
    rcases h.coinbase_eq with rfl | rfl
    · decide
    · rw [Transaction.baseSize_stripped]
      decide
  rcases h.txdata_eq with htxs | htxs
  · simp only [htxs, List.forall_mem_cons]
    exact ⟨hcoinbase, by decide, by decide, fun tx htx => by cases htx⟩
  · simp only [htxs, List.forall_mem_cons]
    exact ⟨hcoinbase, by decide, by decide, by decide, fun tx htx => by cases htx⟩

theorem encodeStripped_coinbase (h : IsSample c coinbase) :
    coinbase.encodeStripped = (coinbaseOf sampleCommitment).encodeStripped := by
  rcases h.coinbase_eq with rfl | rfl
  · rfl
  · exact Transaction.encodeStripped_stripped _

theorem mem_tail (h : IsSample c coinbase) {tx : Transaction} (htx : tx ∈ c.txdata.tail) :
    tx = spendOf 1 ∨ tx = spendOf 2 := by
  rcases h.txdata_eq with htxs | htxs <;> simpa [htxs] using htx

theorem mem_txdata (h : IsSample c coinbase) {tx : Transaction} (htx : tx ∈ c.txdata) :
    tx = coinbase ∨ tx ∈ c.txdata.tail := by
  rcases h.txdata_eq with htxs | htxs <;> simpa [htxs] using htx

theorem mem_sampleMessages (h : IsSample c coinbase) {m : Bytes} (hm : c.Hashed m) : m ∈ sampleMessages := by
  cases hm with
  | header e =>
    rw [bytes_eq_written e, h.header_eq]
    simp [sampleMessages]
  | txid htx e =>
    rw [bytes_eq_written e]
    rcases h.mem_txdata htx with rfl | htail
    · rw [written, h.encodeStripped_coinbase, ← written]
      simp [sampleMessages]
    · rcases h.mem_tail htail with rfl | rfl <;> simp [sampleMessages]
  | node hp =>
    rw [h.txids.1, nodePairs_sampleBlock] at hp
    simp only [List.mem_cons, List.not_mem_nil, or_false] at hp
    rcases hp with rfl | rfl | rfl <;> simp [sampleMessages]
  | wtxid htx e =>
    rw [bytes_eq_written e]
    rcases h.mem_tail htx with rfl | rfl
    · rw [written, consensusEncode_spendOf, ← written]
      simp [sampleMessages]
    · rw [written, consensusEncode_spendOf, ← written]
      simp [sampleMessages]
  | witnessNode e hp =>
    obtain ⟨hashes, hhashes, -, hnodes, -⟩ := h.wtxids
    obtain rfl := Outcome.ok.inj (hhashes.symm.trans e)
    rw [hnodes, nodePairs_witness] at hp
    simp only [List.mem_cons, List.not_mem_nil, or_false] at hp
    rcases hp with rfl | rfl | rfl <;> simp [sampleMessages]
  | commitment e htx hinput hreserved =>
    obtain ⟨hashes, hhashes, hne, -, hroot⟩ := h.wtxids
    have hhead : c.txdata.head? = some coinbase := by
      rcases h.txdata_eq with htxs | htxs <;> rw [htxs] <;> rfl
    rw [witnessRoot, hhashes, Outcome.ok_bind] at e
    obtain ⟨-, rfl⟩ := calculateRootOf_eq_some_iff.1 e
    obtain rfl := Option.some.inj (hhead.symm.trans htx)
    rw [h.reserved_eq hinput hreserved, hroot]
    simp [sampleMessages]

end IsSample

theorem injOn_sampleMessages : Set.InjOn Sha256d.hash {m | m ∈ sampleMessages} := by
  have hnodup : (sampleMessages.map Sha256d.hash).Nodup := by
    rw [hash_sampleMessages]
    exact List.Nodup.of_map (fun h => h.toList.take 2) (by decide)
  exact fun m hm m' hm' h => List.inj_on_of_nodup_map hnodup hm hm' h

theorem IsSample.collisionFree {c c' : Block} {coinbase coinbase' : Transaction} (h : IsSample c coinbase)
    (h' : IsSample c' coinbase') : c.CollisionFree c' :=
  injOn_sampleMessages.mono fun _ hm => hm.elim h.mem_sampleMessages h'.mem_sampleMessages

theorem isSample_sampleBlock : IsSample sampleBlock (coinbaseOf sampleCommitment) := ⟨rfl, .inl rfl, .inl rfl⟩

theorem isSample_stripped : IsSample sampleBlock.stripped (coinbaseOf sampleCommitment).stripped :=
  ⟨rfl, .inr rfl, .inl rfl⟩

theorem isSample_repeatedBlock : IsSample repeatedBlock (coinbaseOf sampleCommitment) :=
  ⟨rfl, .inl rfl, .inr rfl⟩

theorem commitmentOutput_coinbaseOf (commitment : WitnessCommitment) :
    commitmentOutput (coinbaseOf commitment) = some ⟨0, MAGIC ++ commitment.toList⟩ := by
  simp [commitmentOutput, coinbaseOf, MAGIC]

theorem committed_sampleBlock : ∃ input o, Committed sampleBlock (coinbaseOf sampleCommitment)
    [spendOf 1, spendOf 2] input o sampleWitnessRoot (List.replicate 32 0) := by
  have hcommitment : sampleCommitment = computeWitnessCommitment sampleWitnessRoot (List.replicate 32 0) := by
    have h := hash_sampleMessages
    simp only [sampleMessages, List.map_cons, List.map_nil, List.cons.injEq] at h
    obtain ⟨-, -, -, -, -, -, -, -, -, hcommitment, -⟩ := h
    exact hcommitment.symm
  obtain ⟨hashes, hhashes, hne, -, hroot⟩ := isSample_sampleBlock.wtxids
  refine ⟨_, _, rfl, rfl, commitmentOutput_coinbaseOf sampleCommitment, by decide, List.length_replicate, ?_, ?_⟩
  · rw [witnessRoot, hhashes, Outcome.ok_bind]
    exact calculateRootOf_eq_some_iff.2 ⟨hne, hroot.symm⟩
  · rw [← hcommitment]
    exact List.take_of_length_le sampleCommitment.length_eq.le

theorem checkWitnessCommitment_sampleBlock : sampleBlock.checkWitnessCommitment = .ok true := by
  obtain ⟨input, o, h⟩ := committed_sampleBlock
  exact h.checkWitnessCommitment_eq rfl

theorem nodup_sampleBlock : sampleBlock.stripped.txdata.Nodup :=
  List.Nodup.of_map (fun tx => tx.input.map TxIn.previousOutput) (by decide)

/-- The block and the block without the witness of its coinbase have one hash, and pass. -/
theorem block_hash_commits_sample : sampleBlock ≠ sampleBlock.stripped ∧
    sampleBlock.stripped = sampleBlock.stripped.stripped ∧
    (sampleBlock.noWitness = sampleBlock.stripped.noWitness → sampleBlock = sampleBlock.stripped) := by
  refine ⟨fun h => ?_, block_hash_commits isSample_sampleBlock.allocated isSample_stripped.allocated
    nodup_sampleBlock nodup_sampleBlock ?_ (isSample_sampleBlock.collisionFree isSample_stripped) rfl
    isSample_sampleBlock.checkMerkleRoot isSample_stripped.checkMerkleRoot checkWitnessCommitment_sampleBlock rfl⟩
  · have hsome : sampleBlock.noWitness = false := rfl
    rw [h] at hsome
    cases hsome
  · exact List.forall_mem_append.2 ⟨isSample_sampleBlock.baseSize_ne, isSample_stripped.baseSize_ne⟩

/-- The block of four transactions that spreads as the one of three passes under the same header. -/
theorem check_merkle_root_iff_spread_sample :
    repeatedBlock.txdata.length = 4 ∧ repeatedBlock.checkMerkleRoot = .ok true := by
  refine ⟨rfl, (check_merkle_root_iff_spread isSample_sampleBlock.allocated isSample_repeatedBlock.allocated ?_
    (isSample_sampleBlock.collisionFree isSample_repeatedBlock) rfl isSample_sampleBlock.checkMerkleRoot).2 ?_⟩
  · exact List.forall_mem_append.2 ⟨isSample_sampleBlock.baseSize_ne, isSample_repeatedBlock.baseSize_ne⟩
  · rw [spreadTxdata, spreadTxdata, show repeatedBlock.txdata.length = 4 from rfl,
      show sampleBlock.txdata.length = 3 from rfl, height_three, height_four]
    rfl

/-! ### Blocks with the same hash -/

theorem combinePairs_append_last {α : Type} (H : α → α → α) {xs : List α} {a : α}
    (hlast : xs.getLast? = some a) (hodd : xs.length % 2 = 1) :
    combinePairs H (xs ++ [a]) = combinePairs H xs := by
  induction xs using combinePairs.induct with
  | case1 => cases hlast
  | case2 x =>
    obtain rfl : x = a := by simpa using hlast
    rfl
  | case3 x y xs ih =>
    have hodd' : xs.length % 2 = 1 := by
      rw [List.length_cons, List.length_cons] at hodd
      omega
    have hne : xs ≠ [] := by
      rintro rfl
      cases hodd'
    rw [List.getLast?_cons_cons, List.getLast?_cons_of_ne_nil hne] at hlast
    rw [List.cons_append, List.cons_append, combinePairs, combinePairs, ih hlast hodd']

theorem calculateRoot_append_last {α : Type} (H : α → α → α) {xs : List α} {a : α}
    (hlast : xs.getLast? = some a) (hodd : xs.length % 2 = 1) (hlen : 1 < xs.length) :
    calculateRoot H (xs ++ [a]) = calculateRoot H xs := by
  match xs with
  | [] => cases hlast
  | [x] => exact absurd hlen (Nat.lt_irrefl 1)
  | x :: y :: xs =>
    have hpairs := combinePairs_append_last H hlast hodd
    show some <$> merkleRootR H (combinePairs H (x :: y :: xs ++ [a])) = _
    rw [hpairs]
    rfl

theorem checkMerkleRoot_congr (hheader : b'.header = b.header)
    (hroot : b'.computeMerkleRoot = b.computeMerkleRoot) : b'.checkMerkleRoot = b.checkMerkleRoot := by
  rw [checkMerkleRoot, checkMerkleRoot, hheader, hroot]

theorem computeMerkleRoot_stripped (b : Block) : b.stripped.computeMerkleRoot = b.computeMerkleRoot := by
  have htxid : Transaction.computeTxid ∘ Transaction.stripped = Transaction.computeTxid := by
    funext tx
    rw [Function.comp_apply, Transaction.computeTxid_stripped]
  have hids : (b.txdata.map Transaction.stripped).mapM Transaction.computeTxid =
      b.txdata.mapM Transaction.computeTxid := by
    rw [List.mapM_map, htxid]
  simp only [computeMerkleRoot, stripped, hids]

theorem noWitness_stripped (b : Block) : b.stripped.noWitness = true := by
  simp only [noWitness, List.all_eq_true, Witness.isEmpty_iff]
  intro tx htx t ht
  obtain ⟨tx', -, rfl⟩ := List.mem_map.1 htx
  obtain ⟨t', -, rfl⟩ := List.mem_map.1 ht
  rfl

/-- Where the root is computed, the last of an odd number of transactions may be repeated. -/
theorem computeMerkleRoot_append_last {last : Transaction} {root : Option TxMerkleNode}
    (hlast : b.txdata.getLast? = some last) (hodd : b.txdata.length % 2 = 1) (hlen : 1 < b.txdata.length)
    (hroot : b.computeMerkleRoot = .ok root) :
    Block.computeMerkleRoot ⟨b.header, b.txdata ++ [last]⟩ = .ok root := by
  obtain ⟨txids, htxids, hroot⟩ := Outcome.bind_eq_ok_iff.1 hroot
  have hall := Outcome.mapM_eq_ok_iff.1 htxids
  obtain ⟨txid, htxid, hid⟩ : ∃ txid, txids.getLast? = some txid ∧ last.computeTxid = .ok txid := by
    rw [← List.head?_reverse] at hlast
    have hrev := List.rel_reverse hall
    obtain ⟨txs, hsplit⟩ : ∃ txs, b.txdata.reverse = last :: txs := List.head?_eq_some_iff.1 hlast
    rw [hsplit] at hrev
    obtain ⟨txid, ids, hid, -, hids⟩ := List.forall₂_cons_left_iff.1 hrev
    exact ⟨txid, by rw [← List.head?_reverse, hids]; rfl, hid⟩
  have happend : (b.txdata ++ [last]).mapM Transaction.computeTxid = .ok (txids ++ [txid]) := by
    rw [List.mapM_append, htxids, Outcome.ok_bind, List.mapM_cons, hid]
    rfl
  rw [hall.length_eq] at hodd hlen
  rw [computeMerkleRoot]
  dsimp only
  rw [happend, Outcome.ok_bind, ← hroot, calculateRootOf, calculateRootOf,
    calculateRoot_append_last _ htxid hodd hlen]

/-- The hash of a block is not enough: without the witnesses, and with the last of an odd number of
transactions repeated, a block passes the checks that it passed before. -/
theorem altered_blocks_pass (b : Block) :
    (b.stripped.header = b.header ∧ b.stripped.checkMerkleRoot = b.checkMerkleRoot ∧
      b.stripped.checkWitnessCommitment = .ok true) ∧
    ∀ last, b.txdata.getLast? = some last → b.txdata.length % 2 = 1 → 1 < b.txdata.length →
      ∀ checked, b.checkMerkleRoot = .ok checked →
        Block.checkMerkleRoot ⟨b.header, b.txdata ++ [last]⟩ = .ok checked := by
  refine ⟨⟨rfl, checkMerkleRoot_congr rfl (computeMerkleRoot_stripped b), ?_⟩, ?_⟩
  · rw [checkWitnessCommitment, noWitness_stripped, if_pos rfl, Outcome.pure_eq_ok]
  · intro last hlast hodd hlen checked hchecked
    obtain ⟨root, hroot, hcompare⟩ := Outcome.bind_eq_ok_iff.1 hchecked
    rw [checkMerkleRoot, computeMerkleRoot_append_last hlast hodd hlen hroot, Outcome.ok_bind]
    exact hcompare

end Blockdata.Block

end RustDogecoin
