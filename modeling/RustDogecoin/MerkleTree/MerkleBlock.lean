import RustDogecoin.Blockdata.Commitment
import RustDogecoin.MerkleTree.Size
import RustDogecoin.Consensus.Serde

/-!
# Proofs for light clients

`MerkleBlock` of `merkle_tree/block.rs`: a node proves to a client that knows headers only which
transactions of a block match a predicate.  `accepted_is_member` is what the client may conclude from a
proof that it accepts, whoever made it and whatever number of transactions it claims; and
`matches_arrive` is what it gets from an honest node, through the wire.
-/

namespace RustDogecoin

open Merkle MerkleTree PartialMerkleTree

namespace MerkleBlock

/-- The errors of `MerkleBlock::extract_matches`; `MerkleRootMismatch` is returned by no other function. -/
inductive ExtractError where
  | merkleRootMismatch
  | txn (e : MerkleBlockError)
  deriving DecidableEq, Repr

/-- Create a MerkleBlock from the block's header and txids, that contain proofs for specific txids. -/
def fromHeaderTxidsWithPredicate (header : PureHeader) (blockTxids : List Txid)
    (matchTxids : Txid → Bool) : Outcome Empty MerkleBlock := do
  let matched := blockTxids.map matchTxids
  let pmt ← fromTxids blockTxids matched
  return ⟨header, pmt⟩

/-- Create a MerkleBlock from a block, that contains proofs for specific txids. -/
def fromBlockWithPredicate (block : Blockdata.Block) (matchTxids : Txid → Bool) :
    Outcome Empty MerkleBlock := do
  let blockTxids ← block.txdata.mapM Transaction.computeTxid
  fromHeaderTxidsWithPredicate block.header blockTxids matchTxids

/-- Extract the matching txid's represented by this partial merkle tree and their respective indices
within the partial tree. -/
def extractMatches (mb : MerkleBlock) : Outcome ExtractError (List Txid × List ℕ) := do
  let (merkleRoot, matched, indexes) ← mb.txn.extractMatches.mapErr .txn
  if merkleRoot = mb.header.merkleRoot then return (matched, indexes) else .err .merkleRootMismatch

theorem extractMatches_eq_ok_iff {mb : MerkleBlock} {matched : List Txid} {indexes : List ℕ} :
    mb.extractMatches = .ok (matched, indexes) ↔
      mb.txn.extractMatches = .ok (mb.header.merkleRoot, matched, indexes) := by
  rw [extractMatches, Outcome.bind_eq_ok_iff]
  constructor
  · rintro ⟨⟨root, m, i⟩, hrun, h⟩
    rw [Outcome.mapErr_eq_ok_iff] at hrun
    dsimp only at h
    split_ifs at h with hroot
    · cases h
      rw [hrun, hroot]
  · intro hrun
    refine ⟨_, Outcome.mapErr_eq_ok_iff.2 hrun, ?_⟩
    dsimp only
    rw [if_pos rfl]
    rfl

/-! ## What an accepted proof proves -/

/-- The messages that are hashed for the txids of a block and the tree above them, for the tree of a
proof, and for the txid of one more transaction. -/
inductive Hashed (b : Blockdata.Block) (mb : MerkleBlock) (tx : Transaction) : Bytes → Prop
  | txid {t : Transaction} {w : Written} (h : t ∈ b.txdata ∨ t = tx) (e : t.encodeStripped = .ok w) :
    Hashed b mb tx w.bytes
  | node {p : U8Array 32 × U8Array 32} (h : p ∈ nodePairs (b.txdata.map Transaction.txid)) :
    Hashed b mb tx (pairBytes p)
  | proof {p : U8Array 32 × U8Array 32} (h : p ∈ mb.txn.hashedPairs) : Hashed b mb tx (pairBytes p)

/-- A transaction whose txid is among the matches of a proof that was accepted against the header of a
block is in the block, as long as no transaction is as long as a pair of nodes.  The proof may claim any
number of transactions. -/
theorem accepted_is_member {b : Blockdata.Block} {mb : MerkleBlock} {tx : Transaction} (hb : b.Allocated)
    (htx : tx.Sized) (hcheck : b.checkMerkleRoot = .ok true)
    (hheader : mb.header.merkleRoot = b.header.merkleRoot) (hsize : ∀ t ∈ tx :: b.txdata, t.baseSize ≠ 64)
    (hfree : Set.InjOn Sha256d.hash {m | Hashed b mb tx m}) {matched : List Txid} {indexes : List ℕ}
    (hrun : mb.extractMatches = .ok (matched, indexes)) (hmem : tx.txid ∈ matched) :
    ∃ t ∈ b.txdata, t.stripped = tx.stripped := by
  obtain ⟨hne, hroot⟩ := (Blockdata.Block.checkMerkleRoot_iff hb).1 hcheck
  rw [extractMatches_eq_ok_iff] at hrun
  obtain ⟨-, t, -, hpairs, htop, rfl, -⟩ := extractMatches_reads hrun
  have hmsg : ∀ u ∈ tx :: b.txdata, ∃ w, u.encodeStripped = .ok w ∧ Hashed b mb tx w.bytes ∧
      w.bytes.length ≠ 64 ∧ u.txid = Sha256d.hash w.bytes := by
    intro u hu
    have hsized : u.Sized := by
      rcases List.mem_cons.1 hu with rfl | h
      · exact htx
      · exact (hb.transaction u h).sized
    obtain ⟨w, e⟩ := Transaction.exists_encodeStripped hsized
    refine ⟨w, e, .txid (List.mem_cons.1 hu).symm e, ?_, Transaction.txid_of_encodeStripped e⟩
    rw [Transaction.measures_encodeStripped _ _ e]
    exact hsize u hu
  have htxid : tx.txid ∈ b.txdata.map Transaction.txid := by
    refine mem_of_found (mt List.map_eq_nil_iff.1 hne) hfree (fun p hp => .node hp)
      (fun p hp => .proof (hpairs ▸ hp)) ?_ (by rw [← htop, hheader, hroot]) hmem
    rw [← List.map_cons]
    intro y hy
    obtain ⟨u, hu, rfl⟩ := List.mem_map.1 hy
    obtain ⟨w, -, hw, hlen, hid⟩ := hmsg u hu
    exact ⟨w.bytes, hw, hlen, hid⟩
  obtain ⟨u, hu, hid⟩ := List.mem_map.1 htxid
  obtain ⟨w, e, hw, -, hw'⟩ := hmsg u (List.mem_cons_of_mem _ hu)
  obtain ⟨v, e', hv, -, hv'⟩ := hmsg tx List.mem_cons_self
  rw [hw', hv'] at hid
  exact ⟨u, hu, Transaction.stripped_eq_of_bytes_eq e e' (hfree hw hv hid)⟩

section

open Blockdata.Block

/-- The proof of the second of three transactions, and the part of the tree that it spells out. -/
def sampleProof : MerkleBlock :=
  ⟨sampleBlock.header, ⟨3, [true, true, false, true, false], [sampleTxid₀, sampleTxid₁, sampleRight]⟩⟩

def sampleSubtree : PartialTree TxMerkleNode 2 :=
  .two (.two (.leaf sampleTxid₀ false) (.leaf sampleTxid₁ true)) (.pruned sampleRight)

theorem pairs_sampleSubtree : sampleSubtree.root parentHash = sampleMerkleRoot ∧
    sampleSubtree.pairs parentHash = [(sampleLeft, sampleRight), (sampleTxid₀, sampleTxid₁)] := by
  obtain ⟨hleft, -, hroot, -⟩ := sample_nodes
  simp [sampleSubtree, PartialTree.root, PartialTree.pairs, hashPair, hleft, hroot]

theorem shape_sampleSubtree : sampleSubtree.Shape 3 0 := by
  simp [sampleSubtree, PartialTree.Shape, width]

theorem distinct_sampleSubtree : sampleSubtree.Distinct parentHash := by
  obtain ⟨hleft, -⟩ := sample_nodes
  simp only [sampleSubtree, PartialTree.Distinct, PartialTree.root, hashPair, hleft, and_true]
  decide

theorem extractMatches_sampleProof : sampleProof.extractMatches = .ok ([sampleTxid₁], [1]) := by
  have hread : sampleProof.txn.extractMatches = .ok (sampleSubtree.root parentHash, [sampleTxid₁], [1]) :=
    extractMatches_of_tree (n := 3) rfl (by decide) (by decide) shape_sampleSubtree distinct_sampleSubtree rfl
      (List.append_nil _).symm rfl (by decide) (by decide)
  rw [extractMatches_eq_ok_iff, hread, pairs_sampleSubtree.1]
  rfl

theorem hashedPairs_sampleProof :
    sampleProof.txn.hashedPairs = [(sampleLeft, sampleRight), (sampleTxid₀, sampleTxid₁)] := by
  obtain ⟨-, hpairs⟩ := pairs_sampleSubtree
  rw [← hpairs]
  rfl

/-- A client accepts the proof of the second of three transactions. -/
theorem accepted_is_member_sample : sampleProof.extractMatches = .ok ([sampleTxid₁], [1]) ∧
    ∃ t ∈ sampleBlock.txdata, t.stripped = (spendOf 1).stripped := by
  have hmem : spendOf 1 ∈ sampleBlock.txdata := List.mem_cons_of_mem _ List.mem_cons_self
  have hsize : ∀ t ∈ spendOf 1 :: sampleBlock.txdata, t.baseSize ≠ 64 :=
    List.forall_mem_cons.2 ⟨isSample_sampleBlock.baseSize_ne _ hmem, isSample_sampleBlock.baseSize_ne⟩
  have hhashed : ∀ m, Hashed sampleBlock sampleProof (spendOf 1) m → m ∈ sampleMessages := by
    intro m hm
    cases hm with
    | txid h e => exact isSample_sampleBlock.mem_sampleMessages (.txid (h.elim id (· ▸ hmem)) e)
    | node h => exact isSample_sampleBlock.mem_sampleMessages (.node h)
    | proof h =>
      rw [hashedPairs_sampleProof] at h
      simp only [List.mem_cons, List.not_mem_nil, or_false] at h
      rcases h with rfl | rfl <;> simp [sampleMessages]
  refine ⟨extractMatches_sampleProof, accepted_is_member isSample_sampleBlock.allocated (allocated_spendOf 1).sized
    isSample_sampleBlock.checkMerkleRoot rfl hsize (injOn_sampleMessages.mono hhashed) extractMatches_sampleProof ?_⟩
  rw [sample_txids.2.1]
  exact List.mem_singleton_self _

end

/-! ## What an honest node proves -/

/-- A proof as it is read back: its flags are filled up to whole bytes. -/
def padded (pmt : PartialMerkleTree) : PartialMerkleTree := ofFields pmt.toFields

theorem encode_padded (pmt : PartialMerkleTree) :
    PartialMerkleTree.codec.consensusEncode (padded pmt) = PartialMerkleTree.codec.consensusEncode pmt := by
  show encodeFields (ofFields pmt.toFields).toFields = encodeFields pmt.toFields
  rw [toFields_ofFields]

/-- The tree that is served for some txids of a block, and what is extracted from it when it is read
back. -/
theorem extractMatches_served {txids : List Txid} {matched : List Bool} (hne : txids ≠ [])
    (hmax : txids.length ≤ 16666) (hnodup : txids.Nodup) (hmatched : matched.length = txids.length)
    (hinj : Set.InjOn (hashPair parentHash) {q | q ∈ nodePairs txids}) :
    ∃ pmt, fromTxids txids matched = .ok pmt ∧ pmt.hashes.length ≤ 16666 ∧
      pmt.bits.length ≤ 16 * 16666 ∧ (padded pmt).extractMatches =
        .ok (rootNode txids, (positions matched).map (leafOf txids), positions matched) := by
  have hpos := List.length_pos_iff.2 hne
  have hzero : 0 * 2 ^ height txids.length < txids.length := by rwa [Nat.zero_mul]
  have hheight : height txids.length ≤ 15 := Nat.clog_le_of_le_pow (hmax.trans (by decide))
  have hlen := PartialTree.length_prune (H := parentHash) (f := leafOf txids) (m := leafOf matched) hzero
  have hfound := PartialTree.found_prune (H := parentHash) (f := leafOf txids) (m := leafOf matched) hzero
  rw [leaves_top (le_two_pow_height _), List.length_range] at hlen
  rw [leaves_top (le_two_pow_height _)] at hfound
  have hbits := hlen.2.trans (Nat.mul_le_mul (by omega : height txids.length + 1 ≤ 16) hmax)
  have hdistinct := PartialTree.distinct_prune (m := leafOf matched) hinj (leafOf_injOn hnodup) le_rfl hzero
  refine ⟨_, fromTxids_eq hpos (by omega) hmatched, hlen.1.trans hmax, hbits, ?_⟩
  rw [padded, ofFields_toFields]
  dsimp only
  refine (extractMatches_of_tree (UInt32.toNat_ofNat_of_lt' (hmax.trans_lt (by decide))) hpos hmax
    (PartialTree.shape_prune _ _) hdistinct rfl rfl ?_ hlen.1 ?_).trans ?_
  · dsimp only
    rw [List.length_append, List.length_replicate]
    omega
  · dsimp only
    rw [List.length_append, List.length_replicate]
    omega
  · rw [PartialTree.root_prune, hfound, rootNode, positions, hmatched, List.map_map, List.map_map]
    simp [Function.comp_def]

/-- A proof of at most as many transactions as fit a block can be sent. -/
theorem decodable_padded {pmt : PartialMerkleTree} (hhashes : pmt.hashes.length ≤ 16666)
    (hbits : pmt.bits.length ≤ 16 * 16666) : (padded pmt).Decodable := by
  have hvec : MAX_VEC_SIZE = 4000000 := rfl
  have hlen : (padded pmt).bits.length = 8 * ((pmt.bits.length + 7) / 8) := by
    rw [padded, ofFields_toFields, List.length_append, List.length_replicate]
    omega
  have hsame : (padded pmt).hashes = pmt.hashes := by rw [padded, ofFields_toFields]
  refine ⟨⟨hsame ▸ fits_hashes hhashes, by omega, hlen ▸ Nat.dvd_mul_right _ _⟩, ?_⟩
  intro w hw
  have hcount := VarInt.size_le ⟨UInt64.ofNat pmt.hashes.length⟩
  have hflags := VarInt.size_le ⟨UInt64.ofNat (((padded pmt).bits.length + 7) / 8)⟩
  rw [length_encoded hw, serializedSize, hsame, VarInt.sizeOfLen, VarInt.sizeOfLen]
  omega

theorem leafOf_map {α : Type} {β : Type} [Inhabited β] {f : α → β} {xs : List α} {i : ℕ} (hi : i < xs.length) :
    leafOf (xs.map f) i = f xs[i] := by
  rw [leafOf, List.getD_eq_getElem?_getD, List.getElem?_map, List.getElem?_eq_getElem hi]
  rfl

theorem positions_map (txids : List Txid) (matchTxids : Txid → Bool) :
    positions (txids.map matchTxids) =
      (List.range txids.length).filter fun i => matchTxids (leafOf txids i) := by
  rw [positions, List.length_map]
  apply List.filter_congr
  intro i hi
  rw [List.mem_range] at hi
  have hleaf : leafOf txids i = txids[i] := by
    rw [leafOf, List.getD_eq_getElem?_getD, List.getElem?_eq_getElem hi]
    rfl
  rw [leafOf_map hi, hleaf]

theorem map_leafOf_filter (txids : List Txid) (matchTxids : Txid → Bool) :
    ((List.range txids.length).filter fun i => matchTxids (leafOf txids i)).map (leafOf txids) =
      txids.filter matchTxids := by
  have h := List.filter_map (p := matchTxids) (f := leafOf txids) (l := List.range txids.length)
  rw [map_leafOf_range] at h
  exact h.symm

/-- The messages that are hashed for the txids of a block and the tree above them. -/
inductive TreeHashed (b : Blockdata.Block) : Bytes → Prop
  | txid {tx : Transaction} {w : Written} (h : tx ∈ b.txdata) (e : tx.encodeStripped = .ok w) :
    TreeHashed b w.bytes
  | node {p : U8Array 32 × U8Array 32} (h : p ∈ nodePairs (b.txdata.map Transaction.txid)) :
    TreeHashed b (pairBytes p)

/-- What a client extracts from the proof that a node makes for a predicate are the txids that match it,
each with the position of its transaction. -/
theorem matches_arrive {b : Blockdata.Block} (hb : b.Allocated) (hcheck : b.checkMerkleRoot = .ok true)
    (hmax : b.txdata.length ≤ 16666) (hnodup : b.stripped.txdata.Nodup)
    (hfree : Set.InjOn Sha256d.hash {m | TreeHashed b m}) (matchTxids : Txid → Bool) :
    ∃ mb w mb', fromBlockWithPredicate b matchTxids = .ok mb ∧
      MerkleBlock.codec.consensusEncode mb = .ok w ∧ deserialize MerkleBlock.codec w.bytes = .ok mb' ∧
      mb'.header = b.header ∧
      mb'.extractMatches = .ok ((b.txdata.map Transaction.txid).filter matchTxids,
        (List.range b.txdata.length).filter fun i => b.txdata[i]?.any fun tx => matchTxids tx.txid) := by
  obtain ⟨hne, hroot⟩ := (Blockdata.Block.checkMerkleRoot_iff hb).1 hcheck
  have hids := Blockdata.Block.computeTxids_eq hb
  obtain ⟨txids, htxids⟩ : ∃ txids, txids = b.txdata.map Transaction.txid := ⟨_, rfl⟩
  have hlen : txids.length = b.txdata.length := by rw [htxids, List.length_map]
  have hempty : txids ≠ [] := by
    rw [htxids]
    exact mt List.map_eq_nil_iff.1 hne
  have hinj : Set.InjOn (hashPair parentHash) {q | q ∈ nodePairs txids} := by
    apply (injOn_pairs hfree (fun p hp => TreeHashed.node hp) fun p hp => TreeHashed.node hp).mono
    intro q hq
    rw [htxids] at hq
    exact List.mem_append_left _ hq
  have hdistinct : txids.Nodup := by
    rw [htxids]
    apply List.Nodup.map_on _ (List.Nodup.of_map _ hnodup)
    intro tx htx tx' htx' h
    obtain ⟨w, e⟩ := Transaction.exists_encodeStripped (hb.transaction tx htx).sized
    obtain ⟨w', e'⟩ := Transaction.exists_encodeStripped (hb.transaction tx' htx').sized
    rw [Transaction.txid_of_encodeStripped e, Transaction.txid_of_encodeStripped e'] at h
    have hstripped := Transaction.stripped_eq_of_bytes_eq e e' (hfree (.txid htx e) (.txid htx' e') h)
    exact List.inj_on_of_nodup_map hnodup htx htx' hstripped
  have hmatched : (txids.map matchTxids).length = txids.length := List.length_map _
  obtain ⟨pmt, hbuilt, hhashes, hbits, hextract⟩ :=
    extractMatches_served hempty (hlen.le.trans hmax) hdistinct hmatched hinj
  have hmb : fromBlockWithPredicate b matchTxids = .ok ⟨b.header, pmt⟩ := by
    rw [fromBlockWithPredicate, hids, ← htxids, Outcome.ok_bind, fromHeaderTxidsWithPredicate, hbuilt]
    rfl
  obtain ⟨u, hu⟩ := b.header.exists_encode
  obtain ⟨v, hv⟩ := PartialMerkleTree.exists_encode (hhashes.trans_lt (by decide)) (hbits.trans_lt (by decide))
  have hencode : ∀ txn, PartialMerkleTree.codec.consensusEncode txn = .ok v →
      MerkleBlock.codec.consensusEncode ⟨b.header, txn⟩ = .ok (u ++ v) := by
    intro txn hv
    exact Encoder.seq_eq_ok_iff.2 ⟨u, v, hu, hv, rfl⟩
  have hread := MerkleBlock.lawful.finite.roundTrips ⟨b.header, padded pmt⟩ _ (decodable_padded hhashes hbits)
    (hencode _ ((encode_padded pmt).trans hv)) []
  rw [List.append_nil] at hread
  refine ⟨_, _, _, hmb, hencode pmt hv, (deserialize_eq_ok_iff _).2 hread, rfl, ?_⟩
  have hindexes : ((List.range txids.length).filter fun i => matchTxids (leafOf txids i)) =
      (List.range b.txdata.length).filter fun i => b.txdata[i]?.any fun tx => matchTxids tx.txid := by
    rw [hlen]
    apply List.filter_congr
    intro i hi
    rw [List.mem_range] at hi
    rw [htxids, leafOf_map hi, List.getElem?_eq_getElem hi]
    rfl
  rw [extractMatches_eq_ok_iff]
  dsimp only
  rw [hextract, hroot, ← htxids, positions_map, map_leafOf_filter, hindexes]

section

open Blockdata.Block

/-- A client asks for the second of three transactions. -/
theorem matches_arrive_sample :
    ∃ mb w mb', fromBlockWithPredicate sampleBlock (· = sampleTxid₁) = .ok mb ∧
      MerkleBlock.codec.consensusEncode mb = .ok w ∧ deserialize MerkleBlock.codec w.bytes = .ok mb' ∧
      mb'.header = sampleBlock.header ∧ mb'.extractMatches = .ok ([sampleTxid₁], [1]) := by
  have hhashed : ∀ m, TreeHashed sampleBlock m → m ∈ sampleMessages := by
    intro m hm
    cases hm with
    | txid h e => exact isSample_sampleBlock.mem_sampleMessages (.txid h e)
    | node h => exact isSample_sampleBlock.mem_sampleMessages (.node h)
  obtain ⟨mb, w, mb', hmb, hw, hmb', hheader, hextract⟩ := matches_arrive isSample_sampleBlock.allocated
    isSample_sampleBlock.checkMerkleRoot (by decide) nodup_sampleBlock (injOn_sampleMessages.mono hhashed)
    fun txid => txid = sampleTxid₁
  refine ⟨mb, w, mb', hmb, hw, hmb', hheader, hextract.trans ?_⟩
  have hany : ∀ i : ℕ, (sampleBlock.txdata[i]?.any fun tx : Transaction => decide (tx.txid = sampleTxid₁)) =
      ([sampleTxid₀, sampleTxid₁, sampleTxid₂][i]?.any fun txid => decide (txid = sampleTxid₁)) := by
    intro i
    rw [← map_txid_sampleBlock, List.getElem?_map, Option.any_map]
  simp only [map_txid_sampleBlock, hany]
  decide

end

end MerkleBlock

end RustDogecoin
