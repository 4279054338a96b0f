import RustDogecoin.Crypto.Signing
import RustDogecoin.Taproot.Order

/-!
# Spending information

`TaprootSpendInfo` of `taproot/mod.rs`: the output key of a script tree, and for each of its scripts the
branches that lead to the root.  `control_block` takes the shortest of them, and
`verify_taproot_commitment` folds it back to the root (`verifyTaprootCommitment_controlBlock`).

What is used of the `secp256k1` crate is the tweak of an x-only key and its check: `XOnlyTweaks`.
-/

namespace RustDogecoin

namespace Taproot

/-! ## Sets -/

/-- `BTreeSet`. -/
abbrev BTreeSet (K : Type) [LinearOrder K] := BTreeMap K Unit

namespace BTreeSet

variable {K : Type} [LinearOrder K]

/-- `BTreeSet::new`. -/
def new : BTreeSet K := ∅

/-- `BTreeSet::insert`. -/
def insert (s : BTreeSet K) (k : K) : BTreeSet K := Std.ExtTreeMap.insert s k ()

/-- The elements in order. -/
def iter (s : BTreeSet K) : List K := s.toList.map Prod.fst

theorem mem_iter_insert {s : BTreeSet K} {k k' : K} : k' ∈ (insert s k).iter ↔ k' = k ∨ k' ∈ s.iter := by
  have hmem : ∀ s : BTreeSet K, k' ∈ s.iter ↔ s[k']? = some () := by
    intro s
    rw [iter, List.mem_map]
    constructor
    · rintro ⟨⟨k'', u⟩, h, rfl⟩
      exact (BTreeMap.mem_toList_iff s k'' u).1 h
    · exact fun h => ⟨(k', ()), (BTreeMap.mem_toList_iff s k' ()).2 h, rfl⟩
  rw [hmem, hmem, insert, BTreeMap.getElem?_insert]
  by_cases h : k = k'
  · simp [h]
  · simp [h, Ne.symm h]

theorem iter_new : (new : BTreeSet K).iter = [] := by
  simp [iter, new]

end BTreeSet

/-- `Iterator::min_by`: the first of the least items. -/
def minBy {α : Type} (f : α → ℕ) : List α → Option α
  | [] => none
  | a :: l =>
    match minBy f l with
    | none => some a
    | some b => if f b < f a then some b else some a

theorem minBy_spec {α : Type} (f : α → ℕ) {l : List α} (h : l ≠ []) :
    ∃ a, minBy f l = some a ∧ a ∈ l ∧ ∀ b ∈ l, f a ≤ f b := by
  induction l with
  | nil => exact absurd rfl h
  | cons a l ih =>
    rw [minBy]
    by_cases hl : l = []
    · subst hl
      exact ⟨a, rfl, List.mem_singleton_self a, by simp⟩
    obtain ⟨b, hb, hmem, hle⟩ := ih hl
    rw [hb]
    dsimp only
    split_ifs with hlt
    · refine ⟨b, rfl, List.mem_cons_of_mem a hmem, fun c hc => ?_⟩
      rcases List.mem_cons.1 hc with rfl | hc
      · exact hlt.le
      · exact hle c hc
    · refine ⟨a, rfl, List.mem_cons_self, fun c hc => ?_⟩
      rcases List.mem_cons.1 hc with rfl | hc
      · exact le_rfl
      · exact (not_lt.1 hlt).trans (hle c hc)

/-! ## Tweaked keys -/

variable (S : KeyFormats)

/-- Tweaks of x-only keys, as the `secp256k1` crate offers them. -/
structure XOnlyTweaks where
  Scalar : Type
  /-- `Scalar::from_be_bytes`. -/
  scalarFromBeBytes : U8Array 32 → Except S.Error Scalar
  /-- `XOnlyPublicKey::add_tweak`. -/
  addTweak : S.XOnlyPublicKey → Scalar → Except S.Error (S.XOnlyPublicKey × Parity)
  /-- `XOnlyPublicKey::tweak_add_check`, of a key, its tweaked key with the parity, and the tweak. -/
  tweakAddCheck : S.XOnlyPublicKey → S.XOnlyPublicKey → Parity → Scalar → Bool

variable {S}

/-- The check accepts exactly the result of the tweak. -/
def XOnlyTweaks.Lawful (secp : XOnlyTweaks S) : Prop :=
  ∀ key tweaked parity tweak,
    secp.tweakAddCheck key tweaked parity tweak = true ↔ secp.addTweak key tweak = .ok (tweaked, parity)

variable (secp : XOnlyTweaks S)

/-- `TapTweakHash::to_scalar`. -/
def TapTweakHash.toScalar (tweak : U8Array 32) : Outcome Empty secp.Scalar :=
  (Outcome.ofExcept (secp.scalarFromBeBytes tweak)).expect

/-- `tap_tweak` of an untweaked public key. -/
def tapTweak (key : S.XOnlyPublicKey) (merkleRoot : Option TapNodeHash) :
    Outcome Empty (S.XOnlyPublicKey × Parity) := do
  let tweak ← TapTweakHash.toScalar secp (tapTweakHash key merkleRoot)
  let (outputKey, parity) ← (Outcome.ofExcept (secp.addTweak key tweak)).expect
  .require (secp.tweakAddCheck key outputKey parity tweak = true) .assertion
  return (outputKey, parity)

/-! ## The script map -/

/-- From a script with its version to the branches that lead to the root. -/
abbrev ScriptMerkleProofMap := BTreeMap ScriptVer (BTreeSet TaprootMerkleBranch)

/-- The loop of `from_node_info`. -/
def ScriptMerkleProofMap.addLeaf (map : ScriptMerkleProofMap) (l : LeafNode) : ScriptMerkleProofMap :=
  match l.leaf with
  | .hidden _ => map
  | .script script ver =>
    match map[ScriptVer.mk script ver]? with
    | none => map.insert ⟨script, ver⟩ (BTreeSet.new.insert l.merkleBranch)
    | some set => map.insert ⟨script, ver⟩ (set.insert l.merkleBranch)

variable (S)

structure TaprootSpendInfo where
  internalKey : S.XOnlyPublicKey
  merkleRoot : Option TapNodeHash
  outputKeyParity : Parity
  outputKey : S.XOnlyPublicKey
  scriptMap : ScriptMerkleProofMap

variable {S}

namespace TaprootSpendInfo

/-- `TaprootSpendInfo::new_key_spend`. -/
def newKeySpend (internalKey : S.XOnlyPublicKey) (merkleRoot : Option TapNodeHash) :
    Outcome Empty (TaprootSpendInfo S) := do
  let (outputKey, parity) ← tapTweak secp internalKey merkleRoot
  return ⟨internalKey, merkleRoot, parity, outputKey, ∅⟩

/-- `TaprootSpendInfo::from_node_info`. -/
def fromNodeInfo (internalKey : S.XOnlyPublicKey) (node : NodeInfo) : Outcome Empty (TaprootSpendInfo S) := do
  let info ← newKeySpend secp internalKey (some node.hash)
  return { info with scriptMap := node.leaves.foldl ScriptMerkleProofMap.addLeaf info.scriptMap }

/-- `TaprootSpendInfo::control_block`. -/
def controlBlock (info : TaprootSpendInfo S) (scriptVer : ScriptVer) : Outcome Empty (Option (ControlBlock S)) :=
  match info.scriptMap[scriptVer]? with
  | none => return none
  | some merkleBranchSet =>
    match minBy (fun branch => branch.hashes.length) merkleBranchSet.iter with
    | none => .panic .unwrap
    | some smallest => return some ⟨scriptVer.ver, info.outputKeyParity, info.internalKey, smallest⟩

end TaprootSpendInfo

/-- `ControlBlock::verify_taproot_commitment`. -/
def ControlBlock.verifyTaprootCommitment (cb : ControlBlock S) (outputKey : S.XOnlyPublicKey)
    (script : Bytes) : Outcome Empty Bool := do
  let currHash := cb.merkleBranch.hashes.foldl TapNodeHash.fromNodeHashes
    (TapLeafHash.fromScript script cb.leafVersion)
  let tweak ← TapTweakHash.toScalar secp (tapTweakHash cb.internalKey (some currHash))
  return secp.tweakAddCheck cb.internalKey outputKey cb.outputKeyParity tweak

/-! ## Decoding gives the bytes back -/

theorem flatMap_of_mapM_chunks {ε : Type} {n : ℕ} {sl : Bytes} (hlen : sl.length = 32 * n)
    {inner : List TapNodeHash} (h : (chunksExact 32 n sl).mapM
      (fun chunk => ((hashFromSlice 32 chunk).expect.lift : Outcome ε TapNodeHash)) = .ok inner) :
    inner.flatMap U8Array.toList = sl := by
  induction n generalizing sl inner with
  | zero =>
    obtain rfl : sl = [] := List.length_eq_zero_iff.1 hlen
    cases h
    rfl
  | succ n ih =>
    rw [chunksExact, List.mapM_cons] at h
    have hchunk : (sl.take 32).length = 32 := by
      rw [List.length_take]
      omega
    obtain ⟨first, hfirst, h⟩ := Outcome.bind_eq_ok_iff.1 h
    obtain ⟨tail, htail, h⟩ := Outcome.bind_eq_ok_iff.1 h
    cases h
    rw [hashFromSlice, dif_pos hchunk] at hfirst
    cases hfirst
    rw [List.flatMap_cons, ih (by rw [List.length_drop]; omega) htail]
    exact List.take_append_drop 32 sl

theorem TaprootMerkleBranch.serialize_of_decode {sl : Bytes} {branch : TaprootMerkleBranch}
    (h : (decode sl : Outcome (ControlBlockError S) _) = .ok branch) : branch.serialize = sl := by
  unfold decode at h
  obtain ⟨hmod, h⟩ := Outcome.ensure_bind_eq_ok_iff.1 h
  split_ifs at h
  obtain ⟨inner, hinner, h⟩ := Outcome.bind_eq_ok_iff.1 h
  split_ifs at h with hcount
  cases h
  have hlen : sl.length = 32 * (sl.length / 32) := (Nat.mul_div_cancel' (Nat.dvd_of_mod_eq_zero hmod)).symm
  exact flatMap_of_mapM_chunks hlen hinner

theorem LeafVersion.toConsensus_of_fromConsensus {version : UInt8} {v : LeafVersion}
    (h : LeafVersion.fromConsensus version = .ok v) : v.toConsensus = version := by
  unfold fromConsensus at h
  split_ifs at h with htap hannex
  · cases h
    exact htap.symm
  · obtain ⟨future, hfuture, rfl⟩ := Outcome.map_eq_ok_iff.1 h
    unfold FutureLeafVersion.fromConsensus at hfuture
    split_ifs at hfuture
    cases hfuture
    rfl

/-- The parity bit and the version make up the first byte. -/
theorem parity_or_masked (b : UInt8) :
    (if b &&& 1 = 0 then Parity.even else Parity.odd).toU8 ||| b &&& TAPROOT_LEAF_MASK = b := by
  have hall : ∀ n : Fin 256, (if UInt8.ofNat n.1 &&& 1 = 0 then Parity.even else Parity.odd).toU8 |||
      UInt8.ofNat n.1 &&& TAPROOT_LEAF_MASK = UInt8.ofNat n.1 := by
    decide +kernel
  have hb := hall ⟨b.toNat, b.toNat_lt⟩
  rwa [UInt8.ofNat_toNat] at hb

/-- A decoded control block is written as the bytes it was read from. -/
theorem ControlBlock.serialize_of_decode
    (hkey : ∀ bs key, S.xOnlyFromSlice bs = .ok key → (S.xOnlySerialize key).toList = bs) {sl : Bytes}
    {cb : ControlBlock S} (h : ControlBlock.decode sl = .ok cb) : cb.serialize = sl := by
  unfold ControlBlock.decode at h
  obtain ⟨⟨hsize, -⟩, h⟩ := Outcome.ensure_bind_eq_ok_iff.1 h
  obtain ⟨v, hv, h⟩ := Outcome.bind_eq_ok_iff.1 h
  obtain ⟨key, hk, h⟩ := Outcome.bind_eq_ok_iff.1 h
  obtain ⟨branch, hbranch, h⟩ := Outcome.bind_eq_ok_iff.1 h
  cases h
  rw [Outcome.mapErr_eq_ok_iff] at hv hk
  have hversion := LeafVersion.toConsensus_of_fromConsensus hv
  have hbytes := hkey _ _ (Outcome.ofExcept_eq_ok_iff.1 hk)
  have hrest := TaprootMerkleBranch.serialize_of_decode hbranch
  cases sl with
  | nil => simp [TAPROOT_CONTROL_BASE_SIZE] at hsize
  | cons b bs =>
    rw [List.headD_cons] at hversion
    rw [ControlBlock.serialize, hversion, hbytes, hrest, List.headD_cons, parity_or_masked]
    simp [TAPROOT_CONTROL_BASE_SIZE]

/-! ## Branches of a node lead to its hash -/

/-- Every leaf of a node has a branch that leads to the hash of the node. -/
theorem Built.fold_eq {n : NodeInfo} (h : Built n) : ∀ l ∈ n.leaves, l.fold = n.hash := by
  induction h with
  | leaf leaf => exact (isNode_leaf leaf).fold_eq
  | @combine a b n _ _ h iha ihb =>
    have hside : ∀ x y : NodeInfo, (∀ l ∈ x.leaves, l.fold = x.hash) → (∀ l ∈ y.leaves, l.fold = y.hash) →
        ∀ hash, TapNodeHash.fromNodeHashes x.hash y.hash = hash →
        (do
          let xLeaves ← NodeInfo.pushPartner y.hash x.leaves
          let yLeaves ← NodeInfo.pushPartner x.hash y.leaves
          return (⟨hash, xLeaves ++ yLeaves, x.hasHiddenNodes || y.hasHiddenNodes⟩ : NodeInfo)) = .ok n →
        ∀ l ∈ n.leaves, l.fold = n.hash := by
      intro x y hx hy hash hhash h
      obtain ⟨xLeaves, hpx, h⟩ := Outcome.bind_eq_ok_iff.1 h
      obtain ⟨yLeaves, hpy, h⟩ := Outcome.bind_eq_ok_iff.1 h
      cases h
      intro l hl
      rcases List.mem_append.1 hl with hl | hl
      · rw [IsPushed.fold_eq (isPushed_of_pushPartner hpx) hx l hl, hhash]
      · rw [IsPushed.fold_eq (isPushed_of_pushPartner hpy) hy l hl, TapNodeHash.fromNodeHashes_comm, hhash]
    unfold NodeInfo.combine at h
    by_cases hlt : a.hash.toList < b.hash.toList
    · simp only [TapNodeHash.combineNodeHashes, hlt, decide_true, if_true] at h
      refine hside a b iha ihb _ ?_ h
      simp [TapNodeHash.fromNodeHashes, TapNodeHash.combineNodeHashes, hlt]
    · simp only [TapNodeHash.combineNodeHashes, hlt, decide_false, if_false, Bool.false_eq_true] at h
      refine hside b a ihb iha _ ?_ h
      rw [TapNodeHash.fromNodeHashes_comm]
      simp [TapNodeHash.fromNodeHashes, TapNodeHash.combineNodeHashes, hlt]

/-! ## The branches of a script -/

namespace ScriptMerkleProofMap

/-- The branches that `map` has for a script. -/
def branches (map : ScriptMerkleProofMap) (key : ScriptVer) : List TaprootMerkleBranch :=
  match map[key]? with
  | none => []
  | some set => set.iter

/-- A script is in the map exactly if it has a branch there. -/
def NonEmpty (map : ScriptMerkleProofMap) : Prop := ∀ (key : ScriptVer) set, map[key]? = some set → set.iter ≠ []

theorem addLeaf_spec {map : ScriptMerkleProofMap} (hmap : map.NonEmpty) (l : LeafNode) :
    (map.addLeaf l).NonEmpty ∧ ∀ key branch, branch ∈ (map.addLeaf l).branches key ↔
      branch ∈ map.branches key ∨ l.leaf = .script key.script key.ver ∧ branch = l.merkleBranch := by
  have hinsert : ∀ (script : Bytes) (ver : LeafVersion) (set : BTreeSet TaprootMerkleBranch),
      set.iter = map.branches ⟨script, ver⟩ →
      NonEmpty (map.insert ⟨script, ver⟩ (set.insert l.merkleBranch)) ∧
      ∀ key branch, branch ∈ branches (map.insert ⟨script, ver⟩ (set.insert l.merkleBranch)) key ↔
        branch ∈ map.branches key ∨ ScriptVer.mk script ver = key ∧ branch = l.merkleBranch := by
    intro script ver set hset
    have hget := BTreeMap.getElem?_insert map ⟨script, ver⟩
    constructor
    · intro key set' hkey
      rw [hget] at hkey
      split_ifs at hkey with heq
      · cases hkey
        exact List.ne_nil_of_mem (BTreeSet.mem_iter_insert.2 (.inl rfl))
      · exact hmap key set' hkey
    · intro key branch
      unfold branches
      rw [hget]
      by_cases heq : ScriptVer.mk script ver = key
      · subst heq
        rw [if_pos rfl]
        dsimp only
        rw [BTreeSet.mem_iter_insert, hset]
        simp [branches, or_comm]
      · simp [heq]
  unfold addLeaf
  cases hleaf : l.leaf with
  | hidden hash => exact ⟨hmap, by simp⟩
  | script script ver =>
    have hsame : ∀ key : ScriptVer, TapLeaf.script script ver = .script key.script key.ver ↔
        ScriptVer.mk script ver = key := by
      intro key
      cases key
      simp
    simp only [hsame]
    cases hget : map[ScriptVer.mk script ver]? with
    | none => exact hinsert script ver BTreeSet.new (by rw [BTreeSet.iter_new, branches, hget])
    | some set => exact hinsert script ver set (by rw [branches, hget])

theorem foldl_addLeaf_spec {map : ScriptMerkleProofMap} (hmap : map.NonEmpty) (leaves : List LeafNode) :
    (leaves.foldl addLeaf map).NonEmpty ∧ ∀ key branch, branch ∈ (leaves.foldl addLeaf map).branches key ↔
      branch ∈ map.branches key ∨
        ∃ l ∈ leaves, l.leaf = .script key.script key.ver ∧ branch = l.merkleBranch := by
  induction leaves generalizing map with
  | nil => exact ⟨hmap, by simp⟩
  | cons l leaves ih =>
    obtain ⟨hone, hbranches⟩ := addLeaf_spec hmap l
    obtain ⟨hall, hrest⟩ := ih hone
    refine ⟨hall, fun key branch => ?_⟩
    rw [List.foldl_cons, hrest, hbranches, or_assoc, List.exists_mem_cons_iff]

end ScriptMerkleProofMap

namespace TaprootSpendInfo

variable {secp} {info : TaprootSpendInfo S} {internalKey : S.XOnlyPublicKey} {node : NodeInfo}

theorem fromNodeInfo_eq_ok (h : fromNodeInfo secp internalKey node = .ok info) :
    tapTweak secp internalKey (some node.hash) = .ok (info.outputKey, info.outputKeyParity) ∧
      info.internalKey = internalKey ∧ info.scriptMap.NonEmpty ∧
      ∀ key branch, branch ∈ info.scriptMap.branches key ↔
        ∃ l ∈ node.leaves, l.leaf = .script key.script key.ver ∧ branch = l.merkleBranch := by
  obtain ⟨start, hstart, h⟩ := Outcome.bind_eq_ok_iff.1 h
  obtain ⟨⟨outputKey, parity⟩, htweak, hstart⟩ := Outcome.bind_eq_ok_iff.1 hstart
  cases hstart
  cases h
  have hempty : ScriptMerkleProofMap.NonEmpty ∅ := by
    intro key set hkey
    simp at hkey
  have hnone : ∀ key, ScriptMerkleProofMap.branches ∅ key = [] := by
    intro key
    simp [ScriptMerkleProofMap.branches]
  obtain ⟨hne, hbranches⟩ := ScriptMerkleProofMap.foldl_addLeaf_spec hempty node.leaves
  refine ⟨htweak, rfl, hne, fun key branch => ?_⟩
  rw [hbranches, hnone]
  simp

/-- A script of the tree has a control block, with a shortest of its branches, and no other has one. -/
theorem controlBlock_fromNodeInfo (h : fromNodeInfo secp internalKey node = .ok info) (key : ScriptVer) :
    (∃ l ∈ node.leaves, l.leaf = .script key.script key.ver ∧
      info.controlBlock key = .ok (some ⟨key.ver, info.outputKeyParity, internalKey, l.merkleBranch⟩) ∧
      ∀ l' ∈ node.leaves, l'.leaf = l.leaf → l.merkleBranch.hashes.length ≤ l'.merkleBranch.hashes.length) ∨
    (∀ l ∈ node.leaves, l.leaf ≠ .script key.script key.ver) ∧ info.controlBlock key = .ok none := by
  obtain ⟨-, hkey, hne, hbranches⟩ := fromNodeInfo_eq_ok h
  unfold controlBlock
  cases hget : info.scriptMap[key]? with
  | none =>
    refine .inr ⟨fun l hl hleaf => ?_, rfl⟩
    have hmem := (hbranches key l.merkleBranch).2 ⟨l, hl, hleaf, rfl⟩
    rw [ScriptMerkleProofMap.branches, hget] at hmem
    cases hmem
  | some set =>
    have hset : info.scriptMap.branches key = set.iter := by rw [ScriptMerkleProofMap.branches, hget]
    obtain ⟨branch, hmin, hmem, hle⟩ := minBy_spec (fun b : TaprootMerkleBranch => b.hashes.length) (hne key set hget)
    rw [← hset, hbranches] at hmem
    obtain ⟨l, hl, hleaf, rfl⟩ := hmem
    refine .inl ⟨l, hl, hleaf, ?_, fun l' hl' hleaf' => ?_⟩
    · rw [← hkey]
      dsimp only
      rw [hmin]
      rfl
    · apply hle
      rw [← hset, hbranches]
      exact ⟨l', hl', hleaf'.trans hleaf, rfl⟩

end TaprootSpendInfo

/-! ## The commitment -/

theorem expect_ofExcept_eq_ok_iff {ε α : Type} {x : Except ε α} {a : α} :
    (Outcome.ofExcept x).expect = .ok a ↔ x = .ok a := by
  cases x <;> simp [Outcome.ofExcept, Outcome.expect]

/-- The spend info that a tweak makes. -/
theorem TaprootSpendInfo.fromNodeInfo_of_addTweak {secp : XOnlyTweaks S} (hsecp : secp.Lawful)
    {internalKey outputKey : S.XOnlyPublicKey} {node : NodeInfo} {scalar : secp.Scalar} {parity : Parity}
    (hscalar : secp.scalarFromBeBytes (tapTweakHash internalKey (some node.hash)) = .ok scalar)
    (hadd : secp.addTweak internalKey scalar = .ok (outputKey, parity)) :
    TaprootSpendInfo.fromNodeInfo secp internalKey node = .ok ⟨internalKey, some node.hash, parity, outputKey,
      node.leaves.foldl ScriptMerkleProofMap.addLeaf ∅⟩ := by
  have htweak : tapTweak secp internalKey (some node.hash) = .ok (outputKey, parity) := by
    unfold tapTweak
    refine Outcome.bind_eq_ok_iff.2 ⟨scalar, expect_ofExcept_eq_ok_iff.2 hscalar, ?_⟩
    refine Outcome.bind_eq_ok_iff.2 ⟨(outputKey, parity), expect_ofExcept_eq_ok_iff.2 hadd, ?_⟩
    exact Outcome.require_bind_eq_ok_iff.2 ⟨(hsecp _ _ _ _).2 hadd, rfl⟩
  rw [TaprootSpendInfo.fromNodeInfo, TaprootSpendInfo.newKeySpend, htweak]
  rfl

/-- The branch of a leaf leads to the root that the output key was tweaked by. -/
theorem verifyTaprootCommitment_controlBlock {secp : XOnlyTweaks S} (hsecp : secp.Lawful)
    {internalKey : S.XOnlyPublicKey} {node : NodeInfo} {info : TaprootSpendInfo S} (hnode : Built node)
    (hinfo : TaprootSpendInfo.fromNodeInfo secp internalKey node = .ok info) {key : ScriptVer}
    {cb : ControlBlock S} (hcb : info.controlBlock key = .ok (some cb)) :
    cb.verifyTaprootCommitment secp info.outputKey key.script = .ok true := by
  obtain ⟨htweak, -⟩ := TaprootSpendInfo.fromNodeInfo_eq_ok hinfo
  obtain ⟨tweak, hscalar, htweak⟩ := Outcome.bind_eq_ok_iff.1 htweak
  obtain ⟨⟨outputKey, parity⟩, hadd, htweak⟩ := Outcome.bind_eq_ok_iff.1 htweak
  obtain ⟨-, htweak⟩ := Outcome.require_bind_eq_ok_iff.1 htweak
  cases htweak
  have hcheck : secp.tweakAddCheck internalKey info.outputKey info.outputKeyParity tweak = true := by
    rw [hsecp]
    exact expect_ofExcept_eq_ok_iff.1 hadd
  rcases TaprootSpendInfo.controlBlock_fromNodeInfo hinfo key with ⟨l, hl, hleaf, hok, -⟩ | ⟨-, hnone⟩
  · cases hok.symm.trans hcb
    have hfold := hnode.fold_eq l hl
    rw [LeafNode.fold, LeafNode.nodeHash, hleaf, TapLeaf.nodeHash] at hfold
    unfold ControlBlock.verifyTaprootCommitment
    dsimp only
    rw [hfold, hscalar, Outcome.ok_bind, hcheck]
    rfl
  · cases hnone.symm.trans hcb

/-- Control blocks are written as they are read and read as they are written, every script of a tree has
a control block, and what `control_block` returns passes the check against the output key. -/
theorem controlBlock_codec_and_commitment
    (hkey : ∀ key, S.xOnlyFromSlice (S.xOnlySerialize key).toList = .ok key)
    (hbytes : ∀ bs key, S.xOnlyFromSlice bs = .ok key → (S.xOnlySerialize key).toList = bs)
    {secp : XOnlyTweaks S} (hsecp : secp.Lawful) :
    (∀ (sl : Bytes) (cb : ControlBlock S), ControlBlock.decode sl = .ok cb → cb.serialize = sl) ∧
    (∀ cb : ControlBlock S, ControlBlock.decode cb.serialize = .ok cb) ∧
    ∀ (internalKey : S.XOnlyPublicKey) (node : NodeInfo) (info : TaprootSpendInfo S), Built node →
      TaprootSpendInfo.fromNodeInfo secp internalKey node = .ok info → ∀ key : ScriptVer,
      ((∃ l ∈ node.leaves, l.leaf = .script key.script key.ver) →
        ∃ cb, info.controlBlock key = .ok (some cb)) ∧
      ∀ cb, info.controlBlock key = .ok (some cb) →
        cb.verifyTaprootCommitment secp info.outputKey key.script = .ok true := by
  refine ⟨fun sl cb h => ControlBlock.serialize_of_decode hbytes h,
    fun cb => cb.decode_serialize_of hkey, fun internalKey node info hnode hinfo key => ⟨?_, ?_⟩⟩
  · rintro ⟨l, hl, hleaf⟩
    rcases TaprootSpendInfo.controlBlock_fromNodeInfo hinfo key with ⟨l', -, -, hok, -⟩ | ⟨hno, -⟩
    · exact ⟨_, hok⟩
    · exact absurd hleaf (hno l hl)
  · exact fun cb hcb => verifyTaprootCommitment_controlBlock hsecp hnode hinfo hcb

/-! ## The curve itself -/

section Curve

open Secp256k1

/-- Tweaks on the curve: the point with an even second coordinate is moved. -/
def curveTweak (key : XCoordinate) (tweak : Fin groupOrder) : Except CurveError (XCoordinate × Parity) :=
  let point : Point := (liftX key.1 0).map fun y => (key.1, y)
  match CurvePoint.ofPoint (Point.add point (Point.smul 256 tweak.1 generator)) with
  | .ok q => .ok (⟨q.x, q.onCurve.1, Signing.liftX_ne_none q.onCurve⟩, if q.y % 2 = 0 then .even else .odd)
  | .error e => .error e

def curveTweakCheck (key tweaked : XCoordinate) (parity : Parity) (tweak : Fin groupOrder) : Bool :=
  match curveTweak key tweak with
  | .ok result => decide (result = (tweaked, parity))
  | .error _ => false

theorem curveTweakCheck_iff {key tweaked : XCoordinate} {parity : Parity} {tweak : Fin groupOrder} :
    curveTweakCheck key tweaked parity tweak = true ↔ curveTweak key tweak = .ok (tweaked, parity) := by
  unfold curveTweakCheck
  cases curveTweak key tweak with
  | ok result => simp
  | error e => simp

def XOnlyTweaks.curve : XOnlyTweaks KeyFormats.curve where
  Scalar := Fin groupOrder
  scalarFromBeBytes bytes :=
    if h : beNat bytes.toList < groupOrder then .ok ⟨beNat bytes.toList, h⟩ else .error .invalidTweak
  addTweak := curveTweak
  tweakAddCheck := curveTweakCheck

theorem XOnlyTweaks.curve_lawful : XOnlyTweaks.curve.Lawful := fun _ _ _ _ => curveTweakCheck_iff

/-! ### A tree with two leaves -/

/-- The first coordinate of the generator. -/
def sampleInternalKey : XCoordinate :=
  ⟨KeyFormats.base.x, KeyFormats.base.onCurve.1, Signing.liftX_ne_none KeyFormats.base.onCurve⟩

def sampleTree : DepthFirst.LeafTree TapLeaf :=
  .node (.leaf (.script [0x51] .tapScript)) (.leaf (.script [0x52] .tapScript))

/-- The hashes of the leaves and of the node above them. -/
def sampleLeft : TapNodeHash :=
  ⟨[168, 91, 33, 7, 247, 145, 178, 106, 132, 231, 88, 108, 40, 206, 199, 203, 97, 32, 46, 211, 208, 25, 68, 216,
    50, 80, 15, 54, 55, 130, 214, 117], rfl⟩

def sampleRight : TapNodeHash :=
  ⟨[194, 118, 254, 241, 56, 104, 144, 97, 155, 128, 225, 10, 74, 50, 133, 114, 217, 116, 147, 173, 210, 105, 223,
    26, 21, 167, 248, 159, 138, 232, 236, 9], rfl⟩

def sampleRoot : TapNodeHash :=
  ⟨[100, 150, 240, 119, 159, 56, 184, 113, 1, 59, 231, 30, 231, 220, 206, 143, 205, 204, 2, 175, 196, 198, 136,
    172, 177, 89, 252, 93, 226, 251, 165, 94], rfl⟩

def sampleTweak : Fin groupOrder :=
  ⟨0x99990d172d11760a049f5cedde0f23aabf4c0de9ac14d2b74794b2b64d31e6db, by decide⟩

/-- What is hashed to if the left leaf is taken for the script `53`. -/
def otherTweak : Fin groupOrder :=
  ⟨0x583efe23653d930b48261691eb7bb5bbfaeb500fbcf27e080290452164001b4f, by decide⟩

/-- What `curveTweak` computes for the generator and these tweaks. -/
def sampleOutput : XCoordinate × Parity :=
  (⟨0x375e6b86cf1e26279da2fcafb0c032ca313e2398d2e5a52e9ff316e3dafaee39, by decide, by decide +kernel⟩,
    .odd)

def otherOutput : XCoordinate × Parity :=
  (⟨0x4cca09e97d5e9eac70955a850de4fde2587876a156f3ae0ccf16d1cccc9d6a7b, by decide, by decide +kernel⟩,
    .even)

/-- `curveTweak`, as far as these tweaks of the generator are concerned. -/
def sampleAddTweak (key : XCoordinate) (tweak : Fin groupOrder) : Except CurveError (XCoordinate × Parity) :=
  if key ≠ sampleInternalKey then .error .invalidTweak
  else if tweak = sampleTweak then .ok sampleOutput
  else if tweak = otherTweak then .ok otherOutput
  else .error .invalidTweak

def sampleTweakCheck (key tweaked : XCoordinate) (parity : Parity) (tweak : Fin groupOrder) : Bool :=
  match sampleAddTweak key tweak with
  | .ok result => decide (result = (tweaked, parity))
  | .error _ => false

theorem sampleTweakCheck_iff {key tweaked : XCoordinate} {parity : Parity} {tweak : Fin groupOrder} :
    sampleTweakCheck key tweaked parity tweak = true ↔ sampleAddTweak key tweak = .ok (tweaked, parity) := by
  unfold sampleTweakCheck
  cases sampleAddTweak key tweak with
  | ok result => simp
  | error e => simp

def sampleTweaks : XOnlyTweaks KeyFormats.curve where
  Scalar := Fin groupOrder
  scalarFromBeBytes := XOnlyTweaks.curve.scalarFromBeBytes
  addTweak := sampleAddTweak
  tweakAddCheck := sampleTweakCheck

theorem sampleTweaks_lawful : sampleTweaks.Lawful := fun _ _ _ _ => sampleTweakCheck_iff

theorem scalarFromBeBytes_sample {bytes : U8Array 32} {n : Fin groupOrder} (h : bytes.toList = beBytes 32 n.1) :
    sampleTweaks.scalarFromBeBytes bytes = .ok n := by
  have hnat : beNat bytes.toList = n.1 := by
    rw [h, beNat_beBytes_of_lt (n.2.trans (by decide))]
  have hlt : beNat bytes.toList < groupOrder := by
    rw [hnat]
    exact n.2
  exact (dif_pos hlt).trans (congrArg Except.ok (Fin.ext hnat))

/-- A branch of one sibling. -/
def siblingBranch (sibling : TapNodeHash) : TaprootMerkleBranch := ⟨[sibling], Nat.le_add_left 1 127⟩

def sampleNode : NodeInfo where
  hash := sampleRoot
  leaves := [⟨.script [0x51] .tapScript, siblingBranch sampleRight⟩,
    ⟨.script [0x52] .tapScript, siblingBranch sampleLeft⟩]
  hasHiddenNodes := false

/-- The hashes of the sample, computed. -/
theorem sample_hashes : TapLeafHash.fromScript [0x51] .tapScript = sampleLeft ∧
    TapLeafHash.fromScript [0x52] .tapScript = sampleRight ∧
    TapNodeHash.fromNodeHashes sampleRight sampleLeft = sampleRoot ∧
    (tapTweakHash (S := KeyFormats.curve) sampleInternalKey (some sampleRoot)).toList = beBytes 32 sampleTweak.1 := by
  decide +kernel

theorem combine_leaves {x y root : TapNodeHash} {l m : TapLeaf}
    (h : TapNodeHash.combineNodeHashes x y = (root, false)) :
    NodeInfo.combine ⟨x, [⟨l, .empty⟩], false⟩ ⟨y, [⟨m, .empty⟩], false⟩ =
      .ok ⟨root, [⟨m, siblingBranch x⟩, ⟨l, siblingBranch y⟩], false⟩ := by
  rw [NodeInfo.combine]
  dsimp only
  rw [h]
  rfl

theorem nodeOf_leaves (l m : TapLeaf) : nodeOf (.node (.leaf l) (.leaf m)) = NodeInfo.combine m.node l.node := rfl

theorem nodeOf_sampleTree : nodeOf sampleTree = .ok sampleNode := by
  obtain ⟨hleft, hright, hroot, -⟩ := sample_hashes
  have hcombine : TapNodeHash.combineNodeHashes sampleRight sampleLeft = (sampleRoot, false) :=
    Prod.ext hroot (by decide)
  have hl : NodeInfo.newLeafWithVer [0x51] .tapScript =
      ⟨sampleLeft, [⟨.script [0x51] .tapScript, .empty⟩], false⟩ := by
    rw [NodeInfo.newLeafWithVer, hleft]
  have hr : NodeInfo.newLeafWithVer [0x52] .tapScript =
      ⟨sampleRight, [⟨.script [0x52] .tapScript, .empty⟩], false⟩ := by
    rw [NodeInfo.newLeafWithVer, hright]
  calc nodeOf sampleTree
      = NodeInfo.combine (.newLeafWithVer [0x52] .tapScript) (.newLeafWithVer [0x51] .tapScript) := nodeOf_leaves _ _
    _ = NodeInfo.combine ⟨sampleRight, [⟨.script [0x52] .tapScript, .empty⟩], false⟩
        ⟨sampleLeft, [⟨.script [0x51] .tapScript, .empty⟩], false⟩ := congrArg₂ NodeInfo.combine hr hl
    _ = .ok sampleNode := combine_leaves hcombine

def sampleInfo : TaprootSpendInfo KeyFormats.curve where
  internalKey := sampleInternalKey
  merkleRoot := some sampleRoot
  outputKeyParity := sampleOutput.2
  outputKey := sampleOutput.1
  scriptMap := sampleNode.leaves.foldl ScriptMerkleProofMap.addLeaf ∅

theorem fromNodeInfo_sample :
    TaprootSpendInfo.fromNodeInfo sampleTweaks sampleInternalKey sampleNode = .ok sampleInfo := by
  have hadd : sampleAddTweak sampleInternalKey sampleTweak = .ok sampleOutput :=
    (if_neg (not_not.2 rfl)).trans (if_pos rfl)
  obtain ⟨-, -, -, htweak⟩ := sample_hashes
  exact TaprootSpendInfo.fromNodeInfo_of_addTweak sampleTweaks_lawful (scalarFromBeBytes_sample htweak) hadd

/-- The script of the left leaf has a control block, which passes the check against the output key. -/
theorem controlBlock_codec_and_commitment_sample :
    (∀ (sl : Bytes) (cb : ControlBlock KeyFormats.curve), ControlBlock.decode sl = .ok cb → cb.serialize = sl) ∧
    (∀ cb : ControlBlock KeyFormats.curve, ControlBlock.decode cb.serialize = .ok cb) ∧
    ∃ cb, sampleInfo.controlBlock ⟨[0x51], .tapScript⟩ = .ok (some cb) ∧
      cb.verifyTaprootCommitment sampleTweaks sampleInfo.outputKey [0x51] = .ok true := by
  obtain ⟨hserialize, hdecode, hcommit⟩ := controlBlock_codec_and_commitment (S := KeyFormats.curve)
    KeyFormats.curve_lawful.xOnly (fun _ _ h => XCoordinate.beBytes_of_fromSlice h) sampleTweaks_lawful
  obtain ⟨hsome, hverify⟩ := hcommit sampleInternalKey sampleNode sampleInfo (built_of_nodeOf nodeOf_sampleTree)
    fromNodeInfo_sample ⟨[0x51], .tapScript⟩
  obtain ⟨cb, hcb⟩ := hsome ⟨_, List.mem_cons_self, rfl⟩
  exact ⟨hserialize, hdecode, cb, hcb, hverify cb hcb⟩

end Curve

end Taproot

end RustDogecoin
