import Mathlib.Data.List.Perm.Basic
import RustDogecoin.Blockdata.Witness
import RustDogecoin.Hashes.Sha256t
import RustDogecoin.Lib.DepthFirst

/-!
# Nodes of a script tree

`taproot/mod.rs` and `taproot/merkle_branch.rs`: leaf versions, leaves, Merkle branches, and the
`NodeInfo` of a subtree, which carries the leaves below it with their branches.  `combine` joins two
nodes: it hashes them in lexicographic order and gives every leaf the hash of the other side.

`tapRoot` is the root of a script tree by its definition, recursively from tagged hashes.  `IsNode t n`
says that `n` is the node of the tree `t`; `combine` turns nodes of two trees into the node of the tree
that joins them (`IsNode.combine`).  `Built n` says that `n` comes from the functions that make nodes, and
then it is the node of a tree whose leaves stand in the order of its own (`Built.exists_tree`).
-/

namespace RustDogecoin

namespace Taproot

open DepthFirst

abbrev TapNodeHash := U8Array 32

def TAPROOT_CONTROL_MAX_NODE_COUNT : ℕ := 128

def TAPROOT_LEAF_TAPSCRIPT : UInt8 := 0xc0

def TAPROOT_ANNEX_PREFIX : UInt8 := 0x50

/-- `TaprootBuilderError`, as far as a builder returns it. -/
inductive TaprootBuilderError where
  | invalidMerkleTreeDepth (depth : ℕ)
  | nodeNotInDfsOrder
  | overCompleteTree
  | emptyTree
  deriving DecidableEq, Repr

/-- `TaprootError`, as far as leaf versions return it. -/
inductive TaprootError where
  | invalidTaprootLeafVersion (version : UInt8)
  deriving DecidableEq, Repr

/-! ## Leaf versions -/

/-- `FutureLeafVersion`: what `from_consensus` lets through. -/
structure FutureLeafVersion where
  version : UInt8
  even : version &&& 0xfe = version
  ne_tapscript : version ≠ TAPROOT_LEAF_TAPSCRIPT
  ne_annex : version ≠ TAPROOT_ANNEX_PREFIX
  deriving DecidableEq, Repr

inductive LeafVersion where
  | tapScript
  | future (version : FutureLeafVersion)
  deriving DecidableEq, Repr

/-- `FutureLeafVersion::from_consensus`. -/
def FutureLeafVersion.fromConsensus (version : UInt8) : Outcome TaprootError FutureLeafVersion :=
  if htap : version = TAPROOT_LEAF_TAPSCRIPT then .panic .assertion
  else if hannex : version = TAPROOT_ANNEX_PREFIX then
    .err (.invalidTaprootLeafVersion TAPROOT_ANNEX_PREFIX)
  else if heven : version &&& 0xfe = version then .ok ⟨version, heven, htap, hannex⟩
  else .err (.invalidTaprootLeafVersion version)

/-- `LeafVersion::from_consensus`. -/
def LeafVersion.fromConsensus (version : UInt8) : Outcome TaprootError LeafVersion :=
  if version = TAPROOT_LEAF_TAPSCRIPT then .ok .tapScript
  else if version = TAPROOT_ANNEX_PREFIX then
    .err (.invalidTaprootLeafVersion TAPROOT_ANNEX_PREFIX)
  else LeafVersion.future <$> FutureLeafVersion.fromConsensus version

/-- `LeafVersion::to_consensus`. -/
def LeafVersion.toConsensus : LeafVersion → UInt8
  | tapScript => TAPROOT_LEAF_TAPSCRIPT
  | future v => v.version

theorem LeafVersion.fromConsensus_toConsensus (v : LeafVersion) :
    LeafVersion.fromConsensus v.toConsensus = .ok v := by
  cases v with
  | tapScript => rfl
  | future v =>
    rw [toConsensus, fromConsensus, if_neg v.ne_tapscript, if_neg v.ne_annex,
      FutureLeafVersion.fromConsensus, dif_neg v.ne_tapscript, dif_neg v.ne_annex, dif_pos v.even]
    rfl

/-! ## Hashes -/

/-- `TapLeafHash::from_script`. -/
def TapLeafHash.fromScript (script : Bytes) (ver : LeafVersion) : U8Array 32 :=
  let eng := Sha256t.engine (asBytes "TapLeaf")
  let eng := Sha256.HashEngine.input eng [ver.toConsensus]
  let eng := Sha256.HashEngine.input eng (elementBytes script)
  Sha256.fromEngine eng

namespace TapNodeHash

/-- `TapNodeHash::combine_node_hashes`. -/
def combineNodeHashes (a b : TapNodeHash) : TapNodeHash × Bool :=
  let eng := Sha256t.engine (asBytes "TapBranch")
  let eng :=
    if a.toList < b.toList then Sha256.HashEngine.input (Sha256.HashEngine.input eng a.toList) b.toList
    else Sha256.HashEngine.input (Sha256.HashEngine.input eng b.toList) a.toList
  (Sha256.fromEngine eng, a.toList < b.toList)

/-- `TapNodeHash::from_node_hashes`. -/
def fromNodeHashes (a b : TapNodeHash) : TapNodeHash := (combineNodeHashes a b).1

end TapNodeHash

/-! ## Leaves and nodes -/

/-- `TaprootMerkleBranch`: the hashes that join a leaf on its way to the root, nearest first. -/
structure TaprootMerkleBranch where
  hashes : List TapNodeHash
  length_le : hashes.length ≤ TAPROOT_CONTROL_MAX_NODE_COUNT
  deriving DecidableEq, Repr

namespace TaprootMerkleBranch

def empty : TaprootMerkleBranch := ⟨[], Nat.zero_le _⟩

/-- `TaprootMerkleBranch::push`. -/
def push (branch : TaprootMerkleBranch) (h : TapNodeHash) :
    Outcome TaprootBuilderError TaprootMerkleBranch :=
  if hlen : TAPROOT_CONTROL_MAX_NODE_COUNT ≤ branch.hashes.length then
    .err (.invalidMerkleTreeDepth branch.hashes.length)
  else .ok ⟨branch.hashes ++ [h], by rw [List.length_append, List.length_singleton]; omega⟩

end TaprootMerkleBranch

inductive TapLeaf where
  | script (script : Bytes) (ver : LeafVersion)
  | hidden (hash : TapNodeHash)
  deriving DecidableEq, Repr

def TapLeaf.isHidden : TapLeaf → Bool
  | script .. => false
  | hidden _ => true

structure LeafNode where
  leaf : TapLeaf
  merkleBranch : TaprootMerkleBranch
  deriving DecidableEq, Repr

/-- The hash of a leaf; that of a hidden one is known. -/
def TapLeaf.nodeHash : TapLeaf → TapNodeHash
  | script s ver => TapLeafHash.fromScript s ver
  | hidden hash => hash

/-- `LeafNode::node_hash`. -/
def LeafNode.nodeHash (l : LeafNode) : TapNodeHash := l.leaf.nodeHash

structure NodeInfo where
  hash : TapNodeHash
  leaves : List LeafNode
  hasHiddenNodes : Bool
  deriving DecidableEq, Repr

namespace NodeInfo

/-- `NodeInfo::new_hidden_node`. -/
def newHiddenNode (hash : TapNodeHash) : NodeInfo := ⟨hash, [], true⟩

/-- `NodeInfo::new_leaf_with_ver`. -/
def newLeafWithVer (script : Bytes) (ver : LeafVersion) : NodeInfo :=
  ⟨TapLeafHash.fromScript script ver, [⟨.script script ver, .empty⟩], false⟩

/-- The loops of `NodeInfo::combine`: every leaf gets its hashing partner. -/
def pushPartner (partner : TapNodeHash) (leaves : List LeafNode) :
    Outcome TaprootBuilderError (List LeafNode) :=
  leaves.mapM fun l => do
    let merkleBranch ← l.merkleBranch.push partner
    return ⟨l.leaf, merkleBranch⟩

/-- `NodeInfo::combine`. -/
def combine (a b : NodeInfo) : Outcome TaprootBuilderError NodeInfo := do
  let (hash, leftFirst) := TapNodeHash.combineNodeHashes a.hash b.hash
  let (a, b) := if leftFirst then (a, b) else (b, a)
  let aLeaves ← pushPartner b.hash a.leaves
  let bLeaves ← pushPartner a.hash b.leaves
  return ⟨hash, aLeaves ++ bLeaves, a.hasHiddenNodes || b.hasHiddenNodes⟩

end NodeInfo

/-! ## The root by definition -/

/-- The hash of an inner node: the tagged hash of its two children in lexicographic order. -/
def tapBranchHash (a b : U8Array 32) : U8Array 32 :=
  Sha256t.taggedHash (asBytes "TapBranch")
    (if b.toList < a.toList then b.toList ++ a.toList else a.toList ++ b.toList)

/-- The hash of a script leaf: the tagged hash of its version and its script with the length in
front. -/
def tapLeafHash (script : Bytes) (ver : LeafVersion) : U8Array 32 :=
  Sha256t.taggedHash (asBytes "TapLeaf") (ver.toConsensus :: elementBytes script)

/-- The root of a script tree. -/
def tapRoot : LeafTree TapLeaf → U8Array 32
  | .leaf (.script s ver) => tapLeafHash s ver
  | .leaf (.hidden hash) => hash
  | .node l r => tapBranchHash (tapRoot l) (tapRoot r)

theorem length_buffer_engine (tag : Bytes) :
    (Sha256t.engine tag).buffer.length = Sha256.BLOCK_SIZE := by
  simp [Sha256t.engine, Sha256.HashEngine.fromMidstate]

theorem TapLeafHash.fromScript_eq (script : Bytes) (ver : LeafVersion) :
    TapLeafHash.fromScript script ver = tapLeafHash script ver := by
  have htag : Sha256.hashTag (asBytes "TapLeaf") = Sha256.HashEngine.midstate
      (Sha256.HashEngine.input .default
        ((Sha256.hash (asBytes "TapLeaf")).toList ++ (Sha256.hash (asBytes "TapLeaf")).toList)) := by
    decide +kernel
  rw [TapLeafHash.fromScript, ← Sha256.input_append _ _ _ (length_buffer_engine _),
    Sha256t.fromEngine_engine _ _ htag]
  rfl

/-- The code hashes the node first and its left sibling second, in lexicographic order either way. -/
theorem TapNodeHash.fromNodeHashes_eq (a b : TapNodeHash) :
    TapNodeHash.fromNodeHashes b a = tapBranchHash a b := by
  have htag : Sha256.hashTag (asBytes "TapBranch") = Sha256.HashEngine.midstate
      (Sha256.HashEngine.input .default
        ((Sha256.hash (asBytes "TapBranch")).toList ++
          (Sha256.hash (asBytes "TapBranch")).toList)) := by
    decide +kernel
  simp only [TapNodeHash.fromNodeHashes, TapNodeHash.combineNodeHashes, tapBranchHash]
  split_ifs with h
  · rw [← Sha256.input_append _ _ _ (length_buffer_engine _), Sha256t.fromEngine_engine _ _ htag]
  · rw [← Sha256.input_append _ _ _ (length_buffer_engine _), Sha256t.fromEngine_engine _ _ htag]

theorem tapBranchHash_comm (a b : U8Array 32) : tapBranchHash a b = tapBranchHash b a := by
  unfold tapBranchHash
  split_ifs with h₁ h₂ h₂
  · exact absurd h₂ (List.lt_asymm h₁)
  · rfl
  · rfl
  · -- neither comes first, so they are equal
    have heq : a.toList = b.toList := List.le_antisymm (List.not_lt.1 h₁) (List.not_lt.1 h₂)
    rw [heq]

theorem TapNodeHash.fromNodeHashes_comm (a b : TapNodeHash) :
    TapNodeHash.fromNodeHashes a b = TapNodeHash.fromNodeHashes b a := by
  rw [fromNodeHashes_eq, fromNodeHashes_eq, tapBranchHash_comm]

/-! ## Nodes of trees -/

/-- The leaves of a tree that are known, with their depths. -/
def knownLeaves (t : LeafTree TapLeaf) : List (ℕ × TapLeaf) := (t.walk 0).filter fun p => !p.2.isHidden

/-- The way up from a leaf. -/
def LeafNode.fold (l : LeafNode) : TapNodeHash :=
  l.merkleBranch.hashes.foldl TapNodeHash.fromNodeHashes l.nodeHash

/-- `n` describes the tree `t`: its hash is the root, its leaves are the known leaves of the tree, each
with a branch as long as the leaf is deep that leads to the root. -/
structure Describes (t : LeafTree TapLeaf) (n : NodeInfo) : Prop where
  hash_eq : n.hash = tapRoot t
  leaves_perm : (n.leaves.map fun l => (l.merkleBranch.hashes.length, l.leaf)).Perm (knownLeaves t)
  fold_eq : ∀ l ∈ n.leaves, l.fold = n.hash
  hidden_eq : n.hasHiddenNodes = (t.walk 0).any fun p => p.2.isHidden

/-- The node of a leaf. -/
def TapLeaf.node : TapLeaf → NodeInfo
  | script s ver => .newLeafWithVer s ver
  | hidden hash => .newHiddenNode hash

/-- The node that a builder makes of a tree: it joins a node with the left sibling that waits for it. -/
def nodeOf : LeafTree TapLeaf → Outcome TaprootBuilderError NodeInfo
  | .leaf l => .ok l.node
  | .node l r => do
    let left ← nodeOf l
    let right ← nodeOf r
    NodeInfo.combine right left

/-- `n` is the node of the tree `t`. -/
structure IsNode (t : LeafTree TapLeaf) (n : NodeInfo) : Prop extends Describes t n where
  node_eq : nodeOf t = .ok n

theorem isNode_leaf (leaf : TapLeaf) : IsNode (.leaf leaf) leaf.node where
  hash_eq := by
    cases leaf with
    | script s ver => exact TapLeafHash.fromScript_eq s ver
    | hidden hash => rfl
  leaves_perm := by cases leaf <;> exact List.Perm.refl _
  fold_eq := by
    cases leaf with
    | script s ver =>
      simp [TapLeaf.node, NodeInfo.newLeafWithVer, LeafNode.fold, TaprootMerkleBranch.empty,
        LeafNode.nodeHash, TapLeaf.nodeHash]
    | hidden hash => simp [TapLeaf.node, NodeInfo.newHiddenNode]
  hidden_eq := by cases leaf <;> rfl
  node_eq := rfl

theorem knownLeaves_node (l r : LeafTree TapLeaf) :
    knownLeaves (.node l r) =
      (knownLeaves l ++ knownLeaves r).map fun p => (p.1 + 1, p.2) := by
  simp only [knownLeaves, LeafTree.walk, Nat.zero_add, LeafTree.walk_eq_map _ 1, ← List.map_append,
    ← List.filter_append, List.filter_map]
  rfl

/-- A leaf after it has got its partner. -/
structure IsPushed (partner : TapNodeHash) (l l' : LeafNode) : Prop where
  leaf_eq : l'.leaf = l.leaf
  hashes_eq : l'.merkleBranch.hashes = l.merkleBranch.hashes ++ [partner]

theorem pushPartner_spec (partner : TapNodeHash) (leaves : List LeafNode)
    (h : ∀ l ∈ leaves, l.merkleBranch.hashes.length < TAPROOT_CONTROL_MAX_NODE_COUNT) :
    ∃ leaves', NodeInfo.pushPartner partner leaves = .ok leaves' ∧
      List.Forall₂ (IsPushed partner) leaves leaves' := by
  induction leaves with
  | nil => exact ⟨[], rfl, .nil⟩
  | cons l leaves ih =>
    obtain ⟨leaves', hpush, hall⟩ := ih fun l' hl' => h l' (List.mem_cons_of_mem _ hl')
    have hl := h l List.mem_cons_self
    have hone : ∃ branch, l.merkleBranch.push partner = .ok branch ∧
        branch.hashes = l.merkleBranch.hashes ++ [partner] := by
      rw [TaprootMerkleBranch.push, dif_neg (by omega)]
      exact ⟨_, rfl, rfl⟩
    obtain ⟨branch, hb, hhashes⟩ := hone
    refine ⟨⟨l.leaf, branch⟩ :: leaves', ?_, .cons ⟨rfl, hhashes⟩ hall⟩
    rw [NodeInfo.pushPartner] at hpush ⊢
    rw [List.mapM_cons, hb, hpush]
    rfl

theorem IsPushed.depths_eq {partner : TapNodeHash} {leaves leaves' : List LeafNode}
    (h : List.Forall₂ (IsPushed partner) leaves leaves') :
    (leaves'.map fun l => (l.merkleBranch.hashes.length, l.leaf)) =
      (leaves.map fun l => (l.merkleBranch.hashes.length, l.leaf)).map fun p => (p.1 + 1, p.2) := by
  induction h with
  | nil => rfl
  | cons hl _ ih => simp [ih, hl.leaf_eq, hl.hashes_eq]

theorem IsPushed.fold_eq {partner hash : TapNodeHash} {leaves leaves' : List LeafNode}
    (h : List.Forall₂ (IsPushed partner) leaves leaves') (hfold : ∀ l ∈ leaves, l.fold = hash) :
    ∀ l ∈ leaves', l.fold = TapNodeHash.fromNodeHashes hash partner := by
  induction h with
  | nil => simp
  | @cons l l' leaves leaves' hl _ ih =>
    rw [List.forall_mem_cons] at hfold ⊢
    refine ⟨?_, ih hfold.2⟩
    rw [LeafNode.fold, hl.hashes_eq, List.foldl_append, LeafNode.nodeHash, hl.leaf_eq, ← hfold.1]
    rfl

theorem Describes.length_lt {t : LeafTree TapLeaf} {n : NodeInfo} (h : Describes t n)
    (hlen : ∀ p ∈ t.walk 1, p.1 ≤ TAPROOT_CONTROL_MAX_NODE_COUNT) :
    ∀ l ∈ n.leaves, l.merkleBranch.hashes.length < TAPROOT_CONTROL_MAX_NODE_COUNT := by
  intro l hl
  have hmem : (l.merkleBranch.hashes.length, l.leaf) ∈ t.walk 0 := by
    have := h.leaves_perm.subset (List.mem_map.2 ⟨l, hl, rfl⟩)
    exact List.mem_of_mem_filter this
  have hup : (l.merkleBranch.hashes.length + 1, l.leaf) ∈ t.walk 1 := by
    rw [LeafTree.walk_eq_map]
    exact List.mem_map.2 ⟨_, hmem, rfl⟩
  exact hlen _ hup

/-- The two sides of a node may change places. -/
theorem Describes.swap {l r : LeafTree TapLeaf} {n : NodeInfo} (h : Describes (.node l r) n) :
    Describes (.node r l) n where
  hash_eq := by rw [h.hash_eq, tapRoot, tapRoot, tapBranchHash_comm]
  leaves_perm := by
    apply h.leaves_perm.trans
    rw [knownLeaves_node, knownLeaves_node]
    exact List.perm_append_comm.map _
  fold_eq := h.fold_eq
  hidden_eq := by
    rw [h.hidden_eq, LeafTree.walk, LeafTree.walk, List.any_append, List.any_append, Bool.or_comm]

theorem Describes.join {l r : LeafTree TapLeaf} {a b : NodeInfo} (hl : Describes l a) (hr : Describes r b)
    (hlen : ∀ p ∈ l.walk 1 ++ r.walk 1, p.1 ≤ TAPROOT_CONTROL_MAX_NODE_COUNT) :
    ∃ aLeaves bLeaves, NodeInfo.pushPartner b.hash a.leaves = .ok aLeaves ∧
      NodeInfo.pushPartner a.hash b.leaves = .ok bLeaves ∧
      Describes (.node l r)
        ⟨tapBranchHash a.hash b.hash, aLeaves ++ bLeaves, a.hasHiddenNodes || b.hasHiddenNodes⟩ := by
  obtain ⟨aLeaves, hpa, hfa⟩ := pushPartner_spec b.hash a.leaves
    (hl.length_lt fun p hp => hlen p (List.mem_append_left _ hp))
  obtain ⟨bLeaves, hpb, hfb⟩ := pushPartner_spec a.hash b.leaves
    (hr.length_lt fun p hp => hlen p (List.mem_append_right _ hp))
  refine ⟨aLeaves, bLeaves, hpa, hpb, ?_, ?_, ?_, ?_⟩
  · rw [tapRoot, hl.hash_eq, hr.hash_eq]
  · rw [List.map_append, IsPushed.depths_eq hfa, IsPushed.depths_eq hfb, ← List.map_append,
      knownLeaves_node]
    exact (hl.leaves_perm.append hr.leaves_perm).map _
  · intro leaf hleaf
    rcases List.mem_append.1 hleaf with h | h
    · rw [IsPushed.fold_eq hfa hl.fold_eq leaf h, TapNodeHash.fromNodeHashes_eq, tapBranchHash_comm]
    · rw [IsPushed.fold_eq hfb hr.fold_eq leaf h, TapNodeHash.fromNodeHashes_eq]
  · have hany : ∀ t : LeafTree TapLeaf, ((t.walk 1).any fun p => p.2.isHidden) =
        (t.walk 0).any fun p => p.2.isHidden := by
      intro t
      rw [LeafTree.walk_eq_map t 1, List.any_map]
      rfl
    rw [LeafTree.walk, List.any_append, hany, hany, hl.hidden_eq, hr.hidden_eq]

/-- Two nodes join into one that describes the joined tree, as long as no branch gets too long. -/
theorem Describes.combine {l r : LeafTree TapLeaf} {a b : NodeInfo} (hl : Describes l a)
    (hr : Describes r b) (hlen : ∀ p ∈ l.walk 1 ++ r.walk 1, p.1 ≤ TAPROOT_CONTROL_MAX_NODE_COUNT) :
    ∃ n, NodeInfo.combine b a = .ok n ∧ Describes (.node l r) n := by
  have hhash : (TapNodeHash.combineNodeHashes b.hash a.hash).1 = tapBranchHash a.hash b.hash :=
    TapNodeHash.fromNodeHashes_eq a.hash b.hash
  by_cases hlt : b.hash.toList < a.hash.toList
  · -- the node is hashed before its left sibling: its leaves come first
    obtain ⟨bLeaves, aLeaves, hpb, hpa, hnode⟩ :=
      hr.join hl fun p hp => hlen p (List.mem_append.2 (List.mem_append.1 hp).symm)
    refine ⟨_, ?_, hnode.swap⟩
    rw [tapBranchHash_comm, ← hhash, NodeInfo.combine]
    simp [TapNodeHash.combineNodeHashes, hlt, hpa, hpb]
  · obtain ⟨aLeaves, bLeaves, hpa, hpb, hnode⟩ := hl.join hr hlen
    refine ⟨_, ?_, hnode⟩
    rw [← hhash, NodeInfo.combine]
    simp [TapNodeHash.combineNodeHashes, hlt, hpa, hpb]

theorem IsNode.combine {l r : LeafTree TapLeaf} {a b : NodeInfo} (hl : IsNode l a) (hr : IsNode r b)
    (hlen : ∀ p ∈ l.walk 1 ++ r.walk 1, p.1 ≤ TAPROOT_CONTROL_MAX_NODE_COUNT) :
    ∃ n, NodeInfo.combine b a = .ok n ∧ IsNode (.node l r) n := by
  obtain ⟨n, hn, hdesc⟩ := hl.toDescribes.combine hr.toDescribes hlen
  refine ⟨n, hn, hdesc, ?_⟩
  rw [nodeOf, hl.node_eq, Outcome.ok_bind, hr.node_eq, Outcome.ok_bind, hn]

/-! ## Nodes and their leaves -/

/-- `n` comes from the functions that make nodes; the fields of a node are private, so every node does. -/
inductive Built : NodeInfo → Prop where
  | leaf (leaf : TapLeaf) : Built leaf.node
  | combine {a b n : NodeInfo} (ha : Built a) (hb : Built b) (h : NodeInfo.combine a b = .ok n) : Built n

theorem built_of_nodeOf {t : LeafTree TapLeaf} {n : NodeInfo} (h : nodeOf t = .ok n) : Built n := by
  induction t generalizing n with
  | leaf leaf =>
    cases h
    exact .leaf leaf
  | node l r ihl ihr =>
    obtain ⟨left, hl, h⟩ := Outcome.bind_eq_ok_iff.1 h
    obtain ⟨right, hr, h⟩ := Outcome.bind_eq_ok_iff.1 h
    exact .combine (ihr hr) (ihl hl) h

/-- The depths of the leaves of a node, with the leaves. -/
def NodeInfo.depths (n : NodeInfo) : List (ℕ × TapLeaf) :=
  n.leaves.map fun l => (l.merkleBranch.hashes.length, l.leaf)

theorem isPushed_of_pushPartner {partner : TapNodeHash} {leaves leaves' : List LeafNode}
    (h : NodeInfo.pushPartner partner leaves = .ok leaves') :
    List.Forall₂ (IsPushed partner) leaves leaves' := by
  induction leaves generalizing leaves' with
  | nil =>
    cases h
    exact .nil
  | cons l leaves ih =>
    rw [NodeInfo.pushPartner, List.mapM_cons] at h
    obtain ⟨l', hl', h⟩ := Outcome.bind_eq_ok_iff.1 h
    obtain ⟨tail, htail, h⟩ := Outcome.bind_eq_ok_iff.1 h
    cases h
    refine .cons ?_ (ih htail)
    obtain ⟨branch, hb, h⟩ := Outcome.bind_eq_ok_iff.1 hl'
    cases h
    rw [TaprootMerkleBranch.push] at hb
    split_ifs at hb
    cases hb
    exact ⟨rfl, rfl⟩

/-- A joined node has the leaves of one side before those of the other, and joining the two sides in the
order of the leaves gives it again. -/
theorem NodeInfo.combine_cases {a b n : NodeInfo} (h : NodeInfo.combine a b = .ok n) :
    ∃ x y, ((x = a ∧ y = b) ∨ (x = b ∧ y = a)) ∧ NodeInfo.combine y x = .ok n ∧
      n.hasHiddenNodes = (x.hasHiddenNodes || y.hasHiddenNodes) ∧
      n.depths = (x.depths ++ y.depths).map fun p => (p.1 + 1, p.2) := by
  have hsides : ∀ x y : NodeInfo, ∀ hash, (do
      let aLeaves ← pushPartner y.hash x.leaves
      let bLeaves ← pushPartner x.hash y.leaves
      return (⟨hash, aLeaves ++ bLeaves, x.hasHiddenNodes || y.hasHiddenNodes⟩ : NodeInfo)) = .ok n →
      n.hasHiddenNodes = (x.hasHiddenNodes || y.hasHiddenNodes) ∧
        n.depths = (x.depths ++ y.depths).map fun p => (p.1 + 1, p.2) := by
    intro x y hash h
    obtain ⟨aLeaves, ha, h⟩ := Outcome.bind_eq_ok_iff.1 h
    obtain ⟨bLeaves, hb, h⟩ := Outcome.bind_eq_ok_iff.1 h
    cases h
    refine ⟨rfl, ?_⟩
    rw [depths, List.map_append, IsPushed.depths_eq (isPushed_of_pushPartner ha),
      IsPushed.depths_eq (isPushed_of_pushPartner hb), List.map_append]
    rfl
  by_cases hlt : a.hash.toList < b.hash.toList
  · have hge : ¬b.hash.toList < a.hash.toList := List.lt_asymm hlt
    have hhash : (TapNodeHash.combineNodeHashes b.hash a.hash).1 =
        (TapNodeHash.combineNodeHashes a.hash b.hash).1 := TapNodeHash.fromNodeHashes_comm _ _
    have hab := h
    simp only [combine, TapNodeHash.combineNodeHashes, hlt, decide_true, if_true] at hab
    refine ⟨a, b, Or.inl ⟨rfl, rfl⟩, ?_, hsides a b _ hab⟩
    rw [← h]
    unfold combine
    rw [show TapNodeHash.combineNodeHashes b.hash a.hash =
      ((TapNodeHash.combineNodeHashes a.hash b.hash).1, false) from Prod.ext hhash (by
        simp [TapNodeHash.combineNodeHashes, hge])]
    simp [TapNodeHash.combineNodeHashes, hlt]
  · have hba := h
    simp only [combine, TapNodeHash.combineNodeHashes, hlt, decide_false, if_false,
      Bool.false_eq_true] at hba
    exact ⟨b, a, Or.inr ⟨rfl, rfl⟩, h, hsides b a _ hba⟩

/-- A node without hidden parts is the node of the tree that its leaves walk through. -/
theorem Built.exists_tree {n : NodeInfo} (h : Built n) (hhidden : n.hasHiddenNodes = false) :
    ∃ t : LeafTree TapLeaf, t.walk 0 = n.depths ∧ nodeOf t = .ok n := by
  induction h with
  | leaf leaf =>
    cases leaf with
    | script s ver => exact ⟨.leaf (.script s ver), rfl, rfl⟩
    | hidden hash => cases hhidden
  | @combine a b n ha hb h iha ihb =>
    obtain ⟨x, y, hxy, hcombine, hor, hdepths⟩ := NodeInfo.combine_cases h
    rw [hhidden, eq_comm, Bool.or_eq_false_iff] at hor
    have hx : ∃ t : LeafTree TapLeaf, t.walk 0 = x.depths ∧ nodeOf t = .ok x := by
      rcases hxy with ⟨rfl, -⟩ | ⟨rfl, -⟩
      · exact iha hor.1
      · exact ihb hor.1
    have hy : ∃ t : LeafTree TapLeaf, t.walk 0 = y.depths ∧ nodeOf t = .ok y := by
      rcases hxy with ⟨-, rfl⟩ | ⟨-, rfl⟩
      · exact ihb hor.2
      · exact iha hor.2
    obtain ⟨l, hwl, hnl⟩ := hx
    obtain ⟨r, hwr, hnr⟩ := hy
    refine ⟨.node l r, ?_, ?_⟩
    · rw [LeafTree.walk, Nat.zero_add, LeafTree.walk_eq_map l, LeafTree.walk_eq_map r, hwl, hwr,
        ← List.map_append, hdepths]
    · rw [nodeOf, hnl, Outcome.ok_bind, hnr, Outcome.ok_bind, hcombine]

end Taproot

end RustDogecoin
