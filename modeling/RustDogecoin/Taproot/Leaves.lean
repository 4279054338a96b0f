import Mathlib.Tactic.Linarith
import RustDogecoin.Taproot.Builder

/-!
# Listing the leaves of a node

The iterators over leaves of `taproot/mod.rs`, and the sequence of leaves that a `NodeInfo` is written as.

A node without hidden parts is built again from its leaves (`exists_builder`).  A hidden node is not among
the leaves of a node, although `leaf_nodes` and the reader of the sequence both mean to handle it: the other
leaves take up less than the whole tree, so that a builder which gets them is not finished
(`deserialize_serialize_iff`).
-/

namespace RustDogecoin

namespace Taproot

open DepthFirst

/-! ## Iterators -/

/-- `TapLeaf::as_script`. -/
def TapLeaf.asScript : TapLeaf → Option (Bytes × LeafVersion)
  | .script s ver => some (s, ver)
  | .hidden _ => none

structure ScriptLeaf where
  version : LeafVersion
  script : Bytes
  merkleBranch : TaprootMerkleBranch
  deriving DecidableEq, Repr

/-- `ScriptLeaf::from_leaf_node`. -/
def ScriptLeaf.fromLeafNode (leafNode : LeafNode) : Option ScriptLeaf := do
  let (script, ver) ← leafNode.leaf.asScript
  return ⟨ver, script, leafNode.merkleBranch⟩

/-- `NodeInfo::leaf_nodes`, as the list of what it yields. -/
def NodeInfo.leafNodes (n : NodeInfo) : List LeafNode := n.leaves

/-- `NodeInfo::node_hash`. -/
def NodeInfo.nodeHash (n : NodeInfo) : TapNodeHash := n.hash

/-- What `ScriptLeaves` yields: a leaf without a script ends the iteration. -/
def scriptLeavesOf : List LeafNode → List ScriptLeaf
  | [] => []
  | leafNode :: leaves =>
    match ScriptLeaf.fromLeafNode leafNode with
    | none => []
    | some leaf => leaf :: scriptLeavesOf leaves

/-- `TapTree::script_leaves`. -/
def TapTree.scriptLeaves (tree : TapTree) : List ScriptLeaf := scriptLeavesOf tree.nodeInfo.leafNodes

/-- The call that adds a leaf at its depth. -/
def addOf (l : LeafNode) : Add := ⟨UInt8.ofNat l.merkleBranch.hashes.length, l.leaf⟩

/-- The same call for a leaf with its script. -/
def ScriptLeaf.add (l : ScriptLeaf) : Add :=
  ⟨UInt8.ofNat l.merkleBranch.hashes.length, .script l.script l.version⟩

theorem map_add_scriptLeavesOf {leaves : List LeafNode} (h : ∀ l ∈ leaves, l.leaf.isHidden = false) :
    (scriptLeavesOf leaves).map ScriptLeaf.add = leaves.map addOf := by
  induction leaves with
  | nil => rfl
  | cons l leaves ih =>
    rw [List.forall_mem_cons] at h
    obtain ⟨leaf, branch⟩ := l
    cases leaf with
    | hidden hash => cases h.1
    | script script ver =>
      rw [List.map_cons, ← ih h.2]
      rfl

/-! ## Adding the leaves of a node again -/

theorem callOf_addOf (l : LeafNode) :
    TaprootBuilder.callOf (addOf l) = (l.merkleBranch.hashes.length, l.leaf) := by
  have hlen : l.merkleBranch.hashes.length ≤ 128 := l.merkleBranch.length_le
  rw [TaprootBuilder.callOf, addOf, UInt8.toNat_ofNat_of_lt' (by change _ < 256; omega)]

theorem map_callOf_addOf (n : NodeInfo) : (n.leaves.map addOf).map TaprootBuilder.callOf = n.depths := by
  rw [List.map_map]
  exact List.map_congr_left fun l _ => callOf_addOf l

theorem isHidden_eq_false_of_describes {t : LeafTree TapLeaf} {n : NodeInfo} (h : Describes t n) :
    ∀ l ∈ n.leaves, l.leaf.isHidden = false := by
  intro l hl
  have hmem := h.leaves_perm.subset (List.mem_map_of_mem hl)
  simpa using (List.mem_filter.1 hmem).2

/-- A tree without hidden parts is built again from its leaves. -/
theorem exists_builder {n : NodeInfo} (h : Built n) (hhidden : n.hasHiddenNodes = false) :
    (∃ b, TaprootBuilder.addAll .new (n.leaves.map addOf) = .ok b ∧ b.tryIntoNodeInfo = .ok n) ∧
      ∀ l ∈ n.leaves, l.leaf.isHidden = false := by
  obtain ⟨t, hwalk, hnode⟩ := h.exists_tree hhidden
  have hcalls : (n.leaves.map addOf).map TaprootBuilder.callOf = t.walk 0 := by
    rw [hwalk, map_callOf_addOf]
  have hrun : run [] ((n.leaves.map addOf).map TaprootBuilder.callOf) = some [some t] := by
    rw [hcalls, run_walk_zero]
  obtain ⟨b, hb, hholds⟩ := TaprootBuilder.addAll_of_run hrun (by
    rw [hcalls, hwalk]
    intro p hp
    obtain ⟨l, -, rfl⟩ := List.mem_map.1 hp
    exact l.merkleBranch.length_le)
  obtain ⟨node, hinto, hisNode⟩ := TaprootBuilder.tryIntoNodeInfo_of_holds hholds
  obtain rfl : node = n := Outcome.ok.inj (hisNode.node_eq.symm.trans hnode)
  exact ⟨⟨b, hb, hinto⟩, isHidden_eq_false_of_describes hisNode.toDescribes⟩

namespace TaprootBuilder

/-- Calls that are accepted one after the other are accepted as far as one likes. -/
theorem addAll_take {calls : List Add} {b b' : TaprootBuilder} (h : addAll b calls = .ok b') (k : ℕ) :
    ∃ b₁, addAll b (calls.take k) = .ok b₁ := by
  rw [← List.take_append_drop k calls, addAll, List.foldlM_append, Outcome.bind_eq_ok_iff] at h
  obtain ⟨b₁, hb₁, -⟩ := h
  exact ⟨b₁, hb₁⟩

theorem isFinalizable_of_tryIntoNodeInfo {b : TaprootBuilder} {n : NodeInfo}
    (h : b.tryIntoNodeInfo = .ok n) : b.isFinalizable = true := by
  rcases b with ⟨_ | ⟨_ | node, _ | ⟨e, rest⟩⟩⟩ <;> simp [isFinalizable, tryIntoNodeInfo] at h ⊢

end TaprootBuilder

/-! ## Nodes as sequences -/

/-- An element of a sequence, as a data format hands it on. -/
inductive Element where
  | number (n : ℕ)
  | tapLeaf (leaf : TapLeaf)
  deriving DecidableEq, Repr

/-- `Serialize for NodeInfo`: the elements of the sequence. -/
def NodeInfo.serialize (n : NodeInfo) : List Element :=
  n.leaves.flatMap fun l => [.number l.merkleBranch.hashes.length, .tapLeaf l.leaf]

/-- The errors of `Deserialize for NodeInfo`.  `invalidType` comes from the data format, when an element is
not of the type asked for. -/
inductive NodeInfoError where
  | invalidType
  | missingTapLeaf
  | leafInsertion (e : TaprootBuilderError)
  | hiddenNodeInsertion (e : TaprootBuilderError)
  | incomplete (e : IncompleteBuilderError)
  deriving DecidableEq, Repr

/-- The loop of `visit_seq`. -/
def visitSeq : TaprootBuilder → List Element → Outcome NodeInfoError TaprootBuilder
  | builder, [] => .ok builder
  | builder, .number depth :: .tapLeaf tapLeaf :: seq => do
    .ensure (depth < 2 ^ 8) .invalidType
    let builder ← match tapLeaf with
      | .script script ver => (builder.addLeafWithVer (UInt8.ofNat depth) script ver).mapErr .leafInsertion
      | .hidden h => (builder.addHiddenNode (UInt8.ofNat depth) h).mapErr .hiddenNodeInsertion
    visitSeq builder seq
  | _, [.number depth] => do
    .ensure (depth < 2 ^ 8) .invalidType
    .err .missingTapLeaf
  | _, .number _ :: .number _ :: _ => .err .invalidType
  | _, .tapLeaf _ :: _ => .err .invalidType

/-- `Deserialize for NodeInfo`. -/
def NodeInfo.deserialize (seq : List Element) : Outcome NodeInfoError NodeInfo := do
  let builder ← visitSeq .new seq
  builder.tryIntoNodeInfo.mapErr .incomplete

/-- The reader adds the leaves that were written. -/
theorem visitSeq_eq_ok_iff {leaves : List LeafNode} {b b' : TaprootBuilder} :
    visitSeq b (leaves.flatMap fun l => [.number l.merkleBranch.hashes.length, .tapLeaf l.leaf]) = .ok b' ↔
      b.addAll (leaves.map addOf) = .ok b' := by
  induction leaves generalizing b with
  | nil => simp [visitSeq, TaprootBuilder.addAll, pure]
  | cons l leaves ih =>
    obtain ⟨leaf, branch⟩ := l
    have hdepth : branch.hashes.length < 2 ^ 8 := by
      have hle : branch.hashes.length ≤ 128 := branch.length_le
      omega
    rw [List.flatMap_cons, List.map_cons, TaprootBuilder.addAll, List.foldlM_cons, Outcome.bind_eq_ok_iff]
    rw [List.cons_append, List.cons_append, List.nil_append, visitSeq, Outcome.ensure_of hdepth,
      Outcome.ok_bind]
    cases leaf with
    | script script ver =>
      dsimp only
      rw [Outcome.bind_eq_ok_iff]
      simp only [Outcome.mapErr_eq_ok_iff, ih]
      rfl
    | hidden h =>
      dsimp only
      rw [Outcome.bind_eq_ok_iff]
      simp only [Outcome.mapErr_eq_ok_iff, ih]
      rfl

theorem deserialize_serialize_eq_ok_iff {n n' : NodeInfo} :
    NodeInfo.deserialize n.serialize = .ok n' ↔
      ∃ b, TaprootBuilder.addAll .new (n.leaves.map addOf) = .ok b ∧ b.tryIntoNodeInfo = .ok n' := by
  rw [NodeInfo.deserialize, Outcome.bind_eq_ok_iff]
  simp only [Outcome.mapErr_eq_ok_iff, NodeInfo.serialize, visitSeq_eq_ok_iff]

/-! ## Hidden nodes -/

/-- The leaves of a node take up the whole tree, or less if there are hidden parts. -/
theorem Built.share_depths {n : NodeInfo} (h : Built n) :
    LeafTree.share (n.depths.map Prod.fst) ≤ 1 ∧
      (n.hasHiddenNodes = true → LeafTree.share (n.depths.map Prod.fst) < 1) := by
  induction h with
  | leaf leaf =>
    cases leaf with
    | script script ver =>
      refine ⟨?_, fun hhidden => absurd hhidden (by simp [TapLeaf.node, NodeInfo.newLeafWithVer])⟩
      simp [TapLeaf.node, NodeInfo.newLeafWithVer, NodeInfo.depths, LeafTree.share,
        TaprootMerkleBranch.empty]
    | hidden hash => simp [TapLeaf.node, NodeInfo.newHiddenNode, NodeInfo.depths, LeafTree.share]
  | @combine a b n ha hb h iha ihb =>
    obtain ⟨x, y, hxy, -, hor, hdepths⟩ := NodeInfo.combine_cases h
    have hshare : LeafTree.share (n.depths.map Prod.fst) =
        (LeafTree.share (x.depths.map Prod.fst) + LeafTree.share (y.depths.map Prod.fst)) / 2 := by
      rw [hdepths, List.map_map, ← LeafTree.share_append, ← LeafTree.share_succ, ← List.map_append,
        List.map_map]
      rfl
    have hsides : (LeafTree.share (x.depths.map Prod.fst) ≤ 1 ∧
        (x.hasHiddenNodes = true → LeafTree.share (x.depths.map Prod.fst) < 1)) ∧
        LeafTree.share (y.depths.map Prod.fst) ≤ 1 ∧
        (y.hasHiddenNodes = true → LeafTree.share (y.depths.map Prod.fst) < 1) := by
      rcases hxy with ⟨rfl, rfl⟩ | ⟨rfl, rfl⟩
      · exact ⟨iha, ihb⟩
      · exact ⟨ihb, iha⟩
    obtain ⟨⟨hx, hxh⟩, hy, hyh⟩ := hsides
    rw [hshare]
    refine ⟨by linarith, fun hhidden => ?_⟩
    rw [hor, Bool.or_eq_true] at hhidden
    rcases hhidden with hhidden | hhidden
    · have := hxh hhidden
      linarith
    · have := hyh hhidden
      linarith

/-- What a node is written as is read exactly if it has no hidden parts, and then as the same node. -/
theorem deserialize_serialize_iff {n : NodeInfo} (h : Built n) :
    (∃ n', NodeInfo.deserialize n.serialize = .ok n') ↔ n.hasHiddenNodes = false := by
  constructor
  · rintro ⟨n', hn'⟩
    obtain ⟨b, hb, hinto⟩ := deserialize_serialize_eq_ok_iff.1 hn'
    obtain ⟨t, hwalk, -⟩ := TaprootBuilder.isNode_of_addAll hb hinto
    rw [map_callOf_addOf] at hwalk
    by_contra hhidden
    have hlt := h.share_depths.2 (by simpa using hhidden)
    rw [← hwalk, ← LeafTree.depths, LeafTree.share_depths] at hlt
    exact lt_irrefl _ hlt
  · intro hhidden
    obtain ⟨⟨b, hb, hinto⟩, -⟩ := exists_builder h hhidden
    exact ⟨n, deserialize_serialize_eq_ok_iff.2 ⟨b, hb, hinto⟩⟩

theorem deserialize_serialize_self {n : NodeInfo} (h : Built n) (hhidden : n.hasHiddenNodes = false) :
    NodeInfo.deserialize n.serialize = .ok n :=
  deserialize_serialize_eq_ok_iff.2 (exists_builder h hhidden).1

/-- The node `n`, and the leaves, known and hidden, that it is made of. -/
inductive MadeOf : List TapLeaf → NodeInfo → Prop where
  | leaf (leaf : TapLeaf) : MadeOf [leaf] leaf.node
  | combine {ls ms : List TapLeaf} {a b n : NodeInfo} (ha : MadeOf ls a) (hb : MadeOf ms b)
      (h : NodeInfo.combine a b = .ok n) : MadeOf (ls ++ ms) n
  | builder {calls : List Add} {b : TaprootBuilder} {n : NodeInfo}
      (h : TaprootBuilder.addAll .new calls = .ok b) (hn : b.tryIntoNodeInfo = .ok n) :
      MadeOf (calls.map Add.leaf) n

theorem map_snd_depths (n : NodeInfo) : n.depths.map Prod.snd = n.leafNodes.map LeafNode.leaf := by
  rw [NodeInfo.depths, List.map_map]
  rfl

/-- A node lists the known ones of its leaves, and knows whether there are others. -/
theorem MadeOf.spec {ls : List TapLeaf} {n : NodeInfo} (h : MadeOf ls n) :
    Built n ∧ (n.leafNodes.map LeafNode.leaf).Perm (ls.filter fun l => !l.isHidden) ∧
      n.hasHiddenNodes = ls.any TapLeaf.isHidden := by
  induction h with
  | leaf leaf =>
    refine ⟨.leaf leaf, ?_, ?_⟩
    · cases leaf <;> exact List.Perm.refl _
    · cases leaf <;> rfl
  | @combine ls ms a b n _ _ h iha ihb =>
    obtain ⟨hba, hpa, hha⟩ := iha
    obtain ⟨hbb, hpb, hhb⟩ := ihb
    refine ⟨.combine hba hbb h, ?_, ?_⟩
    · obtain ⟨x, y, hxy, -, -, hdepths⟩ := NodeInfo.combine_cases h
      have hleaves : n.leafNodes.map LeafNode.leaf =
          x.leafNodes.map LeafNode.leaf ++ y.leafNodes.map LeafNode.leaf := by
        rw [← map_snd_depths, hdepths, List.map_map, ← map_snd_depths, ← map_snd_depths, ← List.map_append]
        rfl
      rw [hleaves, List.filter_append]
      rcases hxy with ⟨rfl, rfl⟩ | ⟨rfl, rfl⟩
      · exact hpa.append hpb
      · exact List.perm_append_comm.trans (hpa.append hpb)
    · obtain ⟨x, y, hxy, -, hor, -⟩ := NodeInfo.combine_cases h
      rw [List.any_append, ← hha, ← hhb, hor]
      rcases hxy with ⟨rfl, rfl⟩ | ⟨rfl, rfl⟩
      · rfl
      · exact Bool.or_comm _ _
  | @builder calls b n h hn =>
    obtain ⟨t, hwalk, hnode⟩ := TaprootBuilder.isNode_of_addAll h hn
    have hleaves : calls.map Add.leaf = (t.walk 0).map Prod.snd := by
      rw [hwalk, List.map_map]
      rfl
    refine ⟨built_of_nodeOf hnode.node_eq, ?_, ?_⟩
    · have hperm := hnode.leaves_perm.map Prod.snd
      rw [← NodeInfo.depths, map_snd_depths] at hperm
      rw [hleaves, List.filter_map]
      exact hperm
    · rw [hnode.hidden_eq, hleaves, List.any_map]
      rfl

/-- A node lists all its leaves, and is read from what it is written as, exactly if none of them is
hidden. -/
theorem leafNodes_and_serde_iff {ls : List TapLeaf} {n : NodeInfo} (h : MadeOf ls n) :
    ((n.leafNodes.map LeafNode.leaf).Perm ls ∧
      ∃ n', NodeInfo.deserialize n.serialize = .ok n' ∧ n'.nodeHash = n.nodeHash) ↔
    ∀ l ∈ ls, l.isHidden = false := by
  obtain ⟨hbuilt, hperm, hhidden⟩ := h.spec
  constructor
  · rintro ⟨hall, -⟩ l hl
    have hmem := (hall.symm.trans hperm).subset hl
    simpa using (List.mem_filter.1 hmem).2
  · intro hknown
    have hall : ls.filter (fun l => !l.isHidden) = ls :=
      List.filter_eq_self.2 fun l hl => by rw [hknown l hl]; rfl
    rw [hall] at hperm
    have hnone : n.hasHiddenNodes = false := by
      rw [hhidden, List.any_eq_false]
      intro l hl
      rw [hknown l hl]
      exact Bool.false_ne_true
    exact ⟨hperm, n, deserialize_serialize_self hbuilt hnone, rfl⟩

/-- Three scripts, one at depth 1 and two below its sibling. -/
theorem leafNodes_and_serde_iff_sample :
    ∃ b n, TaprootBuilder.addAll .new [⟨1, .script [0x51] .tapScript⟩, ⟨2, .script [0x52] .tapScript⟩,
        ⟨2, .script [0x53] .tapScript⟩] = .ok b ∧ b.tryIntoNodeInfo = .ok n ∧
      (n.leafNodes.map LeafNode.leaf).Perm
        [.script [0x51] .tapScript, .script [0x52] .tapScript, .script [0x53] .tapScript] ∧
      ∃ n', NodeInfo.deserialize n.serialize = .ok n' ∧ n'.nodeHash = n.nodeHash := by
  have hrun : run [] ([⟨1, .script [0x51] .tapScript⟩, ⟨2, .script [0x52] .tapScript⟩,
      ⟨2, .script [0x53] .tapScript⟩].map TaprootBuilder.callOf) = some [some (.node (.leaf (.script [0x51] .tapScript))
        (.node (.leaf (.script [0x52] .tapScript)) (.leaf (.script [0x53] .tapScript))))] := rfl
  obtain ⟨b, hb, hholds⟩ := TaprootBuilder.addAll_of_run hrun (by decide)
  obtain ⟨n, hn, -⟩ := TaprootBuilder.tryIntoNodeInfo_of_holds hholds
  exact ⟨b, n, hb, hn, (leafNodes_and_serde_iff (.builder hb hn)).2 (by decide)⟩

/-- A script leaf and a hidden node at depth 1: the hidden node is not listed, and the sequence with the
script alone is not a whole tree. -/
theorem leafNodes_and_serde_fail :
    ∃ b n, TaprootBuilder.addAll .new
        [⟨1, .script [0x51] .tapScript⟩, ⟨1, .hidden (U8Array.replicate 32 7)⟩] = .ok b ∧
      b.tryIntoNodeInfo = .ok n ∧
      MadeOf [.script [0x51] .tapScript, .hidden (U8Array.replicate 32 7)] n ∧
      .hidden (U8Array.replicate 32 7) ∉ n.leafNodes.map LeafNode.leaf ∧
      ¬∃ n', NodeInfo.deserialize n.serialize = .ok n' := by
  have hrun : run [] ([⟨1, .script [0x51] .tapScript⟩, ⟨1, .hidden (U8Array.replicate 32 7)⟩].map
      TaprootBuilder.callOf) = some [some (.node (.leaf (.script [0x51] .tapScript))
        (.leaf (.hidden (U8Array.replicate 32 7))))] := rfl
  obtain ⟨b, hb, hholds⟩ := TaprootBuilder.addAll_of_run hrun (by decide)
  obtain ⟨n, hn, hnode⟩ := TaprootBuilder.tryIntoNodeInfo_of_holds hholds
  refine ⟨b, n, hb, hn, .builder hb hn, fun hmem => ?_, fun hread => ?_⟩
  · obtain ⟨l, hl, hleaf⟩ := List.mem_map.1 hmem
    have hknown := isHidden_eq_false_of_describes hnode.toDescribes l hl
    rw [hleaf] at hknown
    cases hknown
  · rw [deserialize_serialize_iff (built_of_nodeOf hnode.node_eq), hnode.hidden_eq] at hread
    cases hread

end Taproot

end RustDogecoin
