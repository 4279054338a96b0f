import RustDogecoin.Lib.Huffman
import RustDogecoin.Taproot.Builder
import RustDogecoin.Taproot.SpendInfo

/-!
# Trees from weights

`with_huffman_tree` of `taproot/mod.rs`.  A heap gives out the node of least weight, and among nodes of one
weight the greatest; two at a time are combined until one is left.

The loop is stated for any kind of node, with what combines and compares two of them.  On the nodes of the
code it may stop, when a branch gets too long; on trees it always ends.  The two runs go side by side
(`huffmanLoop_spec`), so the code builds the node of a tree of least cost exactly if that tree is not too
deep.
-/

namespace RustDogecoin

namespace Taproot

open DepthFirst

/-! ## The heap -/

section Heap

variable {N : Type} (lt : N → N → Bool)

/-- The order of `(Reverse<u32>, N)`. -/
def before (x y : ℕ × N) : Bool := decide (y.1 < x.1) || (decide (x.1 = y.1) && lt x.2 y.2)

/-- `BinaryHeap::pop`: a greatest item.  The heap is the list of its items, in no order. -/
def pop : List (ℕ × N) → Option ((ℕ × N) × List (ℕ × N))
  | [] => none
  | x :: heap =>
    match pop heap with
    | none => some (x, [])
    | some (y, rest) => if before lt x y then some (y, x :: rest) else some (x, y :: rest)

/-- The loop of `with_huffman_tree`. -/
def huffmanLoop {ε : Type} (combine : N → N → Outcome ε N) : ℕ → List (ℕ × N) → Outcome ε (List (ℕ × N))
  | 0, heap => .ok heap
  | fuel + 1, heap =>
    if 1 < heap.length then
      match pop lt heap with
      | none => .panic .unwrap
      | some ((p₁, s₁), heap) =>
        match pop lt heap with
        | none => .panic .unwrap
        | some ((p₂, s₂), heap) => do
          let node ← combine s₁ s₂
          huffmanLoop combine fuel ((min (p₁ + p₂) (2 ^ 32 - 1), node) :: heap)
    else .ok heap

end Heap

/-- `TaprootBuilder::with_huffman_tree`. -/
def TaprootBuilder.withHuffmanTree (scriptWeights : List (UInt32 × Bytes)) :
    Outcome TaprootBuilderError TaprootBuilder := do
  let nodeWeights := scriptWeights.map fun (p, leaf) => (p.toNat, NodeInfo.newLeafWithVer leaf .tapScript)
  .ensure (nodeWeights ≠ []) .emptyTree
  let nodeWeights ← huffmanLoop (fun a b => decide (a < b)) NodeInfo.combine nodeWeights.length nodeWeights
  .require (nodeWeights.length = 1) .assertion
  match pop (fun a b => decide (a < b)) nodeWeights with
  | none => .panic .unwrap
  | some ((_, node), _) => return ⟨[some node]⟩

/-- `TaprootBuilder::finalize`. -/
def TaprootBuilder.finalize {S : KeyFormats} (secp : XOnlyTweaks S) (b : TaprootBuilder)
    (internalKey : S.XOnlyPublicKey) : Outcome TaprootBuilder (TaprootSpendInfo S) :=
  match b.branch with
  | [] => .lift (TaprootSpendInfo.newKeySpend secp internalKey none)
  | [some node] => .lift (TaprootSpendInfo.fromNodeInfo secp internalKey node)
  | [none] => .panic .assertion
  | _ => .err b

/-- `TaprootSpendInfo::with_huffman_tree`. -/
def TaprootSpendInfo.withHuffmanTree {S : KeyFormats} (secp : XOnlyTweaks S) (internalKey : S.XOnlyPublicKey)
    (scriptWeights : List (UInt32 × Bytes)) : Outcome TaprootBuilderError (TaprootSpendInfo S) := do
  let builder ← TaprootBuilder.withHuffmanTree scriptWeights
  .lift (builder.finalize secp internalKey).expect

/-! ## The same loop on trees -/

/-- The leaf of a listed script. -/
def toLeaf (entry : UInt32 × Bytes) : TapLeaf := .script entry.2 .tapScript

/-- Trees compare as their nodes do.  A tree that is too deep for a node makes every tree it becomes a part
of too deep, so that it does not matter how it compares. -/
def treeLt (a b : LeafTree (UInt32 × Bytes)) : Bool :=
  match nodeOf (a.map toLeaf), nodeOf (b.map toLeaf) with
  | .ok m, .ok n => decide (m < n)
  | _, _ => false

def joinTrees (a b : LeafTree (UInt32 × Bytes)) : Outcome Empty (LeafTree (UInt32 × Bytes)) := .ok (.node b a)

/-- The Huffman tree of the listed scripts, however deep it is. -/
def huffmanTree (scriptWeights : List (UInt32 × Bytes)) : Option (LeafTree (UInt32 × Bytes)) :=
  let heap := scriptWeights.map fun entry => (entry.1.toNat, LeafTree.leaf entry)
  match huffmanLoop treeLt joinTrees heap.length heap with
  | .ok [(_, t)] => some t
  | _ => none

/-! ## What the heap gives out -/

section Pop

variable {N N' : Type} {lt : N → N → Bool} {lt' : N' → N' → Bool}

/-- `pop` takes an item of least weight. -/
theorem pop_spec {heap : List (ℕ × N)} (h : heap ≠ []) :
    ∃ x rest, pop lt heap = some (x, rest) ∧ heap.Perm (x :: rest) ∧ ∀ z ∈ rest, x.1 ≤ z.1 := by
  induction heap with
  | nil => exact absurd rfl h
  | cons x heap ih =>
    rw [pop]
    by_cases hheap : heap = []
    · subst hheap
      exact ⟨x, [], rfl, List.Perm.refl _, by simp⟩
    obtain ⟨y, rest, hpop, hperm, hle⟩ := ih hheap
    rw [hpop]
    dsimp only
    split_ifs with hbefore
    · refine ⟨y, x :: rest, rfl, (hperm.cons x).trans (List.Perm.swap _ _ _), fun z hz => ?_⟩
      rcases List.mem_cons.1 hz with rfl | hz
      · simp only [before, Bool.or_eq_true, Bool.and_eq_true, decide_eq_true_eq] at hbefore
        omega
      · exact hle z hz
    · refine ⟨x, y :: rest, rfl, hperm.cons x, fun z hz => ?_⟩
      have hxy : x.1 ≤ y.1 := by
        simp only [before, Bool.or_eq_true, Bool.and_eq_true, decide_eq_true_eq, not_or] at hbefore
        omega
      rcases List.mem_cons.1 hz with rfl | hz
      · exact hxy
      · exact hxy.trans (hle z hz)

/-- Heaps of items that compare alike give out items in the same places. -/
theorem pop_rel {R : ℕ × N → ℕ × N' → Prop}
    (hR : ∀ {x x' y y'}, R x x' → R y y' → before lt x y = before lt' x' y') {heap : List (ℕ × N)}
    {heap' : List (ℕ × N')} (h : List.Forall₂ R heap heap') (hne : heap ≠ []) :
    ∃ x x' rest rest', pop lt heap = some (x, rest) ∧ pop lt' heap' = some (x', rest') ∧ R x x' ∧
      List.Forall₂ R rest rest' := by
  induction h with
  | nil => exact absurd rfl hne
  | @cons x x' heap heap' hx htail ih =>
    rw [pop, pop]
    by_cases hheap : heap = []
    · subst hheap
      cases htail
      exact ⟨x, x', [], [], rfl, rfl, hx, .nil⟩
    obtain ⟨y, y', rest, rest', hpop, hpop', hy, hrest⟩ := ih hheap
    rw [hpop, hpop']
    dsimp only
    rw [← hR hx hy]
    split_ifs
    · exact ⟨y, y', _, _, rfl, rfl, hy, .cons hx hrest⟩
    · exact ⟨x, x', _, _, rfl, rfl, hx, .cons hy hrest⟩

end Pop

/-! ## The run on trees -/

theorem huffmanLoop_trees {fuel : ℕ} {heap : List (ℕ × LeafTree (UInt32 × Bytes))} (hpos : heap ≠ [])
    (hfuel : heap.length ≤ fuel + 1) (hsum : (heap.map Prod.fst).sum < 2 ^ 32) :
    ∃ p, huffmanLoop treeLt joinTrees fuel heap = .ok [p] ∧ Merges heap p.2 := by
  have hone : ∀ {heap : List (ℕ × LeafTree (UInt32 × Bytes))}, heap ≠ [] → heap.length ≤ 1 →
      ∃ p, heap = [p] := by
    intro heap hne hlen
    exact List.length_eq_one_iff.1 (by have := List.length_pos_iff.2 hne; omega)
  induction fuel generalizing heap with
  | zero =>
    obtain ⟨p, rfl⟩ := hone hpos hfuel
    exact ⟨p, rfl, .done p⟩
  | succ fuel ih =>
    rw [huffmanLoop]
    split_ifs with hlen
    · obtain ⟨x, rest, hpop, hperm, hx⟩ := @pop_spec _ treeLt _ hpos
      have hcount := hperm.length_eq
      rw [List.length_cons] at hcount
      have hrest : rest ≠ [] := List.length_pos_iff.1 (by omega)
      obtain ⟨y, rest', hpop', hperm', hy⟩ := @pop_spec _ treeLt _ hrest
      have hcount' := hperm'.length_eq
      rw [List.length_cons] at hcount'
      have hall : heap.Perm (x :: y :: rest') := hperm.trans (hperm'.cons x)
      have hweights := (hall.map Prod.fst).sum_eq
      simp only [List.map_cons, List.sum_cons] at hweights
      have hmin : min (x.1 + y.1) (2 ^ 32 - 1) = x.1 + y.1 := by omega
      obtain ⟨p, hrun, hmerges⟩ := @ih ((x.1 + y.1, .node y.2 x.2) :: rest') (List.cons_ne_nil _ _)
        (by rw [List.length_cons]; omega) (by
          rw [List.map_cons, List.sum_cons]
          omega)
      refine ⟨p, ?_, .step hall (fun z hz => hx z (hperm'.symm.subset hz)) hy hmerges⟩
      rw [hpop]
      dsimp only
      rw [hpop']
      dsimp only
      rw [joinTrees, Outcome.ok_bind, hmin, hrun]
    · obtain ⟨p, rfl⟩ := hone hpos (by omega)
      exact ⟨p, rfl, .done p⟩

/-! ## The two runs side by side -/

theorem noPanic_combine (a b : NodeInfo) : (NodeInfo.combine a b).NoPanic := by
  have hpush : ∀ (partner : TapNodeHash) (leaves : List LeafNode),
      (NodeInfo.pushPartner partner leaves).NoPanic := by
    intro partner leaves
    induction leaves with
    | nil => exact Outcome.noPanic_ok _
    | cons l leaves ih =>
      rw [NodeInfo.pushPartner, List.mapM_cons]
      refine Outcome.NoPanic.bind (Outcome.NoPanic.bind ?_ fun branch _ => Outcome.noPanic_ok _) fun l' _ =>
        Outcome.NoPanic.bind ih fun tail _ => Outcome.noPanic_ok _
      unfold TaprootMerkleBranch.push
      split_ifs
      · exact Outcome.noPanic_err _
      · exact Outcome.noPanic_ok _
  exact (hpush _ _).bind fun aLeaves _ => (hpush _ _).bind fun bLeaves _ => Outcome.noPanic_ok _

/-- The branches of a node are as long as the leaves are deep. -/
theorem IsNode.depths_perm {t : LeafTree (UInt32 × Bytes)} {n : NodeInfo} (h : IsNode (t.map toLeaf) n) :
    (n.depths.map Prod.fst).Perm t.depths := by
  have hknown : knownLeaves (t.map toLeaf) = (t.map toLeaf).walk 0 := by
    rw [knownLeaves, List.filter_eq_self]
    intro p hp
    rw [LeafTree.walk_map] at hp
    obtain ⟨q, -, rfl⟩ := List.mem_map.1 hp
    rfl
  have hperm := h.leaves_perm.map Prod.fst
  rw [hknown] at hperm
  rw [← LeafTree.depths_map toLeaf t]
  exact hperm

/-- Two nodes are combined exactly if no leaf gets too deep. -/
theorem combine_spec {l r : LeafTree (UInt32 × Bytes)} {a b : NodeInfo} (hl : IsNode (l.map toLeaf) a)
    (hr : IsNode (r.map toLeaf) b) :
    (∃ n, NodeInfo.combine b a = .ok n ∧ IsNode ((LeafTree.node l r).map toLeaf) n) ∨
    (∃ e, NodeInfo.combine b a = .err e) ∧
      ∃ d ∈ (LeafTree.node l r).depths, TAPROOT_CONTROL_MAX_NODE_COUNT < d := by
  have hsplit : (LeafTree.node l r).depths = l.depthsAt 1 ++ r.depthsAt 1 := LeafTree.depthsAt_node l r 0
  by_cases hdepth : ∀ d ∈ (LeafTree.node l r).depths, d ≤ TAPROOT_CONTROL_MAX_NODE_COUNT
  · refine .inl (hl.combine hr fun p hp => hdepth p.1 ?_)
    have hmem := List.mem_map_of_mem (f := Prod.fst) hp
    rw [List.map_append, LeafTree.walk_map, LeafTree.walk_map, List.map_map, List.map_map] at hmem
    rw [hsplit]
    exact hmem
  · refine .inr ⟨?_, by simpa using hdepth⟩
    cases hcombine : NodeInfo.combine b a with
    | err e => exact ⟨e, rfl⟩
    | panic p => exact absurd hcombine (noPanic_combine b a p)
    | ok n =>
      -- the branches of the joined node are too short for that
      refine absurd (fun d hd => ?_) hdepth
      obtain ⟨x, y, hxy, -, -, hdepths⟩ := NodeInfo.combine_cases hcombine
      have hmem : ∀ d, d ∈ l.depths ∨ d ∈ r.depths → d ∈ (x.depths ++ y.depths).map Prod.fst := by
        intro d hd
        rw [List.map_append, List.mem_append]
        rw [← hl.depths_perm.mem_iff, ← hr.depths_perm.mem_iff] at hd
        rcases hxy with ⟨rfl, rfl⟩ | ⟨rfl, rfl⟩
        · exact hd.symm
        · exact hd
      rw [hsplit, LeafTree.depthsAt_one, LeafTree.depthsAt_one, ← List.map_append] at hd
      obtain ⟨e, he, rfl⟩ := List.mem_map.1 hd
      obtain ⟨q, hq, rfl⟩ := List.mem_map.1 (hmem e (List.mem_append.1 he))
      have hbranch : (q.1 + 1, q.2) ∈ n.depths := by
        rw [hdepths]
        exact List.mem_map.2 ⟨q, hq, rfl⟩
      obtain ⟨leaf, -, hleaf⟩ := List.mem_map.1 hbranch
      have hlen := leaf.merkleBranch.length_le
      rwa [(Prod.mk.inj hleaf).1] at hlen

/-- An item of the code's heap and its tree. -/
structure Pairs (x : ℕ × NodeInfo) (y : ℕ × LeafTree (UInt32 × Bytes)) : Prop where
  weight : x.1 = y.1
  node : IsNode (y.2.map toLeaf) x.2

theorem Pairs.before_eq {x x' : ℕ × NodeInfo} {y y' : ℕ × LeafTree (UInt32 × Bytes)} (h : Pairs x y)
    (h' : Pairs x' y') : before (fun a b => decide (a < b)) x x' = before treeLt y y' := by
  have hlt : treeLt y.2 y'.2 = decide (x.2 < x'.2) := by
    rw [treeLt, h.node.node_eq, h'.node.node_eq]
  rw [before, before, h.weight, h'.weight, hlt]

/-- The code ends with the node of the tree, or stops because the tree is too deep. -/
theorem huffmanLoop_spec {fuel : ℕ} {heap : List (ℕ × NodeInfo)}
    {trees : List (ℕ × LeafTree (UInt32 × Bytes))} (hheap : List.Forall₂ Pairs heap trees)
    (hpos : trees ≠ []) (hfuel : trees.length ≤ fuel + 1) (hsum : (trees.map Prod.fst).sum < 2 ^ 32)
    {p : ℕ × LeafTree (UInt32 × Bytes)} (hrun : huffmanLoop treeLt joinTrees fuel trees = .ok [p]) :
    (∃ x, huffmanLoop (fun a b => decide (a < b)) NodeInfo.combine fuel heap = .ok [x] ∧ Pairs x p) ∨
    (∃ e, huffmanLoop (fun a b => decide (a < b)) NodeInfo.combine fuel heap = .err e) ∧
      ∃ d ∈ p.2.depths, TAPROOT_CONTROL_MAX_NODE_COUNT < d := by
  induction fuel generalizing heap trees with
  | zero =>
    cases hrun
    obtain ⟨x, rest, hx, hrest, rfl⟩ := List.forall₂_cons_right_iff.1 hheap
    cases hrest
    exact .inl ⟨x, rfl, hx⟩
  | succ fuel ih =>
    have hlength := hheap.length_eq
    rw [huffmanLoop] at hrun
    rw [huffmanLoop, hlength]
    split_ifs at hrun ⊢ with hlen
    · obtain ⟨x, x', rest, rest', hpop, hpop', hx, hrest⟩ :=
        pop_rel Pairs.before_eq hheap (List.length_pos_iff.1 (by omega))
      obtain ⟨y₀, rest₀, hpop₀, hperm, -⟩ := @pop_spec _ treeLt _ hpos
      rw [hpop', Option.some.injEq, Prod.mk.injEq] at hpop₀
      obtain ⟨rfl, rfl⟩ := hpop₀
      have hcount := hperm.length_eq
      rw [List.length_cons] at hcount
      have hne : rest' ≠ [] := List.length_pos_iff.1 (by omega)
      have hcount' := hrest.length_eq
      obtain ⟨y, y', rest₂, rest₂', hpop₂, hpop₂', hy, hrest₂⟩ :=
        pop_rel Pairs.before_eq hrest (List.length_pos_iff.1 (by omega))
      obtain ⟨y₀, rest₀, hpop₀, hperm', -⟩ := @pop_spec _ treeLt _ hne
      rw [hpop₂', Option.some.injEq, Prod.mk.injEq] at hpop₀
      obtain ⟨rfl, rfl⟩ := hpop₀
      have hcount₂ := hperm'.length_eq
      rw [List.length_cons] at hcount₂
      have hweights := ((hperm.trans (hperm'.cons x')).map Prod.fst).sum_eq
      simp only [List.map_cons, List.sum_cons] at hweights
      rw [hpop'] at hrun
      dsimp only at hrun
      rw [hpop₂'] at hrun
      dsimp only at hrun
      rw [joinTrees, Outcome.ok_bind] at hrun
      rw [hpop]
      dsimp only
      rw [hpop₂]
      dsimp only
      have hsum' : (((min (x'.1 + y'.1) (2 ^ 32 - 1), LeafTree.node y'.2 x'.2) :: rest₂').map Prod.fst).sum <
          2 ^ 32 := by
        rw [List.map_cons, List.sum_cons]
        omega
      have hfuel' : ((min (x'.1 + y'.1) (2 ^ 32 - 1), LeafTree.node y'.2 x'.2) :: rest₂').length ≤ fuel + 1 := by
        rw [List.length_cons]
        omega
      rcases combine_spec hy.node hx.node with ⟨n, hcombine, hn⟩ | ⟨⟨e, hcombine⟩, d, hd, hdeep⟩
      · rw [hcombine, Outcome.ok_bind]
        refine ih (.cons ⟨?_, hn⟩ hrest₂) (List.cons_ne_nil _ _) hfuel' hsum' hrun
        rw [hx.weight, hy.weight]
      · -- what is too deep now stays too deep
        rw [hcombine, Outcome.err_bind]
        obtain ⟨p', hrun', hmerges⟩ := huffmanLoop_trees (List.cons_ne_nil _ _) hfuel' hsum'
        cases hrun'.symm.trans hrun
        obtain ⟨e', he', hle⟩ := hmerges.exists_le List.mem_cons_self hd
        exact .inr ⟨⟨e, rfl⟩, e', he', lt_of_lt_of_le hdeep hle⟩
    · cases hrun
      obtain ⟨x, rest, hx, hrest, rfl⟩ := List.forall₂_cons_right_iff.1 hheap
      cases hrest
      exact .inl ⟨x, rfl, hx⟩

/-! ## The least cost -/

/-- The weight of a listed script. -/
def scriptWeight (entry : UInt32 × Bytes) : ℕ := entry.1.toNat

section Optimal

variable {scriptWeights : List (UInt32 × Bytes)}

/-- The listed scripts as trees. -/
theorem run_huffmanTree (hne : scriptWeights ≠ []) (hsum : (scriptWeights.map scriptWeight).sum < 2 ^ 32) :
    ∃ p, huffmanLoop treeLt joinTrees scriptWeights.length
        (scriptWeights.map fun entry => (scriptWeight entry, LeafTree.leaf entry)) = .ok [p] ∧
      huffmanTree scriptWeights = some p.2 ∧
      Merges (scriptWeights.map fun entry => (scriptWeight entry, LeafTree.leaf entry)) p.2 := by
  obtain ⟨p, hrun, hmerges⟩ := @huffmanLoop_trees scriptWeights.length
    (scriptWeights.map fun entry => (scriptWeight entry, LeafTree.leaf entry))
    (by simpa using hne) (by simp) (by rwa [List.map_map])
  refine ⟨p, hrun, ?_, hmerges⟩
  rw [huffmanTree, List.length_map]
  change (match huffmanLoop treeLt joinTrees scriptWeights.length
    (scriptWeights.map fun entry => (scriptWeight entry, LeafTree.leaf entry)) with
    | .ok [(_, t)] => some t
    | _ => none) = some p.2
  rw [hrun]

/-- The Huffman tree has the listed scripts as its leaves, and no tree on them costs less. -/
theorem exists_huffmanTree (hne : scriptWeights ≠ []) (hsum : (scriptWeights.map scriptWeight).sum < 2 ^ 32) :
    ∃ t, huffmanTree scriptWeights = some t ∧ t.leaves.Perm scriptWeights ∧
      ∀ t' : LeafTree (UInt32 × Bytes), t'.leaves.Perm scriptWeights →
        cost scriptWeight t ≤ cost scriptWeight t' := by
  obtain ⟨p, -, htree, hmerges⟩ := run_huffmanTree hne hsum
  refine ⟨p.2, htree, ?_, fun t' ht' => hmerges.cost_le ht'⟩
  have hleaves := hmerges.leaves_perm
  rw [List.flatMap_map] at hleaves
  simpa [LeafTree.leaves, LeafTree.walk] using hleaves

/-- The builder gets the node of the Huffman tree, unless that tree is too deep. -/
theorem withHuffmanTree_spec (hne : scriptWeights ≠ []) (hsum : (scriptWeights.map scriptWeight).sum < 2 ^ 32)
    {t : LeafTree (UInt32 × Bytes)} (ht : huffmanTree scriptWeights = some t) :
    (∃ node, TaprootBuilder.withHuffmanTree scriptWeights = .ok ⟨[some node]⟩ ∧ IsNode (t.map toLeaf) node) ∨
    (∃ e, TaprootBuilder.withHuffmanTree scriptWeights = .err e) ∧
      ∃ d ∈ t.depths, TAPROOT_CONTROL_MAX_NODE_COUNT < d := by
  obtain ⟨p, hrun, htree, -⟩ := run_huffmanTree hne hsum
  obtain rfl : p.2 = t := Option.some.inj (htree.symm.trans ht)
  have hheap : List.Forall₂ Pairs
      (scriptWeights.map fun entry => (entry.1.toNat, NodeInfo.newLeafWithVer entry.2 .tapScript))
      (scriptWeights.map fun entry => (scriptWeight entry, LeafTree.leaf entry)) := by
    rw [List.forall₂_map_left_iff, List.forall₂_map_right_iff]
    exact List.forall₂_same.2 fun entry _ => ⟨rfl, isNode_leaf (toLeaf entry)⟩
  have hnil : (scriptWeights.map fun entry =>
      (entry.1.toNat, NodeInfo.newLeafWithVer entry.2 .tapScript)) ≠ [] := by simpa using hne
  have hloop := huffmanLoop_spec hheap (by simpa using hne) (by simp) (by rwa [List.map_map]) hrun
  unfold TaprootBuilder.withHuffmanTree
  dsimp only
  rw [Outcome.ensure_of hnil, Outcome.ok_bind, List.length_map]
  rcases hloop with ⟨x, hx, hpair⟩ | ⟨⟨e, he⟩, hdeep⟩
  · rw [hx]
    exact .inl ⟨x.2, rfl, hpair.node⟩
  · rw [he]
    exact .inr ⟨⟨e, rfl⟩, hdeep⟩

/-- Both functions build the node of a tree that has every listed script as a leaf once and costs no more
than any other such tree, if the Huffman tree is not too deep. -/
theorem withHuffmanTree_optimal (hne : scriptWeights ≠ [])
    (hsum : (scriptWeights.map fun entry => entry.1.toNat).sum < 2 ^ 32)
    (hdepth : ∀ t, huffmanTree scriptWeights = some t → ∀ d ∈ t.depths, d ≤ 128) :
    ∃ (t : LeafTree (UInt32 × Bytes)) (node : NodeInfo),
      TaprootBuilder.withHuffmanTree scriptWeights = .ok ⟨[some node]⟩ ∧
      (∀ (S : KeyFormats) (secp : XOnlyTweaks S) (internalKey : S.XOnlyPublicKey),
        TaprootSpendInfo.withHuffmanTree secp internalKey scriptWeights =
          .lift (TaprootSpendInfo.fromNodeInfo secp internalKey node)) ∧
      IsNode (t.map toLeaf) node ∧ t.leaves.Perm scriptWeights ∧
      ∀ t' : LeafTree (UInt32 × Bytes), t'.leaves.Perm scriptWeights →
        cost (fun entry => entry.1.toNat) t ≤ cost (fun entry => entry.1.toNat) t' := by
  obtain ⟨t, ht, hleaves, hcost⟩ := exists_huffmanTree hne hsum
  rcases withHuffmanTree_spec hne hsum ht with ⟨node, hnode, hisNode⟩ | ⟨-, d, hd, hdeep⟩
  · refine ⟨t, node, hnode, fun S secp internalKey => ?_, hisNode, hleaves, hcost⟩
    unfold TaprootSpendInfo.withHuffmanTree
    rw [hnode, Outcome.ok_bind]
    unfold TaprootBuilder.finalize
    dsimp only
    cases TaprootSpendInfo.fromNodeInfo secp internalKey node with
    | ok info => rfl
    | err e => exact e.elim
    | panic p => rfl
  · exact absurd (hdepth t ht d hd) (Nat.not_le.2 hdeep)

/-- The list of the documentation: the heaviest script stands at depth 1. -/
theorem withHuffmanTree_optimal_sample :
    ∃ (t : LeafTree (UInt32 × Bytes)) (node : NodeInfo),
      TaprootBuilder.withHuffmanTree [(3, [0x51]), (2, [0x52]), (5, [0x53])] = .ok ⟨[some node]⟩ ∧
      t.leaves.Perm [(3, [0x51]), (2, [0x52]), (5, [0x53])] ∧
      cost (fun entry : UInt32 × Bytes => entry.1.toNat) t ≤ 15 := by
  have htree : (huffmanTree [(3, [0x51]), (2, [0x52]), (5, [0x53])]).map LeafTree.depths = some [2, 2, 1] := by
    decide +kernel
  have hdepth : ∀ t, huffmanTree [(3, [0x51]), (2, [0x52]), (5, [0x53])] = some t → ∀ d ∈ t.depths, d ≤ 128 := by
    intro t ht d hd
    rw [ht, Option.map_some, Option.some.injEq] at htree
    rw [htree] at hd
    revert d
    decide
  obtain ⟨t, node, hnode, -, -, hleaves, hcost⟩ :=
    withHuffmanTree_optimal (List.cons_ne_nil _ _) (by decide) hdepth
  refine ⟨t, node, hnode, hleaves, ?_⟩
  exact hcost (.node (.node (.leaf (3, [0x51])) (.leaf (2, [0x52]))) (.leaf (5, [0x53]))) (List.Perm.refl _)

end Optimal

end Taproot

end RustDogecoin
