import RustDogecoin.Taproot.Node

/-!
# Building script trees

`TaprootBuilder` keeps one optional node for each level of the tree under construction.  `insert` adds
a node and joins it upwards with the left siblings that wait for it.

The entries of a builder, deepest first, are the nodes of a `DepthFirst.Spine` (`Holds`), and `insert`
acts on them as `DepthFirst.put` acts on the spine (`insert_of_put`, `insert_eq_ok`).
-/

namespace RustDogecoin

namespace Taproot

open DepthFirst

structure TaprootBuilder where
  branch : List (Option NodeInfo)
  deriving DecidableEq, Repr

/-- `IncompleteBuilderError`. -/
inductive IncompleteBuilderError where
  | notFinalized (builder : TaprootBuilder)
  | hiddenParts (builder : TaprootBuilder)
  deriving DecidableEq, Repr

/-- `TapTree`: a node without hidden nodes below it. -/
structure TapTree where
  nodeInfo : NodeInfo
  not_hidden : nodeInfo.hasHiddenNodes = false
  deriving DecidableEq, Repr

namespace TaprootBuilder

def new : TaprootBuilder := ⟨[]⟩

/-- The loop of `insert`, over the branch with its last entry first: `node` is joined with the last
entry as long as the branch ends at its depth. -/
def combineUp : List (Option NodeInfo) → NodeInfo → ℕ →
    Outcome TaprootBuilderError (List (Option NodeInfo) × NodeInfo × ℕ)
  | [], node, depth => .ok ([], node, depth)
  | entry :: rest, node, depth =>
    if rest.length + 1 = depth + 1 then
      match entry with
      | none => .ok (none :: rest, node, depth)
      | some child =>
        if depth = 0 then .err .overCompleteTree
        else do
          let node ← NodeInfo.combine node child
          combineUp rest node (depth - 1)
    else .ok (entry :: rest, node, depth)

/-- The end of `insert`: the branch is filled up to `depth`, and `node` is put there. -/
def place (branch : List (Option NodeInfo)) (node : NodeInfo) (depth : ℕ) :
    Outcome TaprootBuilderError TaprootBuilder := do
  let branch :=
    if branch.length < depth + 1 then branch ++ List.replicate (depth + 1 - branch.length) none
    else branch
  .require (depth < branch.length) .outOfBounds
  return ⟨branch.set depth (some node)⟩

/-- `TaprootBuilder::insert`. -/
def insert (b : TaprootBuilder) (node : NodeInfo) (depth : UInt8) :
    Outcome TaprootBuilderError TaprootBuilder := do
  .ensure (depth.toNat ≤ TAPROOT_CONTROL_MAX_NODE_COUNT) (.invalidMerkleTreeDepth depth.toNat)
  .ensure (b.branch.length ≤ depth.toNat + 1) .nodeNotInDfsOrder
  let (rest, node, depth) ← combineUp b.branch.reverse node depth.toNat
  place rest.reverse node depth

/-- `TaprootBuilder::add_leaf_with_ver`. -/
def addLeafWithVer (b : TaprootBuilder) (depth : UInt8) (script : Bytes) (ver : LeafVersion) :
    Outcome TaprootBuilderError TaprootBuilder :=
  b.insert (.newLeafWithVer script ver) depth

/-- `TaprootBuilder::add_leaf`. -/
def addLeaf (b : TaprootBuilder) (depth : UInt8) (script : Bytes) :
    Outcome TaprootBuilderError TaprootBuilder :=
  b.addLeafWithVer depth script .tapScript

/-- `TaprootBuilder::add_hidden_node`. -/
def addHiddenNode (b : TaprootBuilder) (depth : UInt8) (hash : TapNodeHash) :
    Outcome TaprootBuilderError TaprootBuilder :=
  b.insert (.newHiddenNode hash) depth

/-- `TaprootBuilder::is_finalizable`. -/
def isFinalizable (b : TaprootBuilder) : Bool :=
  b.branch.length == 1 && (b.branch.head?.getD none).isSome

/-- `TaprootBuilder::try_into_node_info`. -/
def tryIntoNodeInfo (b : TaprootBuilder) : Outcome IncompleteBuilderError NodeInfo :=
  match b.branch with
  | [some node] => .ok node
  | [none] => .panic .unwrap
  | _ => .err (.notFinalized b)

/-- `TaprootBuilder::try_into_taptree`. -/
def tryIntoTaptree (b : TaprootBuilder) : Outcome IncompleteBuilderError TapTree := do
  let node ← b.tryIntoNodeInfo
  if h : node.hasHiddenNodes = false then return ⟨node, h⟩
  else .err (.hiddenParts ⟨[some node]⟩)

end TaprootBuilder

/-- One call of `add_leaf`, `add_leaf_with_ver` or `add_hidden_node`. -/
structure Add where
  depth : UInt8
  leaf : TapLeaf
  deriving DecidableEq, Repr

namespace TaprootBuilder

def add (b : TaprootBuilder) (call : Add) : Outcome TaprootBuilderError TaprootBuilder :=
  match call.leaf with
  | .script script ver => b.addLeafWithVer call.depth script ver
  | .hidden hash => b.addHiddenNode call.depth hash

/-- Calls one after the other, each on the builder that the one before it returned. -/
def addAll (b : TaprootBuilder) (calls : List Add) : Outcome TaprootBuilderError TaprootBuilder :=
  calls.foldlM add b

/-! ## Builders and spines -/

/-- The entries of the builder are the nodes of the spine. -/
def Holds (es : Spine TapLeaf) (b : TaprootBuilder) : Prop :=
  List.Forall₂ (Option.Rel IsNode) es b.branch.reverse

theorem place_of_length_le {rest : List (Option NodeInfo)} {depth : ℕ} (h : rest.length ≤ depth)
    (node : NodeInfo) :
    place rest.reverse node depth =
      .ok ⟨(some node :: (List.replicate (depth - rest.length) none ++ rest)).reverse⟩ := by
  have hpad : rest.reverse ++ List.replicate (depth + 1 - rest.reverse.length) none =
      (rest.reverse ++ List.replicate (depth - rest.length) none) ++ [none] := by
    rw [List.length_reverse, show depth + 1 - rest.length = depth - rest.length + 1 by omega,
      List.replicate_succ', List.append_assoc]
  have hlen : (rest.reverse ++ List.replicate (depth - rest.length) (none : Option NodeInfo)).length =
      depth := by
    simp
    omega
  unfold place
  rw [if_pos (by rw [List.length_reverse]; omega), hpad]
  dsimp only
  rw [Outcome.require_of (by simp; omega), Outcome.ok_bind]
  rw [List.set_append_right _ _ hlen.le, hlen, Nat.sub_self]
  simp

theorem place_none (rest : List (Option NodeInfo)) (node : NodeInfo) :
    place (none :: rest).reverse node rest.length = .ok ⟨(some node :: rest).reverse⟩ := by
  unfold place
  rw [if_neg (by simp)]
  dsimp only
  rw [Outcome.require_of (by simp), Outcome.ok_bind, List.reverse_cons,
    List.set_append_right _ _ (by simp)]
  simp

theorem combineUp_of_length_le {rest : List (Option NodeInfo)} {depth : ℕ} (h : rest.length ≤ depth)
    (node : NodeInfo) : combineUp rest node depth = .ok (rest, node, depth) := by
  cases rest with
  | nil => rfl
  | cons entry rest =>
    rw [List.length_cons] at h
    simp only [combineUp]
    rw [if_neg (by omega)]

/-- A spine and a builder that get a new last entry, with empty levels above it. -/
theorem holds_cons {es : Spine TapLeaf} {rest : List (Option NodeInfo)} {t : LeafTree TapLeaf}
    {node : NodeInfo} (hes : List.Forall₂ (Option.Rel IsNode) es rest) (ht : IsNode t node) (n : ℕ) :
    Holds (some t :: (List.replicate n none ++ es))
      ⟨(some node :: (List.replicate n none ++ rest)).reverse⟩ := by
  unfold Holds
  rw [List.reverse_reverse]
  refine .cons (.some ht) ?_
  induction n with
  | zero => exact hes
  | succ n ih => exact .cons .none ih

/-- The loop and the end of `insert` do to the entries what `put` does to the spine. -/
theorem combineUp_place {es : Spine TapLeaf} {rest : List (Option NodeInfo)} {t : LeafTree TapLeaf}
    {node : NodeInfo} {depth : ℕ} (hes : List.Forall₂ (Option.Rel IsNode) es rest) (ht : IsNode t node)
    (hlen : es.length ≤ depth + 1)
    (hdepth : ∀ p ∈ spineWalk es ++ t.walk depth, p.1 ≤ TAPROOT_CONTROL_MAX_NODE_COUNT) :
    (∃ es' b, put es t depth = some es' ∧ Holds es' b ∧
      (combineUp rest node depth >>= fun x => place x.1.reverse x.2.1 x.2.2) = .ok b) ∨
    (put es t depth = none ∧
      (combineUp rest node depth >>= fun x => place x.1.reverse x.2.1 x.2.2) =
        .err .overCompleteTree) := by
  induction hes generalizing t node depth with
  | nil =>
    left
    refine ⟨_, _, put_of_length_le (Nat.zero_le depth) t, holds_cons .nil ht _, ?_⟩
    rw [combineUp, Outcome.ok_bind]
    exact place_of_length_le (Nat.zero_le depth) node
  | @cons e entry es rest hentry hes ih =>
    have heq := hes.length_eq
    rw [List.length_cons] at hlen
    rcases Nat.lt_or_ge es.length depth with hd | hd
    · -- the branch ends above the new node
      left
      have hrest : (entry :: rest).length ≤ depth := by
        rw [List.length_cons]
        omega
      refine ⟨_, _, put_of_length_le (by rwa [List.length_cons]) t, holds_cons (.cons hentry hes) ht _, ?_⟩
      rw [combineUp_of_length_le hrest, Outcome.ok_bind, place_of_length_le hrest, List.length_cons,
        List.length_cons, heq]
    · obtain rfl : depth = es.length := by omega
      cases hentry with
      | none =>
        left
        refine ⟨_, _, put_none es t, holds_cons hes ht 0, ?_⟩
        simp only [combineUp, heq, if_true, Outcome.ok_bind]
        exact place_none rest node
      | @some s child hs =>
        cases hzero : es.length with
        | zero =>
          right
          rw [put_eq_none_iff, List.length_eq_zero_iff.1 hzero]
          rw [heq] at hzero
          simp [combineUp, hzero]
        | succ d =>
          -- the join stands one level up, where the rest of the branch ends
          have hnext : ∀ p ∈ spineWalk es ++ (LeafTree.node s t).walk d,
              p.1 ≤ TAPROOT_CONTROL_MAX_NODE_COUNT := by
            rwa [LeafTree.walk, ← hzero, ← List.append_assoc]
          have hjoin : ∀ p ∈ (LeafTree.node s t).walk 0, p.1 ≤ TAPROOT_CONTROL_MAX_NODE_COUNT :=
            LeafTree.forall_walk_le_of_le (Nat.zero_le d) fun p hp => hnext p (List.mem_append_right _ hp)
          obtain ⟨n, hn, hnode⟩ := hs.combine ht hjoin
          have hrec := ih hnode hzero.le hnext
          rw [put_some _ _ _ hzero]
          simpa [combineUp, ← heq, hzero, hn] using hrec

/-! ## Insertion -/

theorem isNode_add (b : TaprootBuilder) (call : Add) :
    ∃ node, IsNode (.leaf call.leaf) node ∧ b.add call = b.insert node call.depth := by
  rcases call with ⟨depth, script | hash⟩
  · exact ⟨_, isNode_leaf _, rfl⟩
  · exact ⟨_, isNode_leaf _, rfl⟩

/-- A call is accepted when its depth is in range and `put` accepts it, and then does the same. -/
theorem add_spec {es : Spine TapLeaf} {b : TaprootBuilder} (hb : Holds es b)
    (hdepth : ∀ p ∈ spineWalk es, p.1 ≤ TAPROOT_CONTROL_MAX_NODE_COUNT) (call : Add) :
    (∃ es' b', call.depth.toNat ≤ TAPROOT_CONTROL_MAX_NODE_COUNT ∧
      put es (.leaf call.leaf) call.depth.toNat = some es' ∧ Holds es' b' ∧ b.add call = .ok b') ∨
    ((TAPROOT_CONTROL_MAX_NODE_COUNT < call.depth.toNat ∨
      put es (.leaf call.leaf) call.depth.toNat = none) ∧ ∃ e, b.add call = .err e) := by
  obtain ⟨node, hnode, hadd⟩ := isNode_add b call
  have hlen : es.length = b.branch.length := by simpa using hb.length_eq
  rw [hadd, insert]
  by_cases hmax : call.depth.toNat ≤ TAPROOT_CONTROL_MAX_NODE_COUNT
  · rw [Outcome.ensure_of hmax, Outcome.ok_bind]
    by_cases horder : b.branch.length ≤ call.depth.toNat + 1
    · rw [Outcome.ensure_of horder, Outcome.ok_bind]
      have hall : ∀ p ∈ spineWalk es ++ (LeafTree.leaf call.leaf).walk call.depth.toNat,
          p.1 ≤ TAPROOT_CONTROL_MAX_NODE_COUNT := by
        intro p hp
        rcases List.mem_append.1 hp with hp | hp
        · exact hdepth p hp
        · rw [LeafTree.walk, List.mem_singleton] at hp
          rw [hp]
          exact hmax
      rcases combineUp_place hb hnode (by omega) hall with ⟨es', b', hput, hb', hrun⟩ | ⟨hput, hrun⟩
      · exact Or.inl ⟨es', b', hmax, hput, hb', hrun⟩
      · exact Or.inr ⟨Or.inr hput, _, hrun⟩
    · right
      refine ⟨Or.inr ((put_eq_none_iff _ _ _).2 (Or.inl (by omega))), .nodeNotInDfsOrder, ?_⟩
      rw [Outcome.ensure, if_neg horder]
      rfl
  · right
    refine ⟨Or.inl (by omega), .invalidMerkleTreeDepth call.depth.toNat, ?_⟩
    rw [Outcome.ensure, if_neg hmax]
    rfl

/-- A leaf with its depth, as the builder was called with it. -/
def callOf (call : Add) : ℕ × TapLeaf := (call.depth.toNat, call.leaf)

/-- After accepted calls the builder holds the spine of their leaves. -/
theorem exists_run {calls : List Add} {b : TaprootBuilder} (h : addAll new calls = .ok b) :
    ∃ es, run [] (calls.map callOf) = some es ∧ Holds es b ∧
      ∀ p ∈ calls.map callOf, p.1 ≤ TAPROOT_CONTROL_MAX_NODE_COUNT := by
  induction calls using List.reverseRecOn generalizing b with
  | nil =>
    cases h
    exact ⟨[], rfl, .nil, by simp⟩
  | append_singleton calls call ih =>
    rw [addAll, List.foldlM_append, Outcome.bind_eq_ok_iff] at h
    obtain ⟨b₁, h₁, h₂⟩ := h
    obtain ⟨es, hrun, hb, hdepth⟩ := ih h₁
    have hadd : b₁.add call = .ok b := by
      simpa only [List.foldlM_cons, List.foldlM_nil, bind_pure] using h₂
    have hwalk : spineWalk es = calls.map callOf := spineWalk_run hrun
    rcases add_spec hb (by rwa [hwalk]) call with ⟨es', b', hmax, hput, hb', hok⟩ | ⟨-, e, herr⟩
    · obtain rfl : b' = b := by simpa [hok] using hadd
      refine ⟨es', ?_, hb', ?_⟩
      · rw [List.map_append, run_append, hrun, Option.bind_some]
        simp [run, callOf, hput]
      · rw [List.map_append, List.forall_mem_append]
        exact ⟨hdepth, by simpa [callOf] using hmax⟩
    · rw [herr] at hadd
      cases hadd

/-- Calls that make up a spine are accepted. -/
theorem addAll_of_run {calls : List Add} {es : Spine TapLeaf} (h : run [] (calls.map callOf) = some es)
    (hdepth : ∀ p ∈ calls.map callOf, p.1 ≤ TAPROOT_CONTROL_MAX_NODE_COUNT) :
    ∃ b, addAll new calls = .ok b ∧ Holds es b := by
  induction calls using List.reverseRecOn generalizing es with
  | nil =>
    cases h
    exact ⟨new, rfl, .nil⟩
  | append_singleton calls call ih =>
    rw [List.map_append, run_append, Option.bind_eq_some_iff] at h
    rw [List.map_append, List.forall_mem_append] at hdepth
    obtain ⟨es₁, h₁, h₂⟩ := h
    obtain ⟨b₁, hb₁, hholds⟩ := ih h₁ hdepth.1
    have hput : put es₁ (.leaf call.leaf) call.depth.toNat = some es := by
      simpa [run, callOf] using h₂
    have hmax : call.depth.toNat ≤ TAPROOT_CONTROL_MAX_NODE_COUNT := 
      hdepth.2 (callOf call) (List.mem_singleton.2 rfl)
    have hwalk : spineWalk es₁ = calls.map callOf := spineWalk_run h₁
    rcases add_spec hholds (by rw [hwalk]; exact hdepth.1) call with
      ⟨es', b', -, hput', hb', hok⟩ | ⟨hbad, -⟩
    · obtain rfl : es' = es := Option.some.inj (hput'.symm.trans hput)
      refine ⟨b', ?_, hb'⟩
      rw [addAll] at hb₁ ⊢
      rw [List.foldlM_append, hb₁, Outcome.ok_bind, List.foldlM_cons, hok]
      rfl
    · rcases hbad with hbad | hbad
      · omega
      · rw [hput] at hbad
        cases hbad

/-- A builder that holds one finished tree gives its node. -/
theorem tryIntoNodeInfo_of_holds {t : LeafTree TapLeaf} {b : TaprootBuilder} (h : Holds [some t] b) :
    ∃ node, b.tryIntoNodeInfo = .ok node ∧ IsNode t node := by
  obtain ⟨branch⟩ := b
  obtain ⟨entry, rest, hentry, hrest, heq⟩ := List.forall₂_cons_left_iff.1 h
  cases hrest
  cases hentry with
  | some ht =>
    obtain rfl : branch = [some _] := by simpa using congrArg List.reverse heq
    exact ⟨_, rfl, ht⟩

/-- The node of a builder is the node of the tree that its calls walk through. -/
theorem isNode_of_addAll {calls : List Add} {b : TaprootBuilder} {node : NodeInfo}
    (h : addAll new calls = .ok b) (hnode : b.tryIntoNodeInfo = .ok node) :
    ∃ t : LeafTree TapLeaf, t.walk 0 = calls.map callOf ∧ IsNode t node := by
  obtain ⟨es, hrun, hb, -⟩ := exists_run h
  have hbranch : b.branch = [some node] := by
    obtain ⟨branch⟩ := b
    rcases branch with _ | ⟨_ | n, _ | ⟨e, rest⟩⟩ <;> simp_all [tryIntoNodeInfo]
  rw [Holds, hbranch, List.reverse_singleton] at hb
  cases hb with
  | cons hentry hrest =>
    cases hrest
    cases hentry with
    | @some t _ ht => exact ⟨t, by simpa [spineWalk] using spineWalk_run hrun, ht⟩

/-- The depths the builder was called with are the leaf depths of a full binary tree from left to
right, its node has the root of that tree, and its leaves are the known ones, each with a branch as
long as the leaf is deep that leads from its hash to the root. -/
theorem tryIntoNodeInfo_of_addAll {calls : List Add} {b : TaprootBuilder}
    (h : addAll new calls = .ok b) (hf : b.isFinalizable = true) :
    ∃ (t : LeafTree TapLeaf) (node : NodeInfo), b.tryIntoNodeInfo = .ok node ∧
      t.walk 0 = calls.map callOf ∧ node.hash = tapRoot t ∧
      (node.leaves.map fun l => (l.merkleBranch.hashes.length, l.leaf)).Perm
        ((calls.map callOf).filter fun p => !p.2.isHidden) ∧
      ∀ l ∈ node.leaves,
        l.merkleBranch.hashes.foldl TapNodeHash.fromNodeHashes l.nodeHash = node.hash := by
  have hnode : ∃ node, b.tryIntoNodeInfo = .ok node := by
    rcases b with ⟨_ | ⟨_ | node, _ | ⟨e, rest⟩⟩⟩ <;> simp [isFinalizable, tryIntoNodeInfo] at hf ⊢
  obtain ⟨node, hnode⟩ := hnode
  obtain ⟨t, hwalk, ht⟩ := isNode_of_addAll h hnode
  refine ⟨t, node, hnode, hwalk, ht.hash_eq, ?_, ht.fold_eq⟩
  rw [← hwalk]
  exact ht.leaves_perm

/-- A script leaf on the left, and a script leaf and a hidden node on the right. -/
def sampleCalls : List Add :=
  [⟨1, .script [0x51] .tapScript⟩, ⟨2, .script [0x52, 0x53] .tapScript⟩,
    ⟨2, .hidden (U8Array.replicate 32 7)⟩]

def sampleBuilder : TaprootBuilder :=
  match addAll new sampleCalls with
  | .ok b => b
  | _ => new

theorem tryIntoNodeInfo_of_addAll_sample :
    addAll new sampleCalls = .ok sampleBuilder ∧ sampleBuilder.isFinalizable = true ∧
      ∃ (t : LeafTree TapLeaf) (node : NodeInfo), sampleBuilder.tryIntoNodeInfo = .ok node ∧
        t.walk 0 = sampleCalls.map callOf ∧ node.hash = tapRoot t := by
  have hboth : addAll new sampleCalls = .ok sampleBuilder ∧ sampleBuilder.isFinalizable = true := by
    decide +kernel
  obtain ⟨h, hf⟩ := hboth
  obtain ⟨t, node, hnode, hwalk, hhash, -⟩ := tryIntoNodeInfo_of_addAll h hf
  exact ⟨h, hf, t, node, hnode, hwalk, hhash⟩

/-! ## Which calls are accepted -/

/-- The depths of calls, in order. -/
def depths (calls : List Add) : List ℕ := calls.map fun call => call.depth.toNat

/-- The root is not finished. -/
def RootOpen (b : TaprootBuilder) : Prop := b.branch = [] ∨ b.branch.head? = some none

theorem Holds.isSome_eq {es : Spine TapLeaf} {b : TaprootBuilder} (h : Holds es b) :
    es.map Option.isSome = b.branch.reverse.map Option.isSome := by
  unfold Holds at h
  generalize b.branch.reverse = entries at h ⊢
  induction h with
  | nil => rfl
  | cons hentry _ ih =>
    rw [List.map_cons, List.map_cons, ih]
    cases hentry <;> rfl

theorem Holds.rootOpen_iff {es : Spine TapLeaf} {b : TaprootBuilder} (h : Holds es b) :
    DepthFirst.RootOpen es ↔ b.RootOpen := by
  have hnone : ∀ {β : Type} (xs : List (Option β)),
      xs.getLast? = some none ↔ (xs.map Option.isSome).getLast? = some false := by
    intro β xs
    rw [List.getLast?_map]
    rcases xs.getLast? with _ | _ | x <;> simp
  have hnil : es = [] ↔ b.branch = [] := by
    rw [← List.map_eq_nil_iff (f := Option.isSome), h.isSome_eq]
    simp
  rw [DepthFirst.RootOpen, RootOpen, hnil, hnone es, h.isSome_eq, ← hnone, List.getLast?_reverse]

theorem Holds.all_isSome_iff {es : Spine TapLeaf} {b : TaprootBuilder} (h : Holds es b) :
    (∀ e ∈ es, e.isSome) ↔ ∀ entry ∈ b.branch, entry.isSome := by
  have hall : ∀ {β : Type} (xs : List (Option β)),
      (∀ x ∈ xs, x.isSome) ↔ ∀ s ∈ xs.map Option.isSome, s = true := by
    intro β xs
    simp
  rw [hall es, h.isSome_eq, ← hall]
  simp

/-- For every accepted sequence of calls, the next one is accepted exactly when the depths go on as
the depth-first walk of a tree, unless the root is finished and the builder takes the call none the
less: it refuses only depths above the limit, levels above the last entry, and a full branch. -/
theorem add_iff_beginsWalk_iff {calls : List Add} {b : TaprootBuilder} (h : addAll new calls = .ok b)
    (call : Add) :
    ((∃ b', b.add call = .ok b') ↔
        BeginsWalk TAPROOT_CONTROL_MAX_NODE_COUNT (depths (calls ++ [call]))) ↔
      b.RootOpen ∨ TAPROOT_CONTROL_MAX_NODE_COUNT < call.depth.toNat ∨
        call.depth.toNat + 1 < b.branch.length ∨
        (b.branch.length = call.depth.toNat + 1 ∧ ∀ entry ∈ b.branch, entry.isSome) := by
  obtain ⟨es, hrun, hb, hdepth⟩ := exists_run h
  have hwalk : spineWalk es = calls.map callOf := spineWalk_run hrun
  have hlen : es.length = b.branch.length := by simpa using hb.length_eq
  have hdepths : depths (calls ++ [call]) = (calls.map callOf).map Prod.fst ++ [call.depth.toNat] := by
    simp [depths, callOf]
  rcases Nat.lt_or_ge TAPROOT_CONTROL_MAX_NODE_COUNT call.depth.toNat with hmax | hmax
  · -- neither accepted nor the walk of a tree
    have hadd : ¬∃ b', b.add call = .ok b' := by
      rintro ⟨b', hok⟩
      rcases add_spec hb (by rwa [hwalk]) call with ⟨-, -, hle, -⟩ | ⟨-, e, herr⟩
      · omega
      · rw [herr] at hok
        cases hok
    have hbegins : ¬BeginsWalk TAPROOT_CONTROL_MAX_NODE_COUNT (depths (calls ++ [call])) := by
      rintro ⟨t, hle, hbegin⟩
      have hmem : call.depth.toNat ∈ depths (calls ++ [call]) := by simp [hdepths]
      have := hle _ (hbegin.subset hmem)
      omega
    exact iff_of_true (iff_of_false hadd hbegins) (Or.inr (Or.inl hmax))
  · have hput : (∃ b', b.add call = .ok b') ↔ (put es (.leaf call.leaf) call.depth.toNat).isSome := by
      rcases add_spec hb (by rwa [hwalk]) call with ⟨es', b', -, hsome, -, hok⟩ | ⟨hnone, e, herr⟩
      · exact iff_of_true ⟨b', hok⟩ (by rw [hsome]; rfl)
      · rcases hnone with hlt | hnone
        · omega
        · exact iff_of_false (by simp [herr]) (by simp [hnone])
    have hrefuse := put_eq_none_iff es (.leaf call.leaf) call.depth.toNat
    rw [hlen, hb.all_isSome_iff] at hrefuse
    rw [hput, hdepths, beginsWalk_concat_iff hrun hdepth hmax call.leaf, hb.rootOpen_iff, ← hrefuse,
      ← Option.not_isSome_iff_eq_none]
    have hnot : ¬TAPROOT_CONTROL_MAX_NODE_COUNT < call.depth.toNat := Nat.not_lt.2 hmax
    tauto

/-- A builder that waits for the right sibling of a leaf at depth 1. -/
theorem add_iff_beginsWalk_iff_sample :
    addAll new [⟨1, .script [0x51] .tapScript⟩] =
        .ok ⟨[none, some (.newLeafWithVer [0x51] .tapScript)]⟩ ∧
      ((∃ b', (TaprootBuilder.mk [none, some (.newLeafWithVer [0x51] .tapScript)]).add
          ⟨2, .script [0x52] .tapScript⟩ = .ok b') ↔
        BeginsWalk TAPROOT_CONTROL_MAX_NODE_COUNT
          (depths [⟨1, .script [0x51] .tapScript⟩, ⟨2, .script [0x52] .tapScript⟩])) := by
  have h : addAll new [⟨1, .script [0x51] .tapScript⟩] =
      .ok ⟨[none, some (.newLeafWithVer [0x51] .tapScript)]⟩ := rfl
  exact ⟨h, (add_iff_beginsWalk_iff h ⟨2, .script [0x52] .tapScript⟩).2 (Or.inl (Or.inr rfl))⟩

/-- After a leaf at the root, which is a whole tree, another leaf at depth 1 is accepted. -/
theorem add_after_root :
    ¬∀ (calls : List Add) (b : TaprootBuilder), addAll new calls = .ok b → ∀ call : Add,
      ((∃ b', b.add call = .ok b') ↔
        BeginsWalk TAPROOT_CONTROL_MAX_NODE_COUNT (depths (calls ++ [call]))) := by
  intro hclaim
  have hroot : addAll new [⟨0, .script [0x51] .tapScript⟩] =
      .ok ⟨[some (.newLeafWithVer [0x51] .tapScript)]⟩ := rfl
  have hnext : (TaprootBuilder.mk [some (.newLeafWithVer [0x51] .tapScript)]).add
      ⟨1, .script [0x52] .tapScript⟩ = .ok ⟨[some (.newLeafWithVer [0x51] .tapScript),
        some (.newLeafWithVer [0x52] .tapScript)]⟩ := rfl
  obtain ⟨t, -, hbegin⟩ := (hclaim _ _ hroot ⟨1, .script [0x52] .tapScript⟩).1 ⟨_, hnext⟩
  -- a leaf at depth 0 is the only leaf
  cases t with
  | leaf a => simp [depths, LeafTree.depths, LeafTree.walk] at hbegin
  | node l r =>
    obtain ⟨rest, hrest⟩ := hbegin
    have hzero : 0 ∈ (LeafTree.node l r).depths := by
      rw [← hrest]
      simp [depths]
    obtain ⟨p, hp, hp0⟩ := List.mem_map.1 hzero
    rw [LeafTree.walk, LeafTree.walk_eq_map l, LeafTree.walk_eq_map r, ← List.map_append] at hp
    obtain ⟨q, -, rfl⟩ := List.mem_map.1 hp
    exact Nat.succ_ne_zero _ hp0

end TaprootBuilder

end Taproot

end RustDogecoin
