import Mathlib.Tactic.Common
import Mathlib.Data.Nat.Log
import Mathlib.Data.Set.Function
import Mathlib.Algebra.Group.Nat.Defs

/-!
# Merkle trees over an arbitrary node hash

A branch is the list of siblings from a leaf to the root, each with the side it stands on.
`foldBranch` computes the root from a leaf and its branch.  `nodeAt` is the tree over `n` leaves in
which an odd last node of a level is paired with itself, and a `PartialTree` is what is left of such
a tree when the parts without interesting leaves are cut off.  No node hash with values of bounded
size is injective, so the results assume injectivity on the pairs that are hashed in the
computations at hand only.
-/

namespace Merkle

variable {α : Type} (H : α → α → α)

/-- The node hash, on pairs. -/
def hashPair (p : α × α) : α := H p.1 p.2

/-! ## Branches -/

/-- The pair that is hashed in one step: `true` puts the sibling on the left. -/
def branchPair (x : α) (s : Bool × α) : α × α := if s.1 then (s.2, x) else (x, s.2)

/-- The root over a leaf, from the siblings on the way up. -/
def foldBranch (x : α) : List (Bool × α) → α
  | [] => x
  | s :: path => foldBranch (hashPair H (branchPair x s)) path

/-- The pairs that are hashed on the way up. -/
def branchPairs (x : α) : List (Bool × α) → List (α × α)
  | [] => []
  | s :: path => branchPair x s :: branchPairs (hashPair H (branchPair x s)) path

theorem branchPair_injective {x y : α} {s t : Bool × α} (hside : s.1 = t.1)
    (h : branchPair x s = branchPair y t) : x = y ∧ s = t := by
  obtain ⟨b, u⟩ := s
  obtain ⟨c, v⟩ := t
  cases hside
  cases b <;> simp_all [branchPair]

/-- Two branches with the same sides and the same root have the same leaf and the same siblings. -/
theorem foldBranch_injective {x y : α} {p q : List (Bool × α)}
    (hsides : p.map Prod.fst = q.map Prod.fst)
    (hinj : Set.InjOn (hashPair H) {r | r ∈ branchPairs H x p ++ branchPairs H y q})
    (h : foldBranch H x p = foldBranch H y q) : x = y ∧ p = q := by
  induction p generalizing x y q with
  | nil =>
    obtain rfl : q = [] := List.map_eq_nil_iff.1 hsides.symm
    exact ⟨h, rfl⟩
  | cons s p ih =>
    obtain _ | ⟨t, q⟩ := q
    · cases hsides
    rw [List.map_cons, List.map_cons, List.cons.injEq] at hsides
    have hsub : {r | r ∈ branchPairs H (hashPair H (branchPair x s)) p ++
        branchPairs H (hashPair H (branchPair y t)) q} ⊆
        {r | r ∈ branchPairs H x (s :: p) ++ branchPairs H y (t :: q)} := by
      intro r hr
      simp only [Set.mem_ofPred_eq, branchPairs, List.mem_append, List.mem_cons] at hr ⊢
      tauto
    obtain ⟨hnode, rfl⟩ := ih hsides.2 (hinj.mono hsub) h
    have hpair := hinj (by simp [branchPairs]) (by simp [branchPairs]) hnode
    obtain ⟨rfl, rfl⟩ := branchPair_injective hsides.1 hpair
    exact ⟨rfl, rfl⟩

/-! ## Trees -/

/-- The number of nodes at height `h` over `n` leaves. -/
def width (n h : ℕ) : ℕ := (n + 2 ^ h - 1) / 2 ^ h

theorem lt_width_iff {n h pos : ℕ} : pos < width n h ↔ pos * 2 ^ h < n := by
  have hpow := Nat.two_pow_pos h
  rw [width, ← Nat.succ_le_iff, Nat.le_div_iff_mul_le hpow, Nat.succ_mul]
  omega

theorem left_lt {n h pos : ℕ} (hpos : pos * 2 ^ (h + 1) < n) : pos * 2 * 2 ^ h < n := by
  rwa [Nat.mul_assoc, ← Nat.pow_succ']

theorem width_zero (n : ℕ) : width n 0 = n := by
  simp [width]

theorem width_succ (n h : ℕ) : width n (h + 1) = (width n h + 1) / 2 := by
  apply eq_of_forall_lt_iff
  intro pos
  have hchild : pos < width n (h + 1) ↔ pos * 2 < width n h := by
    rw [lt_width_iff, lt_width_iff, Nat.mul_assoc, ← Nat.pow_succ']
  rw [hchild]
  omega

/-- The height of the root over `n` leaves. -/
def height (n : ℕ) : ℕ := Nat.clog 2 n

theorem lt_height_iff {n h : ℕ} : h < height n ↔ 1 < width n h := by
  rw [lt_width_iff, Nat.one_mul, height, Nat.lt_clog_iff_pow_lt (by decide)]

theorem le_two_pow_height (n : ℕ) : n ≤ 2 ^ height n := Nat.le_pow_clog (by decide) n

variable (n : ℕ) (f : ℕ → α)

/-- The node at height `h` and position `pos`; the leaves are the values of `f`. -/
def nodeAt : ℕ → ℕ → α
  | 0, pos => f pos
  | h + 1, pos =>
    let left := nodeAt h (pos * 2)
    let right := if pos * 2 + 1 < width n h then nodeAt h (pos * 2 + 1) else left
    hashPair H (left, right)

/-- The children of a node. -/
def children (h pos : ℕ) : α × α :=
  (nodeAt H n f h (pos * 2),
    if pos * 2 + 1 < width n h then nodeAt H n f h (pos * 2 + 1) else nodeAt H n f h (pos * 2))

theorem nodeAt_succ (h pos : ℕ) : nodeAt H n f (h + 1) pos = hashPair H (children H n f h pos) := rfl

/-- The pairs that are hashed in the levels above the leaves, up to height `top`. -/
def treePairs (top : ℕ) : List (α × α) :=
  (List.range top).flatMap fun h => (List.range (width n (h + 1))).map (children H n f h)

variable {H n f}

theorem mem_treePairs {top h pos : ℕ} (hh : h < top) (hpos : pos * 2 ^ (h + 1) < n) :
    children H n f h pos ∈ treePairs H n f top := by
  unfold treePairs
  rw [List.mem_flatMap]
  refine ⟨h, List.mem_range.mpr hh, List.mem_map_of_mem ?_⟩
  exact List.mem_range.mpr (lt_width_iff.mpr hpos)

/-- Different leaves make all nodes of a level different. -/
theorem nodeAt_injective {top : ℕ} (hinj : Set.InjOn (hashPair H) {q | q ∈ treePairs H n f top})
    (hf : Set.InjOn f {i | i < n}) {h : ℕ} (hh : h ≤ top) {i j : ℕ} (hi : i * 2 ^ h < n)
    (hj : j * 2 ^ h < n) (hij : nodeAt H n f h i = nodeAt H n f h j) : i = j := by
  induction h generalizing i j with
  | zero =>
    rw [Nat.pow_zero, Nat.mul_one] at hi hj
    exact hf hi hj hij
  | succ h ih =>
    have hpair := hinj (mem_treePairs hh hi) (mem_treePairs hh hj) hij
    have hleft : nodeAt H n f h (i * 2) = nodeAt H n f h (j * 2) := congrArg Prod.fst hpair
    have := ih (by omega) (left_lt hi) (left_lt hj) hleft
    omega

/-! ### Level by level -/

variable (H) in
/-- The next level: neighbours are paired, and the last node of an odd level with itself. -/
def pairUp : List α → List α
  | [] => []
  | [x] => [hashPair H (x, x)]
  | x :: y :: xs => hashPair H (x, y) :: pairUp xs

theorem length_pairUp (xs : List α) : (pairUp H xs).length = (xs.length + 1) / 2 := by
  induction xs using pairUp.induct with
  | case1 => simp [pairUp]
  | case2 x => simp [pairUp]
  | case3 x y xs ih =>
    rw [pairUp, List.length_cons, ih]
    simp only [List.length_cons]
    omega

theorem length_pairUp_lt (x y : α) (xs : List α) :
    (pairUp H (x :: y :: xs)).length < (x :: y :: xs).length := by
  rw [length_pairUp]
  simp only [List.length_cons]
  omega

variable (H) in
/-- The node that is left when levels are paired until there is one. -/
def rootOf : List α → Option α
  | [] => none
  | [x] => some x
  | x :: y :: xs => rootOf (pairUp H (x :: y :: xs))
termination_by xs => xs.length
decreasing_by exact length_pairUp_lt x y xs

theorem pairUp_map_range (g : ℕ → α) (w : ℕ) :
    pairUp H ((List.range w).map g) = (List.range ((w + 1) / 2)).map fun i =>
      hashPair H (g (i * 2), if i * 2 + 1 < w then g (i * 2 + 1) else g (i * 2)) := by
  induction w using Nat.twoStepInduction generalizing g with
  | zero => rfl
  | one => rfl
  | more w ih _ =>
    have hhalf : (w + 2 + 1) / 2 = (w + 1) / 2 + 1 := by omega
    have hshift : pairUp H ((List.range (w + 2)).map g) =
        hashPair H (g 0, g 1) :: pairUp H ((List.range w).map fun i => g (i + 2)) := by
      rw [List.range_succ_eq_map, List.range_succ_eq_map]
      simp [pairUp, Function.comp_def]
    rw [hshift, ih, hhalf, List.range_succ_eq_map, List.map_cons, List.map_map]
    congr 1
    apply List.map_congr_left
    intro i hi
    have hlt : i.succ * 2 + 1 < w + 2 ↔ i * 2 + 1 < w := by omega
    simp only [Function.comp_apply, hlt]
    rw [Nat.succ_mul]

variable (H n f) in
/-- The nodes at height `h`. -/
def level (h : ℕ) : List α := (List.range (width n h)).map (nodeAt H n f h)

theorem pairUp_level (h : ℕ) : pairUp H (level H n f h) = level H n f (h + 1) := by
  rw [level, pairUp_map_range, level, width_succ]
  rfl

theorem rootOf_level (hn : 0 < n) {h : ℕ} (hh : h ≤ height n) :
    rootOf H (level H n f h) = some (nodeAt H n f (height n) 0) := by
  obtain ⟨k, hk⟩ := Nat.exists_eq_add_of_le hh
  induction k generalizing h with
  | zero =>
    have hwidth : width n h = 1 := by
      have hpos : 0 < width n h := lt_width_iff.mpr (by omega)
      have htop := mt lt_height_iff.mpr (by omega : ¬ h < height n)
      omega
    rw [level, hwidth, hk, Nat.add_zero]
    simp [rootOf]
  | succ k ih =>
    have hwidth : 1 < width n h := lt_height_iff.mp (by omega)
    obtain ⟨w, hw⟩ := Nat.exists_eq_add_of_le hwidth
    have hnext := ih (h := h + 1) (by omega) (by omega)
    rw [← pairUp_level] at hnext
    have hlong : ∃ x y xs, level H n f h = x :: y :: xs := by
      rw [level, hw, Nat.add_comm, List.range_succ_eq_map, List.range_succ_eq_map]
      exact ⟨_, _, _, rfl⟩
    obtain ⟨x, y, xs, hxs⟩ := hlong
    rw [hxs] at hnext ⊢
    rw [rootOf, hnext]

/-! ### Paths -/

variable (H n f) in
/-- The node beside the one at height `h` and position `pos`, which is the node itself if it is the
last one of an odd level. -/
def sibling (h pos : ℕ) : α :=
  if pos % 2 = 1 then nodeAt H n f h (pos - 1)
  else if pos + 1 < width n h then nodeAt H n f h (pos + 1) else nodeAt H n f h pos

variable (H n f) in
/-- The siblings on the way up from a leaf, up to height `top`. -/
def siblings (i top : ℕ) : List (Bool × α) :=
  (List.range top).map fun h => (i / 2 ^ h % 2 == 1, sibling H n f h (i / 2 ^ h))

theorem foldBranch_concat (x : α) (path : List (Bool × α)) (s : Bool × α) :
    foldBranch H x (path ++ [s]) = hashPair H (branchPair (foldBranch H x path) s) := by
  induction path generalizing x with
  | nil => rfl
  | cons t path ih => exact ih _

/-- A node and its sibling are the children of the node above. -/
theorem branchPair_sibling {h pos : ℕ} (hpos : pos < width n h) :
    branchPair (nodeAt H n f h pos) (pos % 2 == 1, sibling H n f h pos) =
      children H n f h (pos / 2) := by
  rw [branchPair, sibling, children]
  by_cases hodd : pos % 2 = 1
  · have hright : pos / 2 * 2 + 1 = pos := by omega
    have hleft : pos / 2 * 2 = pos - 1 := by omega
    rw [hright, hleft, if_pos hpos, hodd]
    simp
  · have hleft : pos / 2 * 2 = pos := by omega
    rw [hleft]
    simp [hodd]

/-- The siblings on the way up from a leaf lead to the node above it. -/
theorem foldBranch_siblings {i : ℕ} (hi : i < n) (top : ℕ) :
    foldBranch H (f i) (siblings H n f i top) = nodeAt H n f top (i / 2 ^ top) := by
  induction top with
  | zero => simp [siblings, foldBranch, nodeAt]
  | succ top ih =>
    have hpos : i / 2 ^ top < width n top :=
      lt_width_iff.mpr (Nat.lt_of_le_of_lt (Nat.div_mul_le_self i _) hi)
    rw [siblings, List.range_succ, List.map_append, List.map_singleton, foldBranch_concat,
      ← siblings, ih, branchPair_sibling hpos, ← nodeAt_succ, Nat.div_div_eq_div_mul,
      ← Nat.pow_succ]

/-- The leaves below a node. -/
def leaves (n h pos : ℕ) : List ℕ := (List.range' (pos * 2 ^ h) (2 ^ h)).filter (· < n)

theorem leaves_zero {n pos : ℕ} (hpos : pos < n) : leaves n 0 pos = [pos] := by
  simp [leaves, hpos]

theorem leaves_succ (n h pos : ℕ) :
    leaves n (h + 1) pos = leaves n h (pos * 2) ++ leaves n h (pos * 2 + 1) := by
  unfold leaves
  rw [← List.filter_append]
  have hleft : pos * 2 * 2 ^ h = pos * 2 ^ (h + 1) := by rw [Nat.mul_assoc, ← Nat.pow_succ']
  have hright : (pos * 2 + 1) * 2 ^ h = pos * 2 ^ (h + 1) + 1 * 2 ^ h := by rw [Nat.add_mul, hleft]
  rw [hleft, hright, Nat.one_mul, List.range'_append_1, ← Nat.two_mul, ← Nat.pow_succ']

theorem leaves_eq_nil {n h pos : ℕ} (hpos : n ≤ pos * 2 ^ h) : leaves n h pos = [] := by
  unfold leaves
  rw [List.filter_eq_nil_iff]
  intro i hi
  rw [List.mem_range'_1] at hi
  simp only [decide_eq_true_eq]
  omega

theorem leaves_top {n h : ℕ} (hn : n ≤ 2 ^ h) : leaves n h 0 = List.range n := by
  obtain ⟨k, hk⟩ := Nat.exists_eq_add_of_le hn
  unfold leaves
  rw [Nat.zero_mul, hk, ← List.range'_append_1, List.filter_append, ← List.range_eq_range',
    List.filter_eq_self.mpr, List.filter_eq_nil_iff.mpr, List.append_nil]
  · intro i hi
    rw [List.mem_range'_1] at hi
    simp only [decide_eq_true_eq]
    omega
  · intro i hi
    simpa using hi

theorem mem_leaves {n h pos i : ℕ} :
    i ∈ leaves n h pos ↔ pos * 2 ^ h ≤ i ∧ i < pos * 2 ^ h + 2 ^ h ∧ i < n := by
  simp only [leaves, List.mem_filter, List.mem_range'_1, decide_eq_true_eq, and_assoc]

/-! ## Partial trees -/

/-- A tree of a given height that keeps the hash of a part in place of the part. -/
inductive PartialTree (α : Type) : ℕ → Type where
  | leaf (x : α) (found : Bool) : PartialTree α 0
  | pruned {h : ℕ} (x : α) : PartialTree α (h + 1)
  | one {h : ℕ} (child : PartialTree α h) : PartialTree α (h + 1)
  | two {h : ℕ} (left right : PartialTree α h) : PartialTree α (h + 1)

namespace PartialTree

variable (H n f)

def root : {h : ℕ} → PartialTree α h → α
  | _, leaf x _ => x
  | _, pruned x => x
  | _, one t => hashPair H (t.root, t.root)
  | _, two l r => hashPair H (l.root, r.root)

/-- The pairs that are hashed to compute the root. -/
def pairs : {h : ℕ} → PartialTree α h → List (α × α)
  | _, leaf _ _ => []
  | _, pruned _ => []
  | _, one t => (t.root H, t.root H) :: t.pairs
  | _, two l r => (l.root H, r.root H) :: (l.pairs ++ r.pairs)

/-- Which parts are kept, in depth-first order. -/
def bits : {h : ℕ} → PartialTree α h → List Bool
  | _, leaf _ found => [found]
  | _, pruned _ => [false]
  | _, one t => true :: t.bits
  | _, two l r => true :: (l.bits ++ r.bits)

/-- The hashes that stand for leaves and parts cut off, in depth-first order. -/
def hashes : {h : ℕ} → PartialTree α h → List α
  | _, leaf x _ => [x]
  | _, pruned x => [x]
  | _, one t => t.hashes
  | _, two l r => l.hashes ++ r.hashes

/-- The leaves that are marked, with their positions. -/
def found : {h : ℕ} → PartialTree α h → ℕ → List (ℕ × α)
  | _, leaf x found, pos => if found then [(pos, x)] else []
  | _, pruned _, _ => []
  | _, one t, pos => t.found (pos * 2)
  | _, two l r, pos => l.found (pos * 2) ++ r.found (pos * 2 + 1)

/-- A node has two children exactly if there are leaves below the second one. -/
def Shape : {h : ℕ} → PartialTree α h → ℕ → Prop
  | _, leaf _ _, _ => True
  | _, pruned _, _ => True
  | h + 1, one t, pos => ¬ pos * 2 + 1 < width n h ∧ t.Shape (pos * 2)
  | h + 1, two l r, pos => pos * 2 + 1 < width n h ∧ l.Shape (pos * 2) ∧ r.Shape (pos * 2 + 1)

/-- No node has two equal children. -/
def Distinct : {h : ℕ} → PartialTree α h → Prop
  | _, leaf _ _ => True
  | _, pruned _ => True
  | _, one t => t.Distinct
  | _, two l r => r.root H ≠ l.root H ∧ l.Distinct ∧ r.Distinct

variable {H n f}

theorem found_mem {h : ℕ} {t : PartialTree α h} {pos : ℕ} (hshape : t.Shape n pos)
    (hpos : pos * 2 ^ h < n) {p : ℕ × α} (hp : p ∈ t.found pos) : p.1 ∈ leaves n h pos := by
  induction t generalizing pos with
  | leaf x b =>
    rw [Nat.pow_zero, Nat.mul_one] at hpos
    cases b with
    | false => cases hp
    | true =>
      obtain rfl := List.mem_singleton.mp hp
      rw [leaves_zero hpos]
      exact List.mem_singleton_self pos
  | pruned x => cases hp
  | one t ih =>
    rw [leaves_succ, List.mem_append]
    exact Or.inl (ih hshape.2 (left_lt hpos) hp)
  | two l r ihl ihr =>
    rw [leaves_succ, List.mem_append]
    rcases List.mem_append.mp hp with hl | hr
    · exact Or.inl (ihl hshape.2.1 (left_lt hpos) hl)
    · exact Or.inr (ihr hshape.2.2 (lt_width_iff.mp hshape.1) hr)

/-- Marked leaves are found from left to right. -/
theorem found_sorted {h : ℕ} {t : PartialTree α h} {pos : ℕ} (hshape : t.Shape n pos)
    (hpos : pos * 2 ^ h < n) : ((t.found pos).map Prod.fst).Pairwise (· < ·) := by
  induction t generalizing pos with
  | leaf x b => cases b <;> simp [found]
  | pruned x => simp [found]
  | one t ih => exact ih hshape.2 (left_lt hpos)
  | two l r ihl ihr =>
    have hright := lt_width_iff.mp hshape.1
    rw [found, List.map_append, List.pairwise_append]
    refine ⟨ihl hshape.2.1 (left_lt hpos), ihr hshape.2.2 hright, ?_⟩
    intro i hi j hj
    obtain ⟨p, hp, rfl⟩ := List.mem_map.mp hi
    obtain ⟨q, hq, rfl⟩ := List.mem_map.mp hj
    have hp' := mem_leaves.mp (found_mem hshape.2.1 (left_lt hpos) hp)
    have hq' := mem_leaves.mp (found_mem hshape.2.2 hright hq)
    rw [Nat.add_mul, Nat.one_mul] at hq'
    omega

theorem injOn_mono {l l' tree : List (α × α)} (hsub : l' ⊆ l)
    (hinj : Set.InjOn (hashPair H) {q | q ∈ l ++ tree}) :
    Set.InjOn (hashPair H) {q | q ∈ l' ++ tree} := by
  apply hinj.mono
  intro q hq
  rcases List.mem_append.mp hq with hq | hq
  · exact List.mem_append_left _ (hsub hq)
  · exact List.mem_append_right _ hq

/-- A partial tree with the root of a tree has the leaves of the tree: walking down from the root,
injectivity forces the children of each node to be those of the tree. -/
theorem found_eq {top h : ℕ} {t : PartialTree α h} {pos : ℕ}
    (hinj : Set.InjOn (hashPair H) {q | q ∈ t.pairs H ++ treePairs H n f top})
    (hh : h ≤ top) (hshape : t.Shape n pos) (hpos : pos * 2 ^ h < n)
    (hroot : t.root H = nodeAt H n f h pos) {p : ℕ × α} (hp : p ∈ t.found pos) : p.2 = f p.1 := by
  induction t generalizing pos with
  | leaf x b =>
    cases b with
    | false => cases hp
    | true =>
      obtain rfl := List.mem_singleton.mp hp
      exact hroot
  | pruned x => cases hp
  | one t ih =>
    have htree := mem_treePairs (H := H) (f := f) hh hpos
    have hpair := hinj (by simp [pairs]) (List.mem_append_right _ htree) hroot
    have hsub : t.pairs H ⊆ (one t).pairs H := List.subset_cons_self _ _
    exact ih (injOn_mono hsub hinj) (by omega) hshape.2 (left_lt hpos) (congrArg Prod.fst hpair) hp
  | @two h l r ihl ihr =>
    have htree := mem_treePairs (H := H) (f := f) hh hpos
    have hpair := hinj (by simp [pairs]) (List.mem_append_right _ htree) hroot
    rcases List.mem_append.mp hp with hl | hr
    · have hsub : l.pairs H ⊆ (two l r).pairs H :=
        List.subset_cons_of_subset _ (List.subset_append_left _ _)
      exact ihl (injOn_mono hsub hinj) (by omega) hshape.2.1 (left_lt hpos)
        (congrArg Prod.fst hpair) hl
    · have hsub : r.pairs H ⊆ (two l r).pairs H :=
        List.subset_cons_of_subset _ (List.subset_append_right _ _)
      have hright : r.root H = nodeAt H n f h (pos * 2 + 1) := by
        have hsnd := congrArg Prod.snd hpair
        rw [children] at hsnd
        simpa only [if_pos hshape.1] using hsnd
      exact ihr (injOn_mono hsub hinj) (by omega) hshape.2.2 (lt_width_iff.mp hshape.1) hright hr

/-! ### Reading a partial tree -/

variable (n)

/-- Rebuild the partial tree below a node from its bits and hashes. -/
def read : (h : ℕ) → ℕ → List Bool → List α → Option (PartialTree α h × List Bool × List α)
  | 0, _, b :: bs, x :: xs => some (leaf x b, bs, xs)
  | _ + 1, _, false :: bs, x :: xs => some (pruned x, bs, xs)
  | h + 1, pos, true :: bs, xs => do
    let (l, bs, xs) ← read h (pos * 2) bs xs
    if pos * 2 + 1 < width n h then
      let (r, bs, xs) ← read h (pos * 2 + 1) bs xs
      return (two l r, bs, xs)
    else return (one l, bs, xs)
  | _, _, _, _ => none

variable {n}

/-- What is read has the right shape, and is what was consumed. -/
theorem read_spec {h pos : ℕ} {bs bs' : List Bool} {xs xs' : List α} {t : PartialTree α h}
    (hread : read n h pos bs xs = some (t, bs', xs')) :
    t.Shape n pos ∧ bs = t.bits ++ bs' ∧ xs = t.hashes ++ xs' := by
  induction h generalizing pos bs bs' xs xs' with
  | zero =>
    match bs, xs with
    | b :: bs, x :: xs =>
      cases hread
      exact ⟨trivial, rfl, rfl⟩
    | [], _ => cases hread
    | _ :: _, [] => cases hread
  | succ h ih =>
    match bs, xs with
    | false :: bs, x :: xs =>
      cases hread
      exact ⟨trivial, rfl, rfl⟩
    | true :: bs, xs =>
      rw [read, Option.bind_eq_bind, Option.bind_eq_some_iff] at hread
      obtain ⟨⟨l, bs₁, xs₁⟩, hl, hread⟩ := hread
      obtain ⟨hshape, rfl, rfl⟩ := ih hl
      by_cases hw : pos * 2 + 1 < width n h
      · simp only [if_pos hw] at hread
        rw [Option.bind_eq_some_iff] at hread
        obtain ⟨⟨r, bs₂, xs₂⟩, hr, hread⟩ := hread
        obtain ⟨hshape', rfl, rfl⟩ := ih hr
        cases hread
        exact ⟨⟨hw, hshape, hshape'⟩, by simp [bits], by simp [hashes]⟩
      · simp only [if_neg hw] at hread
        cases hread
        exact ⟨⟨hw, hshape⟩, by simp [bits], by simp [hashes]⟩
    | [], _ => cases hread
    | false :: _, [] => cases hread

/-! ### The partial tree of a set of leaves -/

variable (H n f) (m : ℕ → Bool)

/-- The tree with every part cut off that has no marked leaf. -/
def prune : (h : ℕ) → ℕ → PartialTree α h
  | 0, pos => leaf (f pos) (m pos)
  | h + 1, pos =>
    if (leaves n (h + 1) pos).any m then
      if pos * 2 + 1 < width n h then two (prune h (pos * 2)) (prune h (pos * 2 + 1))
      else one (prune h (pos * 2))
    else pruned (nodeAt H n f (h + 1) pos)

variable {H n f m}

/-- The cases of `prune` above the leaves. -/
theorem prune_cases (h pos : ℕ) :
    ((leaves n (h + 1) pos).any m = false ∧
      prune H n f m (h + 1) pos = pruned (nodeAt H n f (h + 1) pos)) ∨
    ((leaves n (h + 1) pos).any m = true ∧ pos * 2 + 1 < width n h ∧
      prune H n f m (h + 1) pos =
        two (prune H n f m h (pos * 2)) (prune H n f m h (pos * 2 + 1))) ∨
    ((leaves n (h + 1) pos).any m = true ∧ ¬ pos * 2 + 1 < width n h ∧
      prune H n f m (h + 1) pos = one (prune H n f m h (pos * 2))) := by
  rw [prune]
  cases hany : (leaves n (h + 1) pos).any m with
  | false => exact Or.inl ⟨rfl, if_neg Bool.false_ne_true⟩
  | true =>
    by_cases hw : pos * 2 + 1 < width n h
    · exact Or.inr (Or.inl ⟨rfl, hw, by rw [if_pos rfl, if_pos hw]⟩)
    · exact Or.inr (Or.inr ⟨rfl, hw, by rw [if_pos rfl, if_neg hw]⟩)

theorem root_prune (h pos : ℕ) : (prune H n f m h pos).root H = nodeAt H n f h pos := by
  induction h generalizing pos with
  | zero => rfl
  | succ h ih =>
    rcases prune_cases (H := H) (n := n) (f := f) (m := m) h pos with
      ⟨-, heq⟩ | ⟨-, hw, heq⟩ | ⟨-, hw, heq⟩
    · rw [heq, root]
    · rw [heq, root, ih, ih, nodeAt_succ, children, if_pos hw]
    · rw [heq, root, ih, nodeAt_succ, children, if_neg hw]

theorem shape_prune (h pos : ℕ) : (prune H n f m h pos).Shape n pos := by
  induction h generalizing pos with
  | zero => trivial
  | succ h ih =>
    rcases prune_cases (H := H) (n := n) (f := f) (m := m) h pos with
      ⟨-, heq⟩ | ⟨-, hw, heq⟩ | ⟨-, hw, heq⟩
    · rw [heq]
      trivial
    · rw [heq]
      exact ⟨hw, ih _, ih _⟩
    · rw [heq]
      exact ⟨hw, ih _⟩

theorem distinct_prune {top : ℕ} (hinj : Set.InjOn (hashPair H) {q | q ∈ treePairs H n f top})
    (hf : Set.InjOn f {i | i < n}) {h pos : ℕ} (hh : h ≤ top) (hpos : pos * 2 ^ h < n) :
    (prune H n f m h pos).Distinct H := by
  induction h generalizing pos with
  | zero => trivial
  | succ h ih =>
    rcases prune_cases (H := H) (n := n) (f := f) (m := m) h pos with
      ⟨-, heq⟩ | ⟨-, hw, heq⟩ | ⟨-, hw, heq⟩
    · rw [heq]
      trivial
    · have hright := lt_width_iff.mp hw
      rw [heq]
      refine ⟨?_, ih (by omega) (left_lt hpos), ih (by omega) hright⟩
      rw [root_prune, root_prune]
      intro heq'
      have := nodeAt_injective hinj hf (by omega) hright (left_lt hpos) heq'
      omega
    · rw [heq]
      exact ih (by omega) (left_lt hpos)

theorem found_prune {h pos : ℕ} (hpos : pos * 2 ^ h < n) :
    (prune H n f m h pos).found pos = ((leaves n h pos).filter m).map fun i => (i, f i) := by
  induction h generalizing pos with
  | zero =>
    rw [Nat.pow_zero, Nat.mul_one] at hpos
    rw [leaves_zero hpos, prune, found]
    cases hm : m pos <;> simp [hm]
  | succ h ih =>
    rcases prune_cases (H := H) (n := n) (f := f) (m := m) h pos with
      ⟨hany, heq⟩ | ⟨-, hw, heq⟩ | ⟨-, hw, heq⟩
    · have hnone : (leaves n (h + 1) pos).filter m = [] := by
        rw [List.filter_eq_nil_iff]
        simpa using hany
      rw [heq, hnone]
      rfl
    · rw [heq, found, ih (left_lt hpos), ih (lt_width_iff.mp hw), leaves_succ, List.filter_append,
        List.map_append]
    · have hnil := leaves_eq_nil (Nat.le_of_not_lt (mt lt_width_iff.mpr hw))
      rw [heq, found, ih (left_lt hpos), leaves_succ, hnil, List.append_nil]

theorem leaves_pos {n h pos : ℕ} (hpos : pos * 2 ^ h < n) : 0 < (leaves n h pos).length := by
  apply List.length_pos_of_mem (a := pos * 2 ^ h)
  exact mem_leaves.mpr ⟨le_rfl, Nat.lt_add_of_pos_right (Nat.two_pow_pos h), hpos⟩

theorem length_hashes_le_bits {h : ℕ} (t : PartialTree α h) : t.hashes.length ≤ t.bits.length := by
  induction t with
  | leaf x b => exact le_rfl
  | pruned x => exact le_rfl
  | one t ih =>
    rw [hashes, bits, List.length_cons]
    omega
  | two l r ihl ihr =>
    rw [hashes, bits, List.length_cons, List.length_append, List.length_append]
    omega

theorem length_prune {h pos : ℕ} (hpos : pos * 2 ^ h < n) :
    (prune H n f m h pos).hashes.length ≤ (leaves n h pos).length ∧
      (prune H n f m h pos).bits.length ≤ (h + 1) * (leaves n h pos).length := by
  induction h generalizing pos with
  | zero =>
    have hlen := leaves_pos hpos
    simp only [prune, hashes, bits, List.length_singleton]
    omega
  | succ h ih =>
    have hlen := leaves_pos hpos
    rcases prune_cases (H := H) (n := n) (f := f) (m := m) h pos with
      ⟨-, heq⟩ | ⟨-, hw, heq⟩ | ⟨-, hw, heq⟩
    · rw [heq]
      refine ⟨hlen, ?_⟩
      exact Nat.le_trans hlen (Nat.le_mul_of_pos_left _ (Nat.succ_pos _))
    · obtain ⟨hl, hl'⟩ := ih (left_lt hpos)
      obtain ⟨hr, hr'⟩ := ih (lt_width_iff.mp hw)
      rw [heq, hashes, bits, List.length_cons, List.length_append, List.length_append]
      rw [leaves_succ, List.length_append] at hlen ⊢
      refine ⟨by omega, ?_⟩
      rw [Nat.succ_mul (h + 1), Nat.mul_add]
      omega
    · obtain ⟨hl, hl'⟩ := ih (left_lt hpos)
      have hnil := leaves_eq_nil (Nat.le_of_not_lt (mt lt_width_iff.mpr hw))
      rw [heq, hashes, bits, List.length_cons]
      rw [leaves_succ, hnil, List.append_nil] at hlen ⊢
      refine ⟨hl, ?_⟩
      rw [Nat.succ_mul (h + 1)]
      omega

end PartialTree

end Merkle
