import Mathlib.Data.Set.Function
import RustDogecoin.Lib.DepthFirst
import RustDogecoin.Lib.HashChain

/-!
# Proofs that a tree has a leaf

A tree of any shape is hashed with a function for its leaves and a symmetric one for its inner nodes.  A proof
for a leaf is the list of the siblings on its way to the root, nearest first, and to climb is to hash from a
leaf up along such a list.

Climbing along the proof of a leaf leads to the root (`climb_of_mem_proofs`).  Conversely, if nothing that is
hashed collides, what leads to the root is a leaf of the tree with its proof (`mem_proofs_of_climb`): the root
binds the whole tree, though neither its shape nor its depth can be read off it.
-/

namespace DepthFirst

namespace LeafTree

variable {α β : Type} (leaf : α → β) (branch : β → β → β)

/-- The hash of a tree. -/
def root : LeafTree α → β
  | .leaf a => leaf a
  | .node l r => branch l.root r.root

/-- The leaves with their proofs. -/
def proofs : LeafTree α → List (α × List β)
  | .leaf a => [(a, [])]
  | .node l r =>
    l.proofs.map (fun p => (p.1, p.2 ++ [r.root leaf branch])) ++
      r.proofs.map fun p => (p.1, p.2 ++ [l.root leaf branch])

/-- Hash from a node up, along its siblings. -/
def climb (x : β) (path : List β) : β := path.foldl branch x

/-- The pairs of hashes that are hashed for the inner nodes. -/
def pairs : LeafTree α → List (β × β)
  | .leaf _ => []
  | .node l r => (l.root leaf branch, r.root leaf branch) :: (l.pairs ++ r.pairs)

/-- The pairs of hashes that are hashed on the way up. -/
def climbPairs (x : β) (path : List β) : List (β × β) := HashChain.pairs branch x path

variable {leaf branch}

theorem climb_concat (x : β) (path : List β) (y : β) :
    climb branch x (path ++ [y]) = branch (climb branch x path) y := List.foldl_append

theorem climbPairs_concat (x : β) (path : List β) (y : β) :
    climbPairs branch x (path ++ [y]) = climbPairs branch x path ++ [(climb branch x path, y)] :=
  HashChain.pairs_concat x path y

theorem climb_of_mem_proofs (hcomm : ∀ x y, branch x y = branch y x) {t : LeafTree α} {p : α × List β}
    (h : p ∈ t.proofs leaf branch) : climb branch (leaf p.1) p.2 = t.root leaf branch := by
  induction t generalizing p with
  | leaf a =>
    obtain rfl := List.mem_singleton.1 h
    rfl
  | node l r ihl ihr =>
    rcases List.mem_append.1 h with hl | hr
    · obtain ⟨p, hp, rfl⟩ := List.mem_map.1 hl
      rw [climb_concat, ihl hp, root]
    · obtain ⟨p, hp, rfl⟩ := List.mem_map.1 hr
      rw [climb_concat, ihr hp, root, hcomm]

/-- Nothing collides: equal hashes of pairs come from the same pair, in either order, equal hashes of leaves from
the same leaf, and no hash of a leaf is one of a pair. -/
structure CollisionFree (leaf : α → β) (branch : β → β → β) (as : Set α) (qs : Set (β × β)) : Prop where
  injOn : as.InjOn leaf
  pair : ∀ p ∈ qs, ∀ q ∈ qs, branch p.1 p.2 = branch q.1 q.2 → p = q ∨ p = q.swap
  leaf_ne_pair : ∀ a ∈ as, ∀ q ∈ qs, leaf a ≠ branch q.1 q.2

theorem CollisionFree.mono {as as' : Set α} {qs qs' : Set (β × β)} (h : CollisionFree leaf branch as qs)
    (has : as' ⊆ as) (hqs : qs' ⊆ qs) : CollisionFree leaf branch as' qs' where
  injOn := h.injOn.mono has
  pair p hp q hq := h.pair p (hqs hp) q (hqs hq)
  leaf_ne_pair a ha q hq := h.leaf_ne_pair a (has ha) q (hqs hq)

/-- What leads to the root is a leaf of the tree, and the way there is its proof. -/
theorem mem_proofs_of_climb {t : LeafTree α} {a : α} {path : List β}
    (hfree : CollisionFree leaf branch {b | b = a ∨ b ∈ t.leaves}
      {q | q ∈ climbPairs branch (leaf a) path ∨ q ∈ t.pairs leaf branch})
    (h : climb branch (leaf a) path = t.root leaf branch) : (a, path) ∈ t.proofs leaf branch := by
  induction t generalizing path with
  | leaf b =>
    rcases List.eq_nil_or_concat path with rfl | ⟨path, y, rfl⟩
    · obtain rfl := hfree.injOn (Or.inl rfl) (Or.inr (List.mem_singleton_self b)) h
      exact List.mem_singleton_self _
    · rw [List.concat_eq_append, climb_concat] at h
      refine absurd h.symm (hfree.leaf_ne_pair b (Or.inr (List.mem_singleton_self b))
        (climb branch (leaf a) path, y) (Or.inl ?_))
      simp [climbPairs_concat]
  | node l r ihl ihr =>
    rcases List.eq_nil_or_concat path with rfl | ⟨path, y, rfl⟩
    · exact absurd h (hfree.leaf_ne_pair a (Or.inl rfl) (_, _) (Or.inr List.mem_cons_self))
    · rw [List.concat_eq_append] at hfree h ⊢
      rw [climb_concat] at h
      have hmem : (climb branch (leaf a) path, y) ∈ climbPairs branch (leaf a) (path ++ [y]) := by
        simp [climbPairs_concat]
      have hpath : climbPairs branch (leaf a) path ⊆ climbPairs branch (leaf a) (path ++ [y]) := by
        rw [climbPairs_concat]
        exact List.subset_append_left _ _
      have hleaves : (node l r).leaves = l.leaves ++ r.leaves := leaves_node l r
      have hleft : CollisionFree leaf branch {b | b = a ∨ b ∈ l.leaves}
          {q | q ∈ climbPairs branch (leaf a) path ∨ q ∈ l.pairs leaf branch} :=
        hfree.mono (fun b hb => hb.imp_right (hleaves ▸ List.mem_append_left _)) fun q hq =>
          hq.imp (fun hq => hpath hq) fun hq => List.mem_cons_of_mem _ (List.mem_append_left _ hq)
      have hright : CollisionFree leaf branch {b | b = a ∨ b ∈ r.leaves}
          {q | q ∈ climbPairs branch (leaf a) path ∨ q ∈ r.pairs leaf branch} :=
        hfree.mono (fun b hb => hb.imp_right (hleaves ▸ List.mem_append_right _)) fun q hq =>
          hq.imp (fun hq => hpath hq) fun hq => List.mem_cons_of_mem _ (List.mem_append_right _ hq)
      -- the last step comes from one of the two children
      rcases hfree.pair _ (Or.inl hmem) _ (Or.inr List.mem_cons_self) h with heq | heq
      · obtain ⟨hl, rfl⟩ := Prod.mk.inj heq
        exact List.mem_append_left _ (List.mem_map.2 ⟨_, ihl hleft hl, rfl⟩)
      · obtain ⟨hr, rfl⟩ := Prod.mk.inj heq
        exact List.mem_append_right _ (List.mem_map.2 ⟨_, ihr hright hr, rfl⟩)

end LeafTree

end DepthFirst
