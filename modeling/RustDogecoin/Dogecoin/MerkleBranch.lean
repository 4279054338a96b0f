import RustDogecoin.Dogecoin.AuxPow
import RustDogecoin.MerkleTree.Block
import Mathlib.Data.Int.Bitwise

/-!
# Branches of a tree of transactions

`compute_merkle_root` folds a branch by the low bit of an index that it shifts, and the tree pairs
its nodes by position.  The siblings of a path, which is what a branch consists of, make both meet in
the root, for trees of every width; and no other leaf or branch does at the same index.
-/

namespace RustDogecoin

namespace Dogecoin

open Merkle MerkleTree

namespace AuxPow

/-- The branch of a leaf: the sibling of its path at each level of the tree. -/
def branchOf (txids : List Txid) (i : ℕ) : List TxMerkleNode :=
  (siblings Dogecoin.parentHash txids.length (leafOf txids) i (height txids.length)).map Prod.snd

theorem toInt_shiftRight_one (index : Int32) : (index >>> 1).toInt = index.toInt / 2 := by
  show (index.toBitVec.sshiftRight' ((1 : Int32).toBitVec.smod 32)).toInt = _
  have hone : ((1 : Int32).toBitVec.smod 32).toNat = 1 := by decide
  rw [BitVec.sshiftRight_eq', hone, BitVec.toInt_sshiftRight, Int.shiftRight_eq_div_pow]
  rfl

theorem and_one_eq_iff (index : Int32) : index &&& 1 = 1 ↔ index.toInt % 2 = 1 := by
  have hand : (index &&& 1).toBitVec.toNat = index.toBitVec.toNat % 2 := by
    show (index.toBitVec &&& 1#32).toNat = _
    rw [BitVec.toNat_and]
    exact Nat.and_one_is_mod _
  have hparity : index.toInt % 2 = (index.toBitVec.toNat % 2 : ℕ) := by
    rw [show index.toInt = index.toBitVec.toInt from rfl, BitVec.toInt_eq_toNat_cond]
    split_ifs <;> omega
  rw [← Int32.toBitVec_inj, ← BitVec.toNat_inj, hand, hparity]
  show index.toBitVec.toNat % 2 = 1 ↔ _
  omega

/-- An index that was shifted `k` times gives the sides of the path from level `k` on. -/
theorem branchPath_range' {i k m : ℕ} {index : Int32} (hindex : index.toInt = (i / 2 ^ k : ℕ))
    (s : ℕ → TxMerkleNode) :
    branchPath index ((List.range' k m).map s) =
      (List.range' k m).map fun h => (i / 2 ^ h % 2 == 1, s h) := by
  induction m generalizing k index with
  | zero => rfl
  | succ m ih =>
    have hnext : (index >>> 1).toInt = (i / 2 ^ (k + 1) : ℕ) := by
      rw [toInt_shiftRight_one, hindex, Nat.pow_succ, ← Nat.div_div_eq_div_mul]
      rfl
    have hside : decide (index &&& 1 = 1) = (i / 2 ^ k % 2 == 1) := by
      rw [Bool.eq_iff_iff, decide_eq_true_iff, beq_iff_eq, and_one_eq_iff, hindex]
      omega
    rw [List.range'_succ, List.map_cons, branchPath, ih hnext, List.map_cons, hside]

theorem branchPath_branchOf {txids : List Txid} {i : ℕ} {index : Int32} (hindex : index.toInt = i) :
    branchPath index (branchOf txids i) =
      siblings Dogecoin.parentHash txids.length (leafOf txids) i (height txids.length) := by
  have hzero : index.toInt = (i / 2 ^ 0 : ℕ) := by rw [Nat.pow_zero, Nat.div_one, hindex]
  rw [branchOf, siblings, List.map_map, List.range_eq_range']
  exact branchPath_range' hzero _

/-- The leaf at a position and the branch of that position have the root of the list. -/
theorem computeMerkleRoot_branchOf {txids : List Txid} {i : ℕ} {index : Int32}
    (hindex : index.toInt = i) (hi : i < txids.length) :
    computeMerkleRoot (leafOf txids i) (branchOf txids i) index =
      nodeAt Dogecoin.parentHash txids.length (leafOf txids) (height txids.length) 0 := by
  have htop : i / 2 ^ height txids.length = 0 :=
    Nat.div_eq_of_lt (Nat.lt_of_lt_of_le hi (le_two_pow_height _))
  rw [computeMerkleRoot_eq_foldBranch, branchPath_branchOf hindex, foldBranch_siblings hi, htop]

theorem map_snd_branchPath (index : Int32) (branch : List TxMerkleNode) :
    (branchPath index branch).map Prod.snd = branch := by
  induction branch generalizing index with
  | nil => rfl
  | cons b branch ih => rw [branchPath, List.map_cons, ih]

/-- A root binds the leaf and the branch at an index, as long as the pairs hashed on the two ways up
do not collide. -/
theorem computeMerkleRoot_injective {leaf leaf' : TxMerkleNode} {branch branch' : List TxMerkleNode}
    {index : Int32} (hlen : branch.length = branch'.length)
    (hinj : Set.InjOn (hashPair Dogecoin.parentHash)
      {q | q ∈ hashedPairs leaf branch index ++ hashedPairs leaf' branch' index})
    (h : computeMerkleRoot leaf branch index = computeMerkleRoot leaf' branch' index) :
    leaf = leaf' ∧ branch = branch' := by
  rw [computeMerkleRoot_eq_foldBranch, computeMerkleRoot_eq_foldBranch] at h
  obtain ⟨hleaf, hpath⟩ := foldBranch_injective _ (branchPath_sides hlen) hinj h
  refine ⟨hleaf, ?_⟩
  rw [← map_snd_branchPath index branch, hpath, map_snd_branchPath]

/-- The verifier of branches agrees with the tree of transactions at every position, and no two
branches of one length have the same root at the same index. -/
theorem branch_proves_exactly_its_leaf (txids : List Txid) (i : ℕ) (index : Int32)
    (hindex : index.toInt = i) (hi : i < txids.length) :
    (txids[i]? = some (leafOf txids i) ∧
      calculateRoot Dogecoin.parentHash txids =
        .ok (some (computeMerkleRoot (leafOf txids i) (branchOf txids i) index))) ∧
    ∀ (leaf leaf' : TxMerkleNode) (branch branch' : List TxMerkleNode) (index' : Int32),
      branch.length = branch'.length →
      Set.InjOn (hashPair Dogecoin.parentHash)
        {q | q ∈ hashedPairs leaf branch index' ++ hashedPairs leaf' branch' index'} →
      computeMerkleRoot leaf branch index' = computeMerkleRoot leaf' branch' index' →
      leaf = leaf' ∧ branch = branch' := by
  refine ⟨⟨getElem?_leafOf hi, ?_⟩, ?_⟩
  · rw [computeMerkleRoot_branchOf hindex hi]
    exact calculateRoot_eq (List.ne_nil_of_length_pos (Nat.zero_lt_of_lt hi))
  · intro leaf leaf' branch branch' index' hlen hinj hroot
    exact computeMerkleRoot_injective hlen hinj hroot

/-- The third of three transactions, which is its own sibling, and a branch of one node. -/
theorem branch_proves_exactly_its_leaf_three :
    (PartialMerkleTree.sampleTxids[2]? = some (leafOf PartialMerkleTree.sampleTxids 2) ∧
      calculateRoot Dogecoin.parentHash PartialMerkleTree.sampleTxids =
        .ok (some (computeMerkleRoot (leafOf PartialMerkleTree.sampleTxids 2)
          (branchOf PartialMerkleTree.sampleTxids 2) 2))) ∧
    (.replicate 32 1 : TxMerkleNode) = .replicate 32 1 ∧
      [(.replicate 32 2 : TxMerkleNode)] = [.replicate 32 2] := by
  have hthree := branch_proves_exactly_its_leaf PartialMerkleTree.sampleTxids 2 2 (by decide)
    (by decide)
  refine ⟨hthree.1, hthree.2 _ _ _ _ 0 rfl ?_ rfl⟩
  intro q hq r hr _
  have hpair : ∀ p ∈ hashedPairs (.replicate 32 1) [.replicate 32 2] 0 ++
      hashedPairs (.replicate 32 1) [.replicate 32 2] 0,
      p = (.replicate 32 1, .replicate 32 2) := by decide
  rw [hpair q hq, hpair r hr]

end AuxPow

end Dogecoin

end RustDogecoin
