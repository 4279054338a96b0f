import RustDogecoin.MerkleTree.Block

/-!
# The top of the tree

`calc_hash` goes down from the top of the tree by position and arrives at the same root as the two
functions that go up from the leaves.  The widths that it compares positions with are computed in 32
bits from the number of transactions and the size of a subtree together, so that it panics from
`2 ^ 31` transactions on.
-/

namespace RustDogecoin

open Merkle MerkleTree

namespace PartialMerkleTree

/-- The hash at the top height and position 0 of a partial merkle tree over the transactions. -/
def topHash (txids : List Txid) : Outcome Empty TxMerkleNode := do
  let numTransactions := (UInt32.ofNat txids.length).toNat
  let height ← calcTreeHeight numTransactions
  calcHash numTransactions txids height 0

section

variable {ε : Type} {n : ℕ}

theorem calcTreeWidth_panics {h : ℕ} (hn : 2 ^ 32 ≤ n + 2 ^ h) :
    (calcTreeWidth n h : Outcome ε ℕ) = .panic .overflow := by
  unfold calcTreeWidth
  by_cases hh : h < 32
  · have hsum : (checkedU32 (n + 1 <<< h) : Outcome ε ℕ) = .panic .overflow := by
      rw [checkedU32, Outcome.require, if_neg (by rw [Nat.one_shiftLeft]; omega)]
      rfl
    rw [Outcome.require_of hh, Outcome.ok_bind, hsum]
    rfl
  · rw [Outcome.require, if_neg hh]
    rfl

theorem calcTreeHeightLoop_panics (hn : 2 ^ 31 ≤ n) {k h : ℕ} (hk : k + h = 32) :
    (calcTreeHeightLoop n k h : Outcome ε ℕ) = .panic .overflow := by
  induction k generalizing h with
  | zero => rfl
  | succ k ih =>
    rw [calcTreeHeightLoop]
    by_cases hsum : 2 ^ 32 ≤ n + 2 ^ h
    · rw [calcTreeWidth_panics hsum]
      rfl
    · have hwide : 1 < width n h := lt_width_iff.mpr (by omega)
      rw [calcTreeWidth_of (by omega) (by omega), Outcome.ok_bind, if_pos hwide]
      exact ih (by omega)

end

theorem topHash_of_counted {txids : List Txid} {n : ℕ}
    (hnum : (UInt32.ofNat txids.length).toNat = n) (hpos : 0 < n) (hn : n < 2 ^ 31) :
    topHash txids = .ok (nodeAt parentHash n (leafOf txids) (height n) 0) := by
  have hle : n ≤ txids.length := hnum ▸ Nat.mod_le _ _
  unfold topHash
  dsimp only
  rw [hnum, calcTreeHeight_of hn, Outcome.ok_bind,
    calcHash_eq hn hle le_rfl (by rwa [Nat.zero_mul])]

theorem topHash_panics {txids : List Txid} (hn : 2 ^ 31 ≤ txids.length % 2 ^ 32) :
    topHash txids = .panic .overflow := by
  unfold topHash
  dsimp only
  rw [calcTreeHeight, UInt32.toNat_ofNat', calcTreeHeightLoop_panics hn rfl]
  rfl

/-- All computations of the root of these transactions return the same. -/
def RootsAgree (txids : List Txid) : Prop :=
  ∃ root, topHash txids = .ok root ∧ rootOf parentHash txids = some root ∧
    calculateRoot parentHash txids = .ok (some root) ∧
    calculateRootInline parentHash txids = .ok (some root)

/-- The functions over lists compute what is left when neighbours are paired up, whatever is hashed
and however.  The walk from the top computes it over fewer than `2 ^ 31` transactions; if their
number has its highest bit of 32 set, it panics. -/
theorem roots_agree_iff {α : Type} (H : α → α → α) (hashes : List α) (hhashes : hashes ≠ [])
    (txids : List Txid) (htxids : txids ≠ []) :
    (∃ root, rootOf H hashes = some root ∧ calculateRoot H hashes = .ok (some root) ∧
      calculateRootInline H hashes = .ok (some root)) ∧
    (txids.length < 2 ^ 31 → RootsAgree txids) ∧
    (2 ^ 31 ≤ txids.length % 2 ^ 32 → ¬ RootsAgree txids) := by
  have : Inhabited α := ⟨hashes.head hhashes⟩
  refine ⟨⟨_, rootOf_eq hhashes, calculateRoot_eq hhashes, calculateRootInline_eq hhashes⟩, ?_, ?_⟩
  · intro hlt
    have hnum : (UInt32.ofNat txids.length).toNat = txids.length :=
      UInt32.toNat_ofNat_of_lt' (Nat.lt_trans hlt (by decide))
    have hpos := List.length_pos_iff.mpr htxids
    exact ⟨_, topHash_of_counted hnum hpos hlt, rootOf_eq htxids, calculateRoot_eq htxids,
      calculateRootInline_eq htxids⟩
  · rintro hge ⟨root, htop, -⟩
    rw [topHash_panics hge] at htop
    cases htop

/-- A list of three hashes and one of three transactions. -/
theorem roots_agree_iff_three :
    (∃ root, rootOf (fun x y => x + 2 * y) [1, 2, 3] = some root ∧
      calculateRoot (fun x y => x + 2 * y) [1, 2, 3] = .ok (some root) ∧
      calculateRootInline (fun x y => x + 2 * y) [1, 2, 3] = .ok (some root)) ∧
    (sampleTxids.length < 2 ^ 31 → RootsAgree sampleTxids) ∧
    (2 ^ 31 ≤ sampleTxids.length % 2 ^ 32 → ¬ RootsAgree sampleTxids) :=
  roots_agree_iff (fun x y => x + 2 * y) [1, 2, 3] (by decide) sampleTxids (by decide)

/-- The walk panics over `2 ^ 31` transactions, whose root the other functions compute. -/
theorem topHash_panics_at_two_pow :
    topHash (List.replicate (2 ^ 31) (.replicate 32 0)) = .panic .overflow ∧
    ¬ RootsAgree (List.replicate (2 ^ 31) (.replicate 32 0)) := by
  have hpanic : topHash (List.replicate (2 ^ 31) (.replicate 32 0)) = .panic .overflow := by
    apply topHash_panics
    rw [List.length_replicate]
    decide
  refine ⟨hpanic, ?_⟩
  rintro ⟨root, htop, -⟩
  rw [hpanic] at htop
  cases htop

end PartialMerkleTree

end RustDogecoin
