import RustDogecoin.Lib.Merkle
import RustDogecoin.Lib.Outcome

/-!
# Merkle roots

`calculate_root` of `merkle_tree/mod.rs`, over an arbitrary node hash.  The first level is computed
while the leaves are read, and the others in place.
-/

namespace RustDogecoin

open Merkle

/-- `xs[i]`. -/
def indexSlice {ε α : Type} (xs : List α) (i : ℕ) : Outcome ε α :=
  match xs[i]? with
  | some a => .ok a
  | none => .panic .outOfBounds

theorem indexSlice_of_getElem? {ε α : Type} {xs : List α} {i : ℕ} {a : α} (h : xs[i]? = some a) :
    (indexSlice xs i : Outcome ε α) = .ok a := by
  rw [indexSlice, h]

namespace MerkleTree

section

variable {α : Type} (H : α → α → α)

/-- The loop of `calculate_root`: if the size is odd, the last element is used twice. -/
def combinePairs : List α → List α
  | [] => []
  | [hash1] => [H hash1 hash1]
  | hash1 :: hash2 :: hashes => H hash1 hash2 :: combinePairs hashes

/-- One turn of the loop of `merkle_root_r`. -/
def merkleRootStep (hashes : List α) (idx : ℕ) : Outcome Empty (List α) := do
  let idx1 := 2 * idx
  let idx2 := min (idx1 + 1) (hashes.length - 1)
  let hash1 ← indexSlice hashes idx1
  let hash2 ← indexSlice hashes idx2
  return hashes.set idx (H hash1 hash2)

/-- `merkle_root_r`, with a bound on the depth of the recursion; the source recurses without end on
an empty slice, which it is never called with. -/
def merkleRootRec : ℕ → List α → Outcome Empty α
  | 0, _ => .panic .overflow
  | depth + 1, hashes => do
    if hashes.length = 1 then indexSlice hashes 0
    else
      let hashes ← (List.range ((hashes.length + 1) / 2)).foldlM (merkleRootStep H) hashes
      let halfLen := hashes.length / 2 + hashes.length % 2
      merkleRootRec depth (hashes.take halfLen)

def merkleRootR (hashes : List α) : Outcome Empty α := merkleRootRec H hashes.length hashes

/-- Calculates the merkle root of a list of hashes in place. -/
def calculateRootInline (hashes : List α) : Outcome Empty (Option α) :=
  match hashes.length with
  | 0 => .ok none
  | 1 => some <$> indexSlice hashes 0
  | _ => some <$> merkleRootR H hashes

/-- Calculates the merkle root of an iterator of hashes. -/
def calculateRoot : List α → Outcome Empty (Option α)
  | [] => .ok none
  | [first] => .ok (some first)
  | hashes => some <$> merkleRootR H (combinePairs H hashes)

/-! ## The root as a node of the tree -/

variable {H}

theorem indexSlice_map_range {ε : Type} {w i : ℕ} (F : ℕ → α) (hi : i < w) :
    (indexSlice ((List.range w).map F) i : Outcome ε α) = .ok (F i) := by
  apply indexSlice_of_getElem?
  rw [List.getElem?_map, List.getElem?_range hi]
  rfl

theorem set_map_range {w k : ℕ} (F : ℕ → α) (a : α) :
    ((List.range w).map F).set k a = (List.range w).map fun i => if i = k then a else F i := by
  apply List.ext_getElem
  · simp
  · intro i h₁ h₂
    simp only [List.getElem_set, List.getElem_map, List.getElem_range, eq_comm]

/-- While the loop runs, the slots up to the current one hold nodes of the next level. -/
theorem foldlM_merkleRootStep {w k : ℕ} (g : ℕ → α) (hk : k ≤ (w + 1) / 2) :
    (List.range k).foldlM (merkleRootStep H) ((List.range w).map g) =
      .ok ((List.range w).map fun i => if i < k then H (g (2 * i)) (g (min (2 * i + 1) (w - 1)))
        else g i) := by
  induction k with
  | zero => simp
  | succ k ih =>
    rw [List.range_succ, List.foldlM_append, ih (by omega), Outcome.ok_bind, List.foldlM_cons]
    unfold merkleRootStep
    dsimp only
    rw [List.length_map, List.length_range, indexSlice_map_range _ (by omega), Outcome.ok_bind,
      indexSlice_map_range _ (by omega), Outcome.ok_bind, if_neg (by omega), if_neg (by omega),
      set_map_range]
    simp only [Outcome.pure_eq_ok, Outcome.ok_bind, List.foldlM_nil, Outcome.ok.injEq]
    apply List.map_congr_left
    intro i hi
    by_cases hik : i = k
    · subst hik
      rw [if_pos rfl, if_pos (Nat.lt_succ_self i)]
    · rw [if_neg hik]
      exact if_congr (by omega) rfl rfl

/-- One round turns a level of the tree into the next one. -/
theorem merkleRoot_round (n h : ℕ) (f : ℕ → α) :
    ((List.range (width n h)).map fun i => if i < (width n h + 1) / 2 then
        H (nodeAt H n f h (2 * i)) (nodeAt H n f h (min (2 * i + 1) (width n h - 1)))
      else nodeAt H n f h i).take ((width n h + 1) / 2) =
        (List.range (width n (h + 1))).map (nodeAt H n f (h + 1)) := by
  rw [← List.map_take, List.take_range, width_succ, Nat.min_eq_left (by omega)]
  apply List.map_congr_left
  intro i hi
  rw [List.mem_range] at hi
  rw [if_pos hi, nodeAt_succ, hashPair, children]
  dsimp only
  rw [Nat.mul_comm i 2]
  by_cases hlast : 2 * i + 1 < width n h
  · rw [if_pos hlast, Nat.min_eq_left (by omega)]
  · have hmin : min (2 * i + 1) (width n h - 1) = 2 * i := by omega
    rw [if_neg hlast, hmin]

theorem merkleRootRec_level {n depth h : ℕ} (hn : 0 < n) (f : ℕ → α) (hh : h ≤ height n)
    (hdepth : width n h ≤ depth) :
    merkleRootRec H depth ((List.range (width n h)).map (nodeAt H n f h)) =
      .ok (nodeAt H n f (height n) 0) := by
  have hpos : 0 < width n h := by
    rw [lt_width_iff]
    omega
  induction depth generalizing h with
  | zero => omega
  | succ depth ih =>
    rw [merkleRootRec, List.length_map, List.length_range]
    by_cases hone : width n h = 1
    · have htop : h = height n := by
        have := mt lt_height_iff.mp (by omega : ¬ 1 < width n h)
        omega
      rw [if_pos hone, indexSlice_map_range _ hpos, htop]
    · have hlt : h < height n := lt_height_iff.mpr (by omega)
      have hhalf : width n h / 2 + width n h % 2 = (width n h + 1) / 2 := by omega
      have hsucc := width_succ n h
      rw [if_neg hone, foldlM_merkleRootStep _ le_rfl, Outcome.ok_bind]
      dsimp only
      rw [List.length_map, List.length_range, hhalf, merkleRoot_round]
      exact ih (by omega) (by omega) (by omega)

/-- The leaves of a list. -/
def leafOf [Inhabited α] (xs : List α) (i : ℕ) : α := xs.getD i default

theorem getElem?_leafOf [Inhabited α] {xs : List α} {i : ℕ} (h : i < xs.length) :
    xs[i]? = some (leafOf xs i) := by
  rw [leafOf, List.getD_eq_getElem?_getD, List.getElem?_eq_getElem h]
  rfl

theorem map_leafOf_range [Inhabited α] (xs : List α) :
    (List.range xs.length).map (leafOf xs) = xs := by
  apply List.ext_getElem?
  intro i
  rw [List.getElem?_map]
  by_cases hi : i < xs.length
  · rw [List.getElem?_range hi, getElem?_leafOf hi]
    rfl
  · rw [List.getElem?_eq_none (by simpa using hi), List.getElem?_eq_none (by simpa using hi)]
    rfl

/-- The leaves are the lowest level. -/
theorem level_leafOf [Inhabited α] (xs : List α) : level H xs.length (leafOf xs) 0 = xs := by
  rw [level, width_zero]
  exact map_leafOf_range xs

theorem combinePairs_eq_pairUp (xs : List α) : combinePairs H xs = pairUp H xs := by
  induction xs using combinePairs.induct with
  | case1 => rfl
  | case2 a => rfl
  | case3 a b xs ih => rw [combinePairs, pairUp, ih, hashPair]

theorem combinePairs_eq [Inhabited α] (xs : List α) :
    combinePairs H xs = level H xs.length (leafOf xs) 1 := by
  rw [← pairUp_level, level_leafOf, combinePairs_eq_pairUp]

theorem merkleRootR_level {n h : ℕ} (hn : 0 < n) (f : ℕ → α) (hh : h ≤ height n) :
    merkleRootR H (level H n f h) = .ok (nodeAt H n f (height n) 0) := by
  rw [merkleRootR, level, List.length_map, List.length_range]
  exact merkleRootRec_level hn f hh le_rfl

theorem calculateRoot_eq [Inhabited α] {xs : List α} (hxs : xs ≠ []) :
    calculateRoot H xs = .ok (some (nodeAt H xs.length (leafOf xs) (height xs.length) 0)) := by
  match xs with
  | [] => exact absurd rfl hxs
  | [first] => simp [calculateRoot, height, nodeAt, leafOf]
  | first :: second :: rest =>
    have hheight : 1 ≤ height (first :: second :: rest).length := by
      rw [Nat.succ_le_iff, lt_height_iff, width_zero]
      simp
    have hround : calculateRoot H (first :: second :: rest) =
        some <$> merkleRootR H (combinePairs H (first :: second :: rest)) := rfl
    rw [hround, combinePairs_eq, merkleRootR_level (by simp) _ hheight, Outcome.map_ok]

/-- Working in place gives the same node: a slot is overwritten after the nodes in it and behind it
that it depends on have been read. -/
theorem calculateRootInline_eq [Inhabited α] {xs : List α} (hxs : xs ≠ []) :
    calculateRootInline H xs =
      .ok (some (nodeAt H xs.length (leafOf xs) (height xs.length) 0)) := by
  have hroot : merkleRootR H xs = .ok (nodeAt H xs.length (leafOf xs) (height xs.length) 0) := by
    have hlevel := merkleRootR_level (H := H) (List.length_pos_iff.mpr hxs) (leafOf xs)
      (Nat.zero_le _)
    rwa [level_leafOf] at hlevel
  match xs with
  | [] => exact absurd rfl hxs
  | [first] => simp [calculateRootInline, indexSlice, height, nodeAt, leafOf]
  | first :: second :: rest =>
    have hround : calculateRootInline H (first :: second :: rest) =
        some <$> merkleRootR H (first :: second :: rest) := rfl
    rw [hround, hroot, Outcome.map_ok]

theorem rootOf_eq [Inhabited α] {xs : List α} (hxs : xs ≠ []) :
    rootOf H xs = some (nodeAt H xs.length (leafOf xs) (height xs.length) 0) := by
  have hlevel := rootOf_level (H := H) (f := leafOf xs) (List.length_pos_iff.mpr hxs)
    (Nat.zero_le _)
  rwa [level_leafOf] at hlevel

end

end MerkleTree

end RustDogecoin
