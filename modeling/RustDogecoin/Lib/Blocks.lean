import Mathlib.Tactic.Common
import Mathlib.Data.List.Basic

/-!
# Lists cut into blocks

`blocks n m` are the whole blocks of `n` items of `m`.  Behind a list of whole blocks the blocks of
the rest follow, so that a computation over blocks can be split at any block boundary.
-/

variable {α : Type}

/-- The whole blocks of length `n` of a list, from its start on. -/
def blocks (n : ℕ) (m : List α) : List (List α) :=
  (List.range (m.length / n)).map fun i => (m.drop (n * i)).take n

theorem blocks_of_length_lt {n : ℕ} {m : List α} (h : m.length < n) : blocks n m = [] := by
  rw [blocks, Nat.div_eq_of_lt h]
  rfl

theorem blocks_of_length_eq {n : ℕ} (hn : 0 < n) {m : List α} (h : m.length = n) :
    blocks n m = [m] := by
  have htake : (m.drop (n * 0)).take n = m := by
    rw [Nat.mul_zero, List.drop_zero, List.take_of_length_le (Nat.le_of_eq h)]
  rw [blocks, h, Nat.div_self hn, List.range_one, List.map_singleton, htake]

/-- Blocks do not cross the end of a list of whole blocks. -/
theorem blocks_append {n : ℕ} {x : List α} (hx : x.length % n = 0) (y : List α) :
    blocks n (x ++ y) = blocks n x ++ blocks n y := by
  obtain ⟨k, hk⟩ := Nat.dvd_of_mod_eq_zero hx
  rcases Nat.eq_zero_or_pos n with rfl | hn
  · simp [blocks]
  have hlen : (x ++ y).length / n = x.length / n + y.length / n := by
    rw [List.length_append, hk, Nat.mul_add_div hn, Nat.mul_div_cancel_left k hn]
  have hxlen : x.length / n = k := by rw [hk, Nat.mul_div_cancel_left k hn]
  unfold blocks
  rw [hlen, List.range_add, List.map_append, List.map_map, hxlen]
  congr 1
  · apply List.map_congr_left
    intro i hi
    have hblock : n * i + n ≤ x.length := by
      rw [hk, ← Nat.mul_succ]
      exact Nat.mul_le_mul_left n (List.mem_range.mp hi)
    rw [List.drop_append_of_le_length (by omega), List.take_append_of_le_length]
    rw [List.length_drop]
    omega
  · apply List.map_congr_left
    intro i _
    have hpos : n * (k + i) = x.length + n * i := by rw [hk, Nat.mul_add]
    show ((x ++ y).drop (n * (k + i))).take n = _
    rw [hpos, ← List.drop_drop, List.drop_left]

/-- What stands behind the whole blocks. -/
theorem blocks_rest (n : ℕ) (x : List α) :
    ∃ whole rest, x = whole ++ rest ∧ whole.length = n * (x.length / n) ∧
      rest.length = x.length % n ∧ rest = (x.drop (n * (x.length / n))).take (x.length % n) := by
  have hle : n * (x.length / n) ≤ x.length := Nat.mul_div_le _ _
  have hmod := Nat.mod_add_div x.length n
  have hrest : (x.drop (n * (x.length / n))).length = x.length % n := by
    rw [List.length_drop]
    omega
  refine ⟨x.take (n * (x.length / n)), x.drop (n * (x.length / n)),
    (List.take_append_drop _ x).symm, ?_, hrest, ?_⟩
  · rw [List.length_take, Nat.min_eq_left hle]
  · rw [List.take_of_length_le (Nat.le_of_eq hrest)]
