import Mathlib.Tactic.Common

/-!
# First occurrence of a list in another

`OccursAt needle xs i` says that `needle` stands in `xs` at position `i`, and `FirstAt` that it does
not stand there before.  `find` looks at the windows of `xs` one after the other; `find_eq_some_iff`
and `find_eq_none_iff` say what it finds.
-/

namespace Search

variable {α : Type} {needle xs : List α} {i j : ℕ}

def OccursAt (needle xs : List α) (i : ℕ) : Prop := needle <+: xs.drop i

/-- The first position at which `needle` stands in `xs`. -/
structure FirstAt (needle xs : List α) (i : ℕ) : Prop where
  occurs : OccursAt needle xs i
  first : ∀ j < i, ¬ OccursAt needle xs j

theorem FirstAt.unique (hi : FirstAt needle xs i) (hj : FirstAt needle xs j) : i = j := by
  rcases Nat.lt_trichotomy i j with h | h | h
  · exact absurd hi.occurs (hj.first i h)
  · exact h
  · exact absurd hj.occurs (hi.first j h)

theorem OccursAt.take_eq (h : OccursAt needle xs i) : (xs.drop i).take needle.length = needle :=
  (List.prefix_iff_eq_take.1 h).symm

theorem OccursAt.le_length (h : OccursAt needle xs i) (hn : needle ≠ []) :
    i + needle.length ≤ xs.length := by
  have hle := h.length_le
  have hpos := List.length_pos_iff.2 hn
  rw [List.length_drop] at hle
  omega

theorem occursAt_iff (hn : needle ≠ []) : OccursAt needle xs i ↔
    i < xs.length + 1 - needle.length ∧ (xs.drop i).take needle.length = needle := by
  constructor
  · intro h
    have := h.le_length hn
    exact ⟨by omega, h.take_eq⟩
  · rintro ⟨-, h⟩
    exact List.prefix_iff_eq_take.2 h.symm

/-- Positions after the first `k` are positions in what is left. -/
theorem occursAt_drop {k : ℕ} : OccursAt needle (xs.drop k) i ↔ OccursAt needle xs (k + i) := by
  rw [OccursAt, OccursAt, List.drop_drop]

theorem OccursAt.getElem? (h : OccursAt needle xs i) {k : ℕ} (hk : k < needle.length) :
    xs[i + k]? = needle[k]? := by
  obtain ⟨rest, hrest⟩ := h
  rw [← List.getElem?_drop, ← hrest, List.getElem?_append_left hk]

/-- Lists of one length that stand at one position are equal. -/
theorem OccursAt.eq_of_length {other : List α} (h : OccursAt needle xs i)
    (h' : OccursAt other xs i) (hl : needle.length = other.length) : needle = other := by
  rw [← h.take_eq, hl, h'.take_eq]

/-- The windows of length `n`, from left to right. -/
def windows (n : ℕ) (xs : List α) : List (List α) :=
  (List.range (xs.length + 1 - n)).map fun i => (xs.drop i).take n

variable [DecidableEq α]

/-- The number of the first window that is equal to `needle`. -/
def find (xs needle : List α) : Option ℕ :=
  (windows needle.length xs).findIdx? fun window => window == needle

theorem find_eq_some_iff (hn : needle ≠ []) : find xs needle = some i ↔ FirstAt needle xs i := by
  rw [find, List.findIdx?_eq_some_iff_getElem]
  simp only [windows, List.length_map, List.length_range, List.getElem_map, List.getElem_range,
    beq_iff_eq]
  constructor
  · rintro ⟨hi, heq, hfirst⟩
    refine ⟨(occursAt_iff hn).2 ⟨hi, heq⟩, fun j hj h => ?_⟩
    exact hfirst j hj h.take_eq
  · rintro ⟨hocc, hfirst⟩
    obtain ⟨hi, heq⟩ := (occursAt_iff hn).1 hocc
    refine ⟨hi, heq, fun j hj h => hfirst j hj ?_⟩
    exact (occursAt_iff hn).2 ⟨by omega, h⟩

theorem find_eq_none_iff (hn : needle ≠ []) :
    find xs needle = none ↔ ∀ i, ¬ OccursAt needle xs i := by
  rw [find, List.findIdx?_eq_none_iff]
  simp only [windows, List.mem_map, List.mem_range, beq_eq_false_iff_ne]
  constructor
  · intro h i hocc
    obtain ⟨hi, heq⟩ := (occursAt_iff hn).1 hocc
    exact h _ ⟨i, hi, rfl⟩ heq
  · rintro h _ ⟨i, hi, rfl⟩ heq
    exact h i ((occursAt_iff hn).2 ⟨hi, heq⟩)

end Search
