import Mathlib.Data.List.TakeWhile
import Mathlib.Tactic.Common
import Mathlib.Order.Lattice

/-!
# Looking up sorted queries in a sorted stream

One pass over both: the values of the stream below the query at hand are skipped for good, since the
queries to come are not smaller.  `anyScan` stops at the first query that is found, `allScan` at the
first that is not.
-/

namespace SortedScan

variable {α : Type} [LinearOrder α]

/-- What is left of the stream when its values below `p` are skipped. -/
def skip (p : α) (l : List α) : List α := l.dropWhile (· < p)

def anyScan : List α → List α → Bool
  | [], _ => false
  | p :: ps, l =>
    match skip p l with
    | [] => false
    | v :: vs => if v = p then true else anyScan ps (v :: vs)

def allScan : List α → List α → Bool
  | [], _ => true
  | p :: ps, l =>
    match skip p l with
    | [] => false
    | v :: vs => if v = p then allScan ps (v :: vs) else false

/-- No query that is still to come is skipped. -/
theorem mem_skip_iff {p q : α} (h : p ≤ q) (l : List α) : q ∈ skip p l ↔ q ∈ l := by
  constructor
  · exact fun hq => (List.dropWhile_sublist _).mem hq
  · intro hq
    rw [← List.takeWhile_append_dropWhile (p := (· < p)) (l := l), List.mem_append] at hq
    rcases hq with hq | hq
    · have hlt : q < p := by simpa using List.mem_takeWhile_imp hq
      exact absurd hlt (not_lt.2 h)
    · exact hq

theorem sorted_of_skip_eq_cons {p v : α} {l vs : List α} (hl : l.Pairwise (· ≤ ·))
    (h : skip p l = v :: vs) : (v :: vs).Pairwise (· ≤ ·) := by
  rw [← h]
  exact hl.sublist (List.dropWhile_sublist _)

theorem le_of_skip_eq_cons {p v : α} {l vs : List α} (h : skip p l = v :: vs) : p ≤ v := by
  induction l with
  | nil => cases h
  | cons a l ih =>
    by_cases ha : a < p
    · exact ih (by simpa [skip, ha] using h)
    · have hcons : skip p (a :: l) = a :: l := List.dropWhile_cons_of_neg (by simpa using ha)
      rw [hcons, List.cons.injEq] at h
      rw [← h.1]
      exact not_lt.1 ha

/-- The query is in the stream exactly if it is the first value that is not skipped. -/
theorem mem_iff_of_skip_eq_cons {p v : α} {l vs : List α} (hl : l.Pairwise (· ≤ ·))
    (h : skip p l = v :: vs) : p ∈ l ↔ v = p := by
  have hsorted := List.pairwise_cons.1 (sorted_of_skip_eq_cons hl h)
  rw [← mem_skip_iff le_rfl l, h]
  constructor
  · intro hp
    rcases List.mem_cons.1 hp with rfl | hp
    · rfl
    · exact le_antisymm (hsorted.1 p hp) (le_of_skip_eq_cons h)
  · rintro rfl
    exact List.mem_cons_self

theorem notMem_of_skip_eq_nil {p q : α} {l : List α} (h : skip p l = []) (hq : p ≤ q) : q ∉ l := by
  rw [← mem_skip_iff hq l, h]
  exact List.not_mem_nil

theorem anyScan_iff {ps l : List α} (hps : ps.Pairwise (· ≤ ·)) (hl : l.Pairwise (· ≤ ·)) :
    anyScan ps l = true ↔ ∃ p ∈ ps, p ∈ l := by
  induction ps generalizing l with
  | nil => simp [anyScan]
  | cons p ps ih =>
    rw [List.pairwise_cons] at hps
    rw [anyScan]
    simp only [List.mem_cons, exists_eq_or_imp]
    cases h : skip p l with
    | nil =>
      have hp := notMem_of_skip_eq_nil h le_rfl
      have hrest : ∀ q ∈ ps, q ∉ l := fun q hq => notMem_of_skip_eq_nil h (hps.1 q hq)
      simpa [hp] using hrest
    | cons v vs =>
      have hsorted := sorted_of_skip_eq_cons hl h
      simp only [mem_iff_of_skip_eq_cons hl h]
      split_ifs with hv
      · simp [hv]
      · rw [ih hps.2 hsorted, ← h]
        simp only [hv, false_or]
        exact exists_congr fun q => and_congr_right fun hq => mem_skip_iff (hps.1 q hq) l

theorem allScan_iff {ps l : List α} (hps : ps.Pairwise (· ≤ ·)) (hl : l.Pairwise (· ≤ ·)) :
    allScan ps l = true ↔ ∀ p ∈ ps, p ∈ l := by
  induction ps generalizing l with
  | nil => simp [allScan]
  | cons p ps ih =>
    rw [List.pairwise_cons] at hps
    rw [allScan, List.forall_mem_cons]
    cases h : skip p l with
    | nil => simp [notMem_of_skip_eq_nil h le_rfl]
    | cons v vs =>
      have hsorted := sorted_of_skip_eq_cons hl h
      simp only [mem_iff_of_skip_eq_cons hl h]
      split_ifs with hv
      · rw [ih hps.2 hsorted, ← h]
        simp only [hv, true_and]
        exact forall_congr' fun q => imp_congr_right fun hq => mem_skip_iff (hps.1 q hq) l
      · simp [hv]

/-! ## Passing the end of the stream -/

/-- The scan comes to a query above the whole stream.  It goes on to the next query while finding the
query at hand is what `hit` says. -/
def passes (hit : Bool) : List α → List α → Bool
  | [], _ => false
  | p :: ps, l =>
    match skip p l with
    | [] => true
    | v :: vs => if decide (v = p) = hit then passes hit ps (v :: vs) else false

theorem skip_eq_nil_iff {p : α} {l : List α} : skip p l = [] ↔ ∀ v ∈ l, v < p := by
  simp [skip, List.dropWhile_eq_nil_iff]

/-- The values that are skipped for one query are below the queries to come as well. -/
theorem forall_skip_lt_iff {p q : α} (h : p ≤ q) {l : List α} :
    (∀ v ∈ skip p l, v < q) ↔ ∀ v ∈ l, v < q := by
  constructor
  · intro hall v hv
    by_contra hlt
    rw [← List.takeWhile_append_dropWhile (p := (· < p)) (l := l), List.mem_append] at hv
    rcases hv with hv | hv
    · have hvp : v < p := by simpa using List.mem_takeWhile_imp hv
      exact hlt (lt_of_lt_of_le hvp h)
    · exact hlt (hall v hv)
  · exact fun hall v hv => hall v ((List.dropWhile_sublist _).mem hv)

/-- Some query is above the stream, and no query that is not ends the scan before. -/
theorem passes_iff {hit : Bool} {ps l : List α} (hps : ps.Pairwise (· ≤ ·)) (hl : l.Pairwise (· ≤ ·)) :
    passes hit ps l = true ↔
      (∃ p ∈ ps, ∀ v ∈ l, v < p) ∧ ∀ p ∈ ps, (∀ v ∈ l, v < p) ∨ decide (p ∈ l) = hit := by
  induction ps generalizing l with
  | nil => simp [passes]
  | cons p ps ih =>
    rw [List.pairwise_cons] at hps
    rw [passes]
    simp only [List.mem_cons, exists_eq_or_imp, forall_eq_or_imp]
    cases h : skip p l with
    | nil =>
      have habove := skip_eq_nil_iff.1 h
      have hrest : ∀ q ∈ ps, ∀ v ∈ l, v < q := fun q hq v hv => lt_of_lt_of_le (habove v hv) (hps.1 q hq)
      exact iff_of_true rfl ⟨.inl habove, .inl habove, fun q hq => .inl (hrest q hq)⟩
    | cons v vs =>
      have hsorted := sorted_of_skip_eq_cons hl h
      have hnot : ¬∀ u ∈ l, u < p := by
        rw [← skip_eq_nil_iff, h]
        exact List.cons_ne_nil v vs
      simp only [hnot, false_or, mem_iff_of_skip_eq_cons hl h]
      split_ifs with hv
      · rw [ih hps.2 hsorted, ← h]
        simp only [hv, true_and]
        refine and_congr (exists_congr fun q => and_congr_right fun hq => forall_skip_lt_iff (hps.1 q hq))
          (forall_congr' fun q => imp_congr_right fun hq => ?_)
        rw [forall_skip_lt_iff (hps.1 q hq), decide_eq_decide.2 (mem_skip_iff (hps.1 q hq) l)]
      · simp [hv]

end SortedScan
