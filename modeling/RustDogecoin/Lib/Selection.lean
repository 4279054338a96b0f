import Mathlib.Tactic.Common

/-!
# Items selected by position

A walk over a list has a second list with it, of positions, and takes the first one off where it comes
to it.  All of them are taken exactly if they increase and lie within the walk (`rest_eq_nil_iff`), and
then the walk has told the items at these positions from the others.  Increasing positions are also
given by the gaps between them (`ofGaps`).
-/

namespace Selection

variable {α : Type} {lo hi : ℕ} {as : List α} {is : List ℕ}

/-- The positions increase, from `lo` on and below `hi`. -/
def Increasing (hi : ℕ) : ℕ → List ℕ → Prop
  | _, [] => True
  | lo, i :: is => lo ≤ i ∧ i < hi ∧ Increasing hi (i + 1) is

theorem Increasing.mono {lo' : ℕ} (h : Increasing hi lo is) (hle : lo' ≤ lo) :
    Increasing hi lo' is := by
  cases is with
  | nil => trivial
  | cons i is => exact ⟨Nat.le_trans hle h.1, h.2⟩

theorem increasing_iff :
    Increasing hi lo is ↔ is.Pairwise (· < ·) ∧ ∀ i ∈ is, lo ≤ i ∧ i < hi := by
  induction is generalizing lo with
  | nil => simp [Increasing]
  | cons i is ih =>
    rw [Increasing, ih, List.pairwise_cons, List.forall_mem_cons]
    constructor
    · rintro ⟨hlo, hhi, hp, hall⟩
      exact ⟨⟨fun j hj => (hall j hj).1, hp⟩, ⟨hlo, hhi⟩,
        fun j hj => ⟨Nat.le_trans hlo (Nat.le_of_lt (hall j hj).1), (hall j hj).2⟩⟩
    · rintro ⟨⟨hlt, hp⟩, ⟨hlo, hhi⟩, hall⟩
      exact ⟨hlo, hhi, hp, fun j hj => ⟨hlt j hj, (hall j hj).2⟩⟩

/-- A position that does not come first does not come at all. -/
theorem increasing_succ_iff (h : is.head? ≠ some lo) :
    Increasing hi lo is ↔ Increasing hi (lo + 1) is := by
  constructor
  · intro hi
    cases is with
    | nil => trivial
    | cons i is =>
      have hne : i ≠ lo := fun e => h (congrArg some e)
      exact ⟨by have := hi.1; omega, hi.2⟩
  · exact fun hi => hi.mono (Nat.le_succ lo)

/-- The positions with the gaps `ds` between them. -/
def ofGaps : ℕ → List ℕ → List ℕ
  | _, [] => []
  | last, d :: ds => (last + d) :: ofGaps (last + d + 1) ds

/-! ## The walk -/

/-- The items taken with their positions, the other items, and the positions that were not met. -/
structure Walk (α : Type) where
  selected : List (α × ℕ)
  others : List α
  rest : List ℕ

def Walk.select (w : Walk α) (a : α) (i : ℕ) : Walk α := { w with selected := (a, i) :: w.selected }

def Walk.skip (w : Walk α) (a : α) : Walk α := { w with others := a :: w.others }

/-- The walk from position `lo` on. -/
def walk : ℕ → List α → List ℕ → Walk α
  | _, [], is => ⟨[], [], is⟩
  | lo, a :: as, is =>
    if is.head? = some lo then (walk (lo + 1) as is.tail).select a lo else (walk (lo + 1) as is).skip a

@[simp] theorem walk_cons_self (a : α) : walk lo (a :: as) (lo :: is) = (walk (lo + 1) as is).select a lo :=
  if_pos rfl

theorem walk_cons_of_ne (a : α) (h : is.head? ≠ some lo) :
    walk lo (a :: as) is = (walk (lo + 1) as is).skip a :=
  if_neg h

/-- The walk by its cases: the next position is here, or further on. -/
@[elab_as_elim] theorem walk_induct {motive : ℕ → List α → List ℕ → Prop}
    (nil : ∀ lo is, motive lo [] is)
    (select : ∀ lo a as is, motive (lo + 1) as is → motive lo (a :: as) (lo :: is))
    (skip : ∀ lo a as is, is.head? ≠ some lo → motive (lo + 1) as is → motive lo (a :: as) is)
    (lo : ℕ) (as : List α) (is : List ℕ) : motive lo as is := by
  induction as generalizing lo is with
  | nil => exact nil lo is
  | cons a as ih =>
    by_cases h : is.head? = some lo
    · obtain ⟨js, rfl⟩ := List.head?_eq_some_iff.1 h
      exact select lo a as js (ih (lo + 1) js)
    · exact skip lo a as is h (ih (lo + 1) is)

theorem rest_eq_nil_iff : (walk lo as is).rest = [] ↔ Increasing (lo + as.length) lo is := by
  induction lo, as, is using walk_induct with
  | nil lo is =>
    cases is with
    | nil => simp [walk, Increasing]
    | cons i is =>
      apply iff_of_false (List.cons_ne_nil i is)
      intro h
      have := h.1
      have := h.2.1
      simp only [List.length_nil] at this
      omega
  | select lo a as is ih =>
    rw [walk_cons_self, Walk.select, ih, Increasing, List.length_cons, Nat.add_right_comm]
    exact ⟨fun h => ⟨Nat.le_refl lo, by omega, h⟩, fun h => h.2.2⟩
  | skip lo a as is hne ih =>
    rw [walk_cons_of_ne a hne, Walk.skip, ih, List.length_cons, increasing_succ_iff hne,
      Nat.add_right_comm, Nat.add_assoc]

/-- If all positions are met, they are the ones of the items taken. -/
theorem map_snd_selected (h : Increasing (lo + as.length) lo is) :
    (walk lo as is).selected.map Prod.snd = is := by
  have h' := rest_eq_nil_iff.2 h
  clear h
  induction lo, as, is using walk_induct with
  | nil lo is => exact h'.symm
  | select lo a as is ih =>
    rw [walk_cons_self] at h' ⊢
    rw [Walk.select, List.map_cons, ih h']
  | skip lo a as is hne ih =>
    rw [walk_cons_of_ne a hne] at h' ⊢
    exact ih h'

theorem selected_sublist : (walk lo as is).selected.Sublist (as.zipIdx lo) := by
  induction lo, as, is using walk_induct with
  | nil lo is => exact .slnil
  | select lo a as is ih => rw [walk_cons_self]; exact ih.cons_cons (a, lo)
  | skip lo a as is hne ih => rw [walk_cons_of_ne a hne]; exact ih.cons (a, lo)

theorem getElem?_of_mem_selected {a : α} {i : ℕ} (h : (a, i) ∈ (walk lo as is).selected) :
    as[i - lo]? = some a :=
  (List.mk_mem_zipIdx_iff_le_and_getElem?_sub.1 (selected_sublist.subset h)).2

/-- Increasing positions leave the items whose positions are not among them. -/
theorem others_eq_filter (h : Increasing (lo + as.length) lo is) :
    (walk lo as is).others = ((as.zipIdx lo).filter (·.2 ∉ is)).map Prod.fst := by
  induction lo, as, is using walk_induct with
  | nil lo is => rfl
  | select lo a as is ih =>
    have h' : Increasing (lo + 1 + as.length) (lo + 1) is := by
      have := h.2.2
      rwa [List.length_cons, Nat.add_comm as.length, ← Nat.add_assoc] at this
    have htail : (as.zipIdx (lo + 1)).filter (·.2 ∉ lo :: is) = (as.zipIdx (lo + 1)).filter (·.2 ∉ is) := by
      apply List.filter_congr
      intro p hp
      have := List.le_snd_of_mem_zipIdx hp
      simp only [List.mem_cons, not_or, decide_eq_decide, and_iff_right_iff_imp]
      intro _
      omega
    rw [walk_cons_self, Walk.select, List.zipIdx_cons, List.filter_cons_of_neg (by simp), htail]
    exact ih h'
  | skip lo a as is hne ih =>
    have h' := (increasing_succ_iff hne).1 h
    have hlo : lo ∉ is := fun hmem => absurd ((increasing_iff.1 h').2 lo hmem).1 (by omega)
    rw [List.length_cons, Nat.add_comm as.length, ← Nat.add_assoc] at h'
    rw [walk_cons_of_ne a hne, Walk.skip, List.zipIdx_cons,
      List.filter_cons_of_pos (by simpa using hlo), List.map_cons, ih h']

end Selection
