import Mathlib.Tactic.Common

/-!
# Iterators

An iterator is a state and a function `next` that returns an item or nothing and leaves another
state.  `after` is the state and `item` the answer of the `k`-th call.  An iterator that yields a list
of items until it is done is described by that list at every call (`Yields.item_eq`).
-/

namespace Iteration

variable {σ ι : Type}

/-- The state after `k` calls of `next`. -/
def after (next : σ → Option ι × σ) : ℕ → σ → σ
  | 0, s => s
  | k + 1, s => after next k (next s).2

/-- What the `k`-th call of `next` returns, counted from zero. -/
def item (next : σ → Option ι × σ) (k : ℕ) (s : σ) : Option ι := (next (after next k s)).1

/-- `Iterator::nth` as it is provided: `n` items are dropped, as far as there are items, and the next
one is returned. -/
def nth (next : σ → Option ι × σ) : ℕ → σ → Option ι × σ
  | 0, s => next s
  | n + 1, s =>
    match next s with
    | (none, s) => (none, s)
    | (some _, s) => nth next n s

/-- The items up to the end, as far as there are no more than `fuel`. -/
def collect (next : σ → Option ι × σ) : ℕ → σ → List ι
  | 0, _ => []
  | fuel + 1, s =>
    match next s with
    | (none, _) => []
    | (some i, s) => i :: collect next fuel s

/-- Nothing is returned, and nothing changes. -/
def Done (next : σ → Option ι × σ) (s : σ) : Prop := next s = (none, s)

/-- The items that are returned on the way from one state to another. -/
inductive Yields (next : σ → Option ι × σ) : σ → List ι → σ → Prop
  | nil (s : σ) : Yields next s [] s
  | cons {s s₁ s₂ : σ} {i : ι} {is : List ι} :
    next s = (some i, s₁) → Yields next s₁ is s₂ → Yields next s (i :: is) s₂

variable {next : σ → Option ι × σ}

@[simp] theorem after_zero (s : σ) : after next 0 s = s := rfl

theorem after_succ (k : ℕ) (s : σ) : after next (k + 1) s = after next k (next s).2 := rfl

theorem after_succ' (k : ℕ) (s : σ) : after next (k + 1) s = (next (after next k s)).2 := by
  induction k generalizing s with
  | zero => rfl
  | succ k ih => rw [after_succ, ih, ← after_succ]

theorem after_add (j k : ℕ) (s : σ) : after next (j + k) s = after next k (after next j s) := by
  induction j generalizing s with
  | zero => rw [Nat.zero_add, after_zero]
  | succ j ih => rw [Nat.succ_add_eq_add_succ, Nat.add_succ, after_succ, ih, after_succ]

theorem item_add (j k : ℕ) (s : σ) : item next (j + k) s = item next k (after next j s) := by
  rw [item, item, after_add]

theorem item_succ (k : ℕ) (s : σ) : item next (k + 1) s = item next k (next s).2 := rfl

theorem Done.after_eq {s : σ} (h : Done next s) (k : ℕ) : after next k s = s := by
  induction k with
  | zero => rfl
  | succ k ih => rw [after_succ, h, ih]

theorem Done.item_eq {s : σ} (h : Done next s) (k : ℕ) : item next k s = none := by
  rw [item, h.after_eq, h]

/-- For an iterator that stays at its end, `nth` is as many calls of `next`. -/
theorem nth_eq (hend : ∀ s s', next s = (none, s') → Done next s') (n : ℕ) (s : σ) :
    nth next n s = (item next n s, after next (n + 1) s) := by
  induction n generalizing s with
  | zero => rfl
  | succ n ih =>
    rw [nth, item_succ, after_succ]
    cases h : next s with
    | mk i s' =>
      cases i with
      | none =>
        have hdone := hend s s' h
        simp only [hdone.item_eq, hdone.after_eq]
      | some i => exact ih s'

/-- The answers of an iterator that yields a list and is done: the items, then nothing for ever. -/
theorem Yields.item_eq {s s' : σ} {is : List ι} (h : Yields next s is s') (hdone : Done next s') (k : ℕ) :
    item next k s = is[k]? := by
  induction h generalizing k with
  | nil s => rw [hdone.item_eq, List.getElem?_nil]
  | cons hnext _ ih =>
    cases k with
    | zero => rw [item, after_zero, hnext, List.getElem?_cons_zero]
    | succ k => rw [item_succ, hnext, ih hdone, List.getElem?_cons_succ]

theorem Yields.collect_eq {s s' : σ} {is : List ι} (h : Yields next s is s') (hdone : Done next s')
    {fuel : ℕ} (hfuel : is.length ≤ fuel) : collect next fuel s = is := by
  induction h generalizing fuel with
  | nil s =>
    cases fuel with
    | zero => rfl
    | succ fuel => rw [collect, hdone]
  | cons hnext _ ih =>
    cases fuel with
    | zero => cases hfuel
    | succ fuel =>
      simp only [collect, hnext]
      rw [ih hdone (Nat.le_of_succ_le_succ hfuel)]

end Iteration
