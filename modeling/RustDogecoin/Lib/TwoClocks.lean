import Mathlib.Order.BoundedOrder.Basic

/-!
# Locks on two clocks

A lock waits until one of two clocks shows at least some value.  One lock is known to be open whenever another is
exactly if it waits for the same clock and no longer, or does not wait at all (`open_of_open_iff`).
-/

namespace TwoClocks

variable {H T : Type} [Preorder H] [Preorder T]

/-- A lock on one of the two clocks. -/
inductive Lock (H T : Type) where
  | first (h : H)
  | second (t : T)

namespace Lock

/-- The lock is open when the clocks show `h` and `t`. -/
def IsOpen : Lock H T → H → T → Prop
  | first n, h, _ => n ≤ h
  | second n, _, t => n ≤ t

/-- The lock is open from the beginning. -/
def Trivial [OrderBot H] [OrderBot T] : Lock H T → Prop
  | first n => n ≤ ⊥
  | second n => n ≤ ⊥

/-- `b` waits for the same clock, and at least as long. -/
def Implied : Lock H T → Lock H T → Prop
  | first n, first m => n ≤ m
  | second n, second m => n ≤ m
  | _, _ => False

theorem Trivial.isOpen [OrderBot H] [OrderBot T] {a : Lock H T} (ha : a.Trivial) (h : H) (t : T) : a.IsOpen h t := by
  cases a with
  | first n => exact le_trans ha bot_le
  | second n => exact le_trans ha bot_le

theorem Implied.isOpen {a b : Lock H T} (hab : a.Implied b) {h : H} {t : T} (hb : b.IsOpen h t) : a.IsOpen h t := by
  cases a with
  | first n =>
    cases b with
    | first m => exact le_trans hab hb
    | second m => exact hab.elim
  | second n =>
    cases b with
    | first m => exact hab.elim
    | second m => exact le_trans hab hb

variable [OrderBot H] [OrderBot T]

theorem open_of_open_iff (a b : Lock H T) :
    (∀ h t, b.IsOpen h t → a.IsOpen h t) ↔ a.Trivial ∨ a.Implied b := by
  constructor
  · intro h
    -- the other clock has not moved when `b` opens
    cases a with
    | first n =>
      cases b with
      | first m => exact Or.inr (h m ⊥ le_rfl)
      | second m => exact Or.inl (h ⊥ m le_rfl)
    | second n =>
      cases b with
      | first m => exact Or.inl (h m ⊥ le_rfl)
      | second m => exact Or.inr (h ⊥ m le_rfl)
  · rintro (ha | hab) h t hb
    · exact ha.isOpen h t
    · exact hab.isOpen hb

/-- What is open in every state is open from the beginning. -/
theorem trivial_iff (a : Lock H T) : a.Trivial ↔ ∀ h t, a.IsOpen h t := by
  constructor
  · exact Trivial.isOpen
  · intro h
    cases a with
    | first n => exact h ⊥ ⊥
    | second n => exact h ⊥ ⊥

end Lock

end TwoClocks
