import Mathlib.Tactic.Common

/-!
# Computations that may fail or panic

`Outcome ε α` is the result of a run that returns a value, returns an error of type `ε`, or stops
in a panic.  Panics are kept apart from errors, so that `x = ok a` says both that the computation
returned and that nothing overflowed, was indexed out of bounds or failed an assertion on the way.
-/

/-- Why a run stopped without returning. -/
inductive Panic where
  | overflow
  | divideByZero
  | outOfBounds
  | assertion
  | unwrap
  deriving DecidableEq, Repr

/-- The result of a run: a value, an error, or a panic. -/
inductive Outcome (ε α : Type) where
  | ok (a : α)
  | err (e : ε)
  | panic (p : Panic)
  deriving DecidableEq, Repr

namespace Outcome

variable {ε ζ α β : Type}

protected def bind : Outcome ε α → (α → Outcome ε β) → Outcome ε β
  | ok a, f => f a
  | err e, _ => err e
  | panic p, _ => panic p

instance : Monad (Outcome ε) where
  pure := ok
  bind := Outcome.bind

@[simp] theorem pure_eq_ok (a : α) : (pure a : Outcome ε α) = ok a := rfl

@[simp] theorem ok_bind (a : α) (f : α → Outcome ε β) : (ok a >>= f) = f a := rfl

@[simp] theorem err_bind (e : ε) (f : α → Outcome ε β) : (err e >>= f) = err e := rfl

@[simp] theorem panic_bind (p : Panic) (f : α → Outcome ε β) : (panic p >>= f) = panic p := rfl

instance : LawfulMonad (Outcome ε) :=
  LawfulMonad.mk' (Outcome ε) (by rintro α (_ | _ | _) <;> rfl) (fun _ _ => rfl)
    (by rintro α β γ (_ | _ | _) f g <;> rfl)

@[simp] theorem map_ok (f : α → β) (a : α) : f <$> (ok a : Outcome ε α) = ok (f a) := rfl

@[simp] theorem map_err (f : α → β) (e : ε) : f <$> (err e : Outcome ε α) = err e := rfl

@[simp] theorem map_panic (f : α → β) (p : Panic) : f <$> (panic p : Outcome ε α) = panic p := rfl

theorem bind_eq_ok_iff {x : Outcome ε α} {f : α → Outcome ε β} {b : β} :
    (x >>= f) = ok b ↔ ∃ a, x = ok a ∧ f a = ok b := by
  cases x <;> simp

theorem map_eq_ok_iff {x : Outcome ε α} {f : α → β} {b : β} :
    f <$> x = ok b ↔ ∃ a, x = ok a ∧ f a = b := by
  cases x <;> simp

/-- A branch that returned was the branch taken. -/
theorem of_ite_eq_ok {c : Prop} [Decidable c] {x y : Outcome ε α} {a : α} {Q : Prop}
    (h : (if c then x else y) = ok a) (hx : c → x = ok a → Q) (hy : ¬c → y = ok a → Q) : Q := by
  split_ifs at h with hc
  · exact hx hc h
  · exact hy hc h

/-- Stop in the panic `p` unless `c` holds. -/
def require (c : Prop) [Decidable c] (p : Panic) : Outcome ε Unit := if c then ok () else panic p

theorem require_of {c : Prop} [Decidable c] (h : c) (p : Panic) :
    (require c p : Outcome ε Unit) = ok () := if_pos h

theorem require_eq_ok_iff {c : Prop} [Decidable c] {p : Panic} {u : Unit} :
    (require c p : Outcome ε Unit) = ok u ↔ c := by
  unfold require
  split_ifs with h <;> simp [h]

theorem require_bind_eq_ok_iff {c : Prop} [Decidable c] {p : Panic} {f : Unit → Outcome ε β} {b : β} :
    (require c p >>= f) = ok b ↔ c ∧ f () = ok b := by
  unfold require
  split_ifs with h <;> simp [h]

/-- Return the error `e` unless `c` holds. -/
def ensure (c : Prop) [Decidable c] (e : ε) : Outcome ε Unit := if c then ok () else err e

theorem ensure_of {c : Prop} [Decidable c] (h : c) (e : ε) : ensure c e = ok () := if_pos h

theorem ensure_of_not {c : Prop} [Decidable c] (h : ¬c) (e : ε) : ensure c e = err e := if_neg h

theorem ensure_eq_ok_iff {c : Prop} [Decidable c] {e : ε} {u : Unit} : ensure c e = ok u ↔ c := by
  unfold ensure
  split_ifs with h <;> simp [h]

theorem ensure_bind_eq_ok_iff {c : Prop} [Decidable c] {e : ε} {f : Unit → Outcome ε β} {b : β} :
    (ensure c e >>= f) = ok b ↔ c ∧ f () = ok b := by
  unfold ensure
  split_ifs with h <;> simp [h]

/-- A run that cannot return an error, inside one that can. -/
def lift : Outcome Empty α → Outcome ε α
  | ok a => ok a
  | panic p => panic p

@[simp] theorem lift_ok (a : α) : (lift (ok a) : Outcome ε α) = ok a := rfl

theorem lift_eq_ok_iff {x : Outcome Empty α} {a : α} : (lift x : Outcome ε α) = ok a ↔ x = ok a := by
  rcases x with _ | e | _
  · simp
  · exact e.elim
  · simp [lift]

/-- The error of a failed run, translated. -/
def mapErr (f : ε → ζ) : Outcome ε α → Outcome ζ α
  | ok a => ok a
  | err e => err (f e)
  | panic p => panic p

theorem mapErr_eq_ok_iff {f : ε → ζ} {x : Outcome ε α} {a : α} : x.mapErr f = ok a ↔ x = ok a := by
  cases x <;> simp [mapErr]

theorem mapErr_eq_err_iff {f : ε → ζ} {x : Outcome ε α} {e' : ζ} :
    x.mapErr f = err e' ↔ ∃ e, x = err e ∧ f e = e' := by
  cases x <;> simp [mapErr]

theorem mapErr_eq_panic_iff {f : ε → ζ} {x : Outcome ε α} {p : Panic} :
    x.mapErr f = panic p ↔ x = panic p := by
  cases x <;> simp [mapErr]

theorem map_eq_panic_iff {x : Outcome ε α} {f : α → β} {p : Panic} : f <$> x = panic p ↔ x = panic p := by
  cases x <;> simp

theorem bind_eq_err_iff {x : Outcome ε α} {f : α → Outcome ε β} {e : ε} :
    (x >>= f) = err e ↔ x = err e ∨ ∃ a, x = ok a ∧ f a = err e := by
  cases x <;> simp

/-- The value of a run that must not fail. -/
def expect : Outcome ε α → Outcome Empty α
  | ok a => ok a
  | err _ => panic .unwrap
  | panic p => panic p

/-- A result without panics, as a run. -/
def ofExcept : Except ε α → Outcome ε α
  | .ok a => ok a
  | .error e => err e

@[simp] theorem ofExcept_ok (a : α) : (ofExcept (.ok a) : Outcome ε α) = ok a := rfl

theorem ofExcept_eq_ok_iff {x : Except ε α} {a : α} : ofExcept x = ok a ↔ x = .ok a := by
  cases x <;> simp [ofExcept]

@[simp] theorem expect_ok (a : α) : (ok a : Outcome ε α).expect = ok a := rfl

@[simp] theorem mapErr_ok (f : ε → ζ) (a : α) : (ok a : Outcome ε α).mapErr f = ok a := rfl

/-! ## Runs that do not panic -/

/-- The run returns a value or an error. -/
def NoPanic (x : Outcome ε α) : Prop := ∀ p, x ≠ panic p

theorem noPanic_ok (a : α) : (ok a : Outcome ε α).NoPanic := fun _ => by simp

theorem noPanic_err (e : ε) : (err e : Outcome ε α).NoPanic := fun _ => by simp

theorem noPanic_ensure {c : Prop} [Decidable c] (e : ε) : (ensure c e).NoPanic := by
  unfold ensure
  split_ifs
  · exact noPanic_ok ()
  · exact noPanic_err e

theorem noPanic_ofExcept (x : Except ε α) : (ofExcept x).NoPanic := by
  cases x with
  | ok a => exact noPanic_ok a
  | error e => exact noPanic_err e

theorem NoPanic.bind {x : Outcome ε α} {f : α → Outcome ε β} (hx : x.NoPanic)
    (hf : ∀ a, x = ok a → (f a).NoPanic) : (x >>= f).NoPanic := by
  cases x with
  | ok a => exact hf a rfl
  | err e => exact noPanic_err e
  | panic p => exact absurd rfl (hx p)

theorem NoPanic.foldlM {f : β → α → Outcome ε β} (hf : ∀ b a, (f b a).NoPanic) (l : List α) (b : β) :
    (l.foldlM f b).NoPanic := by
  induction l generalizing b with
  | nil => exact noPanic_ok b
  | cons a l ih =>
    rw [List.foldlM_cons]
    exact (hf b a).bind fun b' _ => ih b'

theorem NoPanic.mapErr {x : Outcome ε α} (hx : x.NoPanic) (f : ε → ζ) : (x.mapErr f).NoPanic := by
  cases x with
  | ok a => exact noPanic_ok a
  | err e => exact noPanic_err (f e)
  | panic p => exact absurd rfl (hx p)

/-- The run returns a value if `C` holds, and an error otherwise. -/
def EndsBy (C : Prop) (x : Outcome ε α) : Prop := (C → ∃ a, x = ok a) ∧ (¬C → ∃ e, x = err e)

theorem endsBy_err {C : Prop} (h : ¬C) (e : ε) : EndsBy C (err e : Outcome ε α) :=
  ⟨fun hC => absurd hC h, fun _ => ⟨e, rfl⟩⟩

theorem EndsBy.noPanic {C : Prop} {x : Outcome ε α} (h : EndsBy C x) : x.NoPanic := by
  by_cases hC : C
  · obtain ⟨a, ha⟩ := h.1 hC
    exact ha ▸ noPanic_ok a
  · obtain ⟨e, he⟩ := h.2 hC
    exact he ▸ noPanic_err e

theorem EndsBy.map {C : Prop} {x : Outcome ε α} (h : EndsBy C x) (f : α → β) : EndsBy C (f <$> x) := by
  refine ⟨fun hC => ?_, fun hC => ?_⟩
  · obtain ⟨a, rfl⟩ := h.1 hC
    exact ⟨f a, rfl⟩
  · obtain ⟨e, rfl⟩ := h.2 hC
    exact ⟨e, rfl⟩

/-- The run panics exactly if `C` holds. -/
def PanicsIff (C : Prop) (x : Outcome ε α) : Prop := (C → ∃ p, x = panic p) ∧ (¬C → x.NoPanic)

theorem PanicsIff.of_noPanic {C : Prop} {x : Outcome ε α} (hC : ¬C) (h : x.NoPanic) : PanicsIff C x :=
  ⟨fun hyes => absurd hyes hC, fun _ => h⟩

theorem PanicsIff.of_panic {C : Prop} (hC : C) (p : Panic) : PanicsIff C (panic p : Outcome ε α) :=
  ⟨fun _ => ⟨p, rfl⟩, fun hno => absurd hC hno⟩

theorem PanicsIff.holds {C : Prop} {p : Panic} (h : PanicsIff C (panic p : Outcome ε α)) : C := by
  by_contra hC
  exact h.2 hC p rfl

theorem PanicsIff.not_holds {C : Prop} {x : Outcome ε α} (h : PanicsIff C x) (hx : x.NoPanic) : ¬C := by
  intro hC
  obtain ⟨p, hp⟩ := h.1 hC
  exact hx p hp

/-- What the run returns is in `Q`, and it returns an error only if `F` holds; it may panic. -/
def ReturnsOr (F : Prop) (Q : α → Prop) : Outcome ε α → Prop
  | ok a => Q a
  | err _ => F
  | panic _ => True

theorem ReturnsOr.of_err {F : Prop} {Q : α → Prop} {x : Outcome ε α} (hok : ∀ a, x = ok a → Q a)
    (herr : ∀ e, x = err e → F) : x.ReturnsOr F Q := by
  cases x with
  | ok a => exact hok a rfl
  | err e => exact herr e rfl
  | panic p => exact trivial

theorem ReturnsOr.mono {F : Prop} {Q Q' : α → Prop} {x : Outcome ε α} (h : x.ReturnsOr F Q) (hQ : ∀ a, Q a → Q' a) :
    x.ReturnsOr F Q' := by
  cases x with
  | ok a => exact hQ a h
  | err e => exact h
  | panic p => exact trivial

theorem ReturnsOr.bind {F : Prop} {Q : α → Prop} {Q' : β → Prop} {x : Outcome ε α} {f : α → Outcome ε β}
    (hx : x.ReturnsOr F Q) (hf : ∀ a, Q a → (f a).ReturnsOr F Q') : (x >>= f).ReturnsOr F Q' := by
  cases x with
  | ok a => exact hf a hx
  | err e => exact hx
  | panic p => exact trivial

/-- A loop; its invariant speaks of the items that are left. -/
theorem ReturnsOr.foldlM {F : Prop} {f : β → α → Outcome ε β} {J : List α → β → Prop}
    (hturn : ∀ a l b, J (a :: l) b → (f b a).ReturnsOr F (J l)) {l : List α} {b : β} (h : J l b) :
    (l.foldlM f b).ReturnsOr F (J []) := by
  induction l generalizing b with
  | nil => exact h
  | cons a l ih =>
    rw [List.foldlM_cons]
    exact (hturn a l b h).bind fun b' => ih

end Outcome
