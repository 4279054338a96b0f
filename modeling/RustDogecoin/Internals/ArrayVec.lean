import Mathlib.Algebra.Group.Nat.Defs
import Mathlib.Data.List.Basic
import Mathlib.Data.Option.Basic
import RustDogecoin.Lib.Outcome

/-!
# Vectors in an array

`ArrayVec` of `internals/array_vec.rs`: an array whose places need not be initialized, except for the first `len`,
which are the contents.  The operations are those of a list that is not to outgrow the capacity.  But
`extend_from_slice` copies into all of the places behind the contents, so it panics unless it fills them
(`ArrayVec.asOnLists_iff`).
-/

namespace RustDogecoin

/-- `ArrayVec`; a place that is not initialized is `none`. -/
structure ArrayVec (T : Type) (CAP : UInt64) where
  len : ℕ
  data : List (Option T)
  length_data : data.length = CAP.toNat
  len_le : len ≤ CAP.toNat
  init : ∀ place ∈ data.take len, place.isSome
  deriving DecidableEq, Repr

namespace ArrayVec

variable {T : Type} {CAP : UInt64}

/-- `as_slice`, which takes the first `len` places to be initialized. -/
def asSlice (v : ArrayVec T CAP) : List T := (v.data.take v.len).attach.map fun place => place.1.get (v.init _ place.2)

theorem map_some_asSlice (v : ArrayVec T CAP) : v.asSlice.map some = v.data.take v.len := by
  rw [asSlice, List.map_map]
  refine Eq.trans (List.map_congr_left fun place _ => ?_) (List.attach_map_subtype_val _)
  exact Option.some_get _

theorem asSlice_eq_iff {v : ArrayVec T CAP} {l : List T} : v.asSlice = l ↔ v.data.take v.len = l.map some := by
  rw [← map_some_asSlice]
  exact (List.map_injective_iff.2 (Option.some_injective T)).eq_iff.symm

@[simp] theorem length_asSlice (v : ArrayVec T CAP) : v.asSlice.length = v.len := by
  have hlen := congrArg List.length v.map_some_asSlice
  rwa [List.length_map, List.length_take, v.length_data, Nat.min_eq_left v.len_le] at hlen

theorem isSome_of_eq_map {places : List (Option T)} {l : List T} (h : places = l.map some) :
    ∀ place ∈ places, place.isSome := by
  intro place hplace
  rw [h] at hplace
  obtain ⟨x, -, rfl⟩ := List.mem_map.1 hplace
  rfl

/-! ## Operations -/

/-- `ArrayVec::new`. -/
def new : ArrayVec T CAP := ⟨0, List.replicate CAP.toNat none, List.length_replicate, Nat.zero_le _, nofun⟩

/-- The loop of `from_slice`, from the place `i` on. -/
def initFrom : ℕ → List T → List (Option T) → Outcome Empty (List (Option T))
  | _, [], data => .ok data
  | i, x :: slice, data => do
    .require (i < data.length) .outOfBounds
    initFrom (i + 1) slice (data.set i (some x))

/-- A place that is written comes behind the ones before it. -/
theorem take_set {α : Type} {data : List α} {i : ℕ} (h : i < data.length) (x : α) :
    (data.set i x).take (i + 1) = data.take i ++ [x] := by
  have hlen : (data.take i).length = i := List.length_take_of_le (Nat.le_of_lt h)
  rw [List.set_eq_take_append_cons_drop, if_pos h, List.take_append, List.take_of_length_le (by omega), hlen,
    Nat.add_sub_cancel_left, List.take_succ_cons, List.take_zero]

theorem initFrom_eq {i : ℕ} {slice : List T} {data : List (Option T)} (h : i + slice.length ≤ data.length) :
    initFrom i slice data = .ok (data.take i ++ slice.map some ++ data.drop (i + slice.length)) := by
  induction slice generalizing i data with
  | nil =>
    rw [initFrom, List.map_nil, List.append_nil, List.length_nil, Nat.add_zero, List.take_append_drop]
  | cons x slice ih =>
    rw [List.length_cons] at h
    have hi : i < data.length := by omega
    have hsum : i + 1 + slice.length = i + (slice.length + 1) := by omega
    rw [initFrom, Outcome.require_of hi, Outcome.ok_bind, ih (by rw [List.length_set]; omega), take_set hi,
      List.drop_set_of_lt (by omega), List.length_cons, List.map_cons, List.append_assoc (data.take i), hsum]
    rfl

theorem initFrom_new {slice : List T} (h : slice.length ≤ CAP.toNat) :
    initFrom 0 slice (List.replicate CAP.toNat none) =
      .ok (slice.map some ++ (List.replicate CAP.toNat none).drop slice.length) := by
  rw [initFrom_eq (by rwa [List.length_replicate, Nat.zero_add]), List.take_zero, List.nil_append, Nat.zero_add]

/-- `ArrayVec::from_slice`. -/
def fromSlice (slice : List T) : Outcome Empty (ArrayVec T CAP) :=
  if h : slice.length ≤ CAP.toNat then
    match hdata : initFrom 0 slice (List.replicate CAP.toNat none) with
    | .ok data =>
      have hdata' : data = slice.map some ++ (List.replicate CAP.toNat none).drop slice.length :=
        Outcome.ok.inj (hdata.symm.trans (initFrom_new h))
      .ok
        { len := slice.length
          data
          length_data := by
            rw [hdata', List.length_append, List.length_map, List.length_drop, List.length_replicate]
            omega
          len_le := h
          init := isSome_of_eq_map (l := slice) (by rw [hdata', List.take_left' (List.length_map some)]) }
    | .err e => e.elim
    | .panic p => .panic p
  else .panic .assertion

theorem take_push (v : ArrayVec T CAP) (h : v.len < CAP.toNat) (element : T) :
    (v.data.set v.len (some element)).take (v.len + 1) = (v.asSlice ++ [element]).map some := by
  rw [take_set (by rwa [v.length_data]), List.map_append, map_some_asSlice, List.map_singleton]

/-- `ArrayVec::push`. -/
def push (v : ArrayVec T CAP) (element : T) : Outcome Empty (ArrayVec T CAP) :=
  if h : v.len < CAP.toNat then
    .ok
      { len := v.len + 1
        data := v.data.set v.len (some element)
        length_data := by rw [List.length_set, v.length_data]
        len_le := h
        init := isSome_of_eq_map (v.take_push h element) }
  else .panic .assertion

theorem take_extend (v : ArrayVec T CAP) (slice : List T) :
    (v.data.take v.len ++ slice.map some).take (v.len + slice.length) = (v.asSlice ++ slice).map some := by
  rw [← map_some_asSlice, ← List.map_append]
  apply List.take_of_length_le
  apply Nat.le_of_eq
  rw [List.length_map, List.length_append, length_asSlice]

/-- The places behind the contents. -/
theorem length_free (v : ArrayVec T CAP) : (v.data.drop v.len).length = CAP.toNat - v.len := by
  rw [List.length_drop, v.length_data]

theorem length_free_eq_iff {v : ArrayVec T CAP} {slice : List T} :
    (v.data.drop v.len).length = slice.length ↔ v.len + slice.length = CAP.toNat := by
  have hle := v.len_le
  rw [v.length_free]
  omega

/-- `self.data[self.len..].copy_from_slice(slice)` and the new length. -/
def copied (v : ArrayVec T CAP) (slice : List T) (h : (v.data.drop v.len).length = slice.length) : ArrayVec T CAP where
  len := v.len + slice.length
  data := v.data.take v.len ++ slice.map some
  length_data := by
    rw [List.length_append, List.length_map, List.length_take, v.length_data, Nat.min_eq_left v.len_le,
      length_free_eq_iff.1 h]
  len_le := Nat.le_of_eq (length_free_eq_iff.1 h)
  init := isSome_of_eq_map (v.take_extend slice)

/-- `ArrayVec::extend_from_slice`. -/
def extendFromSlice (v : ArrayVec T CAP) (slice : List T) : Outcome Empty (ArrayVec T CAP) := do
  let newLen := v.len + slice.length
  .require (newLen < 2 ^ 64) .unwrap
  .require (newLen ≤ CAP.toNat) .assertion
  -- all of the places from `len` on are copied to, and `copy_from_slice` panics unless the slice has as many elements
  if h : (v.data.drop v.len).length = slice.length then return v.copied slice h else .panic .assertion

/-! ## What the operations do -/

theorem asSlice_new : (new : ArrayVec T CAP).asSlice = [] := rfl

theorem fromSlice_of_le {slice : List T} (h : slice.length ≤ CAP.toNat) :
    ∃ v : ArrayVec T CAP, fromSlice slice = .ok v ∧ v.asSlice = slice := by
  rw [fromSlice, dif_pos h]
  split
  next data hdata =>
    refine ⟨_, rfl, asSlice_eq_iff.2 ?_⟩
    change data.take slice.length = slice.map some
    rw [Outcome.ok.inj (hdata.symm.trans (initFrom_new h)), List.take_left' (List.length_map some)]
  next e _ => exact e.elim
  next p hdata =>
    rw [initFrom_new h] at hdata
    cases hdata

theorem push_of_lt {v : ArrayVec T CAP} (h : v.len < CAP.toNat) (element : T) :
    ∃ v', v.push element = .ok v' ∧ v'.asSlice = v.asSlice ++ [element] :=
  ⟨_, dif_pos h, asSlice_eq_iff.2 (v.take_push h element)⟩

theorem asSlice_copied {v : ArrayVec T CAP} {slice : List T} (h : (v.data.drop v.len).length = slice.length) :
    (v.copied slice h).asSlice = v.asSlice ++ slice :=
  asSlice_eq_iff.2 (v.take_extend slice)

theorem extendFromSlice_of_eq {v : ArrayVec T CAP} {slice : List T} (h : v.len + slice.length = CAP.toNat) :
    ∃ v', v.extendFromSlice slice = .ok v' ∧ v'.asSlice = v.asSlice ++ slice := by
  have hmax := CAP.toNat_lt
  have hfree := length_free_eq_iff.2 h
  refine ⟨v.copied slice hfree, ?_, asSlice_copied hfree⟩
  rw [extendFromSlice, Outcome.require_of (by omega), Outcome.ok_bind, Outcome.require_of (by omega), Outcome.ok_bind,
    dif_pos hfree]
  rfl

/-- Also a slice that is too short for the free places is refused. -/
theorem extendFromSlice_of_ne {v : ArrayVec T CAP} {slice : List T} (h : v.len + slice.length ≠ CAP.toNat) :
    ∃ p, v.extendFromSlice slice = .panic p := by
  rw [extendFromSlice]
  by_cases hsum : v.len + slice.length < 2 ^ 64
  · rw [Outcome.require_of hsum, Outcome.ok_bind]
    by_cases hfits : v.len + slice.length ≤ CAP.toNat
    · rw [Outcome.require_of hfits, Outcome.ok_bind, dif_neg fun hfree => h (length_free_eq_iff.1 hfree)]
      exact ⟨_, rfl⟩
    · rw [Outcome.require, if_neg hfits]
      exact ⟨_, rfl⟩
  · rw [Outcome.require, if_neg hsum]
    exact ⟨_, rfl⟩

/-! ## Runs -/

/-- The constructors, which start over, and the operations. -/
inductive Op (T : Type) where
  | new
  | fromSlice (slice : List T)
  | push (element : T)
  | extendFromSlice (slice : List T)
  deriving DecidableEq, Repr

namespace Op

def run : Op T → ArrayVec T CAP → Outcome Empty (ArrayVec T CAP)
  | new, _ => .ok .new
  | fromSlice slice, _ => ArrayVec.fromSlice slice
  | push element, v => v.push element
  | extendFromSlice slice, v => v.extendFromSlice slice

/-- The operation on a list. -/
def apply : Op T → List T → List T
  | new, _ => []
  | fromSlice slice, _ => slice
  | push element, l => l ++ [element]
  | extendFromSlice slice, l => l ++ slice

/-- The list stays within the capacity. -/
def Fits (CAP : UInt64) (op : Op T) (l : List T) : Prop := (op.apply l).length ≤ CAP.toNat

/-- What is extended becomes as long as the capacity. -/
def Fills (CAP : UInt64) : Op T → List T → Prop
  | extendFromSlice slice, l => (l ++ slice).length = CAP.toNat
  | _, _ => True

instance (op : Op T) (l : List T) : Decidable (op.Fits CAP l) := Nat.decLe _ _

instance : ∀ (op : Op T) (l : List T), Decidable (op.Fills CAP l)
  | new, _ | fromSlice _, _ | push _, _ => isTrue trivial
  | extendFromSlice _, _ => Nat.decEq _ _

/-- An operation that fits, and fills the array if it extends, does what it does on the list. -/
theorem run_of_fits {op : Op T} {v : ArrayVec T CAP} (hfits : op.Fits CAP v.asSlice) (hfills : op.Fills CAP v.asSlice) :
    ∃ v', op.run v = .ok v' ∧ v'.asSlice = op.apply v.asSlice := by
  cases op with
  | new => exact ⟨.new, rfl, asSlice_new⟩
  | fromSlice slice => exact fromSlice_of_le hfits
  | push element =>
    have hlen : v.asSlice.length + 1 ≤ CAP.toNat := by simpa [Fits, apply] using hfits
    rw [length_asSlice] at hlen
    exact push_of_lt hlen element
  | extendFromSlice slice =>
    have hlen : (v.asSlice ++ slice).length = CAP.toNat := hfills
    rw [List.length_append, length_asSlice] at hlen
    exact extendFromSlice_of_eq hlen

theorem panics_of_not {op : Op T} {v : ArrayVec T CAP} (h : ¬(op.Fits CAP v.asSlice ∧ op.Fills CAP v.asSlice)) :
    ∃ p, op.run v = .panic p := by
  cases op with
  | new => exact absurd ⟨Nat.zero_le _, trivial⟩ h
  | fromSlice slice => exact ⟨.assertion, dif_neg fun hfits => h ⟨hfits, trivial⟩⟩
  | push element =>
    refine ⟨.assertion, dif_neg fun hlen => h ⟨?_, trivial⟩⟩
    rw [Fits, apply, List.length_append, length_asSlice]
    exact hlen
  | extendFromSlice slice =>
    refine extendFromSlice_of_ne fun hlen => h ?_
    have hfills : (v.asSlice ++ slice).length = CAP.toNat := by rw [List.length_append, length_asSlice, hlen]
    exact ⟨Nat.le_of_eq hfills, hfills⟩

/-- An operation that returns was one that fits and fills, and did what it does on the list. -/
theorem of_run_eq_ok {op : Op T} {v v' : ArrayVec T CAP} (h : op.run v = .ok v') :
    op.Fits CAP v.asSlice ∧ op.Fills CAP v.asSlice ∧ v'.asSlice = op.apply v.asSlice := by
  by_cases hboth : op.Fits CAP v.asSlice ∧ op.Fills CAP v.asSlice
  · obtain ⟨v'', hrun, hslice⟩ := run_of_fits hboth.1 hboth.2
    rw [hrun] at h
    cases h
    exact ⟨hboth.1, hboth.2, hslice⟩
  · obtain ⟨p, hpanic⟩ := panics_of_not hboth
    rw [hpanic] at h
    cases h

end Op

def runAll (v : ArrayVec T CAP) (ops : List (Op T)) : Outcome Empty (ArrayVec T CAP) :=
  ops.foldlM (fun v op => op.run v) v

/-- The list after the operations. -/
def contents (l : List T) (ops : List (Op T)) : List T := ops.foldl (fun l op => op.apply l) l

/-- The list stays within the capacity. -/
def AllFit (CAP : UInt64) : List T → List (Op T) → Prop
  | _, [] => True
  | l, op :: ops => op.Fits CAP l ∧ AllFit CAP (op.apply l) ops

/-- As long as the list stays within the capacity, every slice that it is extended by fills the array. -/
def AllFill (CAP : UInt64) : List T → List (Op T) → Prop
  | _, [] => True
  | l, op :: ops => op.Fits CAP l → op.Fills CAP l ∧ AllFill CAP (op.apply l) ops

/-- The operations do what they do on a list as long as this stays within the capacity, and the first one that would
exceed it panics. -/
def AsOnLists (v : ArrayVec T CAP) : List (Op T) → Prop
  | [] => True
  | op :: ops =>
    (op.Fits CAP v.asSlice → ∃ v', op.run v = .ok v' ∧ v'.asSlice = op.apply v.asSlice ∧ AsOnLists v' ops) ∧
      (¬op.Fits CAP v.asSlice → ∃ p, op.run v = .panic p)

variable {v : ArrayVec T CAP} {ops : List (Op T)}

theorem asOnLists_iff_allFill : v.AsOnLists ops ↔ AllFill CAP v.asSlice ops := by
  induction ops generalizing v with
  | nil => exact Iff.rfl
  | cons op ops ih =>
    constructor
    · rintro ⟨hok, -⟩ hfits
      obtain ⟨v', hrun, hslice, hrest⟩ := hok hfits
      refine ⟨(Op.of_run_eq_ok hrun).2.1, ?_⟩
      rw [← hslice]
      exact ih.1 hrest
    · intro h
      refine ⟨fun hfits => ?_, fun hfits => Op.panics_of_not fun h => hfits h.1⟩
      obtain ⟨hfills, hrest⟩ := h hfits
      obtain ⟨v', hrun, hslice⟩ := Op.run_of_fits hfits hfills
      rw [← hslice] at hrest
      exact ⟨v', hrun, hslice, ih.2 hrest⟩

/-- Where nothing exceeds the capacity, the whole run returns the list. -/
theorem asOnLists_iff_runAll (h : AllFit CAP v.asSlice ops) :
    v.AsOnLists ops ↔ ∃ v', v.runAll ops = .ok v' ∧ v'.asSlice = contents v.asSlice ops := by
  induction ops generalizing v with
  | nil => exact iff_of_true trivial ⟨v, rfl, rfl⟩
  | cons op ops ih =>
    obtain ⟨hfits, hrest⟩ := h
    constructor
    · rintro ⟨hok, -⟩
      obtain ⟨v', hrun, hslice, hops⟩ := hok hfits
      rw [← hslice] at hrest
      obtain ⟨v'', hruns, hslices⟩ := (ih hrest).1 hops
      refine ⟨v'', ?_, ?_⟩
      · rw [runAll, List.foldlM_cons, hrun]
        exact hruns
      · rw [hslices, hslice]
        rfl
    · rintro ⟨v'', hruns, hslices⟩
      rw [runAll, List.foldlM_cons] at hruns
      obtain ⟨v', hrun, hruns⟩ := Outcome.bind_eq_ok_iff.1 hruns
      obtain ⟨-, -, hslice⟩ := Op.of_run_eq_ok hrun
      rw [← hslice] at hrest
      refine ⟨fun _ => ⟨v', hrun, hslice, (ih hrest).2 ⟨v'', hruns, ?_⟩⟩, fun hnot => absurd hfits hnot⟩
      rw [hslices, hslice]
      rfl

/-- From an empty vector the operations do what they do on a list exactly if every slice that is to be appended fills
the array. -/
theorem operations_as_on_lists_iff (CAP : UInt64) (ops : List (Op T)) :
    ((new : ArrayVec T CAP).AsOnLists ops ↔ AllFill CAP [] ops) ∧
      (AllFit CAP [] ops → ((new : ArrayVec T CAP).AsOnLists ops ↔
        ∃ v, (new : ArrayVec T CAP).runAll ops = .ok v ∧ v.asSlice = contents [] ops)) :=
  ⟨asOnLists_iff_allFill (v := new), asOnLists_iff_runAll (v := new)⟩

/-- An array of two that one push and one more element fill. -/
theorem operations_as_on_lists_filled :
    (new : ArrayVec UInt8 2).AsOnLists [.push 1, .extendFromSlice [2]] ∧
      ∃ v, (new : ArrayVec UInt8 2).runAll [.push 1, .extendFromSlice [2]] = .ok v ∧ v.asSlice = [1, 2] := by
  obtain ⟨hiff, hruns⟩ := operations_as_on_lists_iff (T := UInt8) 2 [.push 1, .extendFromSlice [2]]
  have hall := hiff.2 fun _ => ⟨trivial, fun _ => ⟨by decide, trivial⟩⟩
  exact ⟨hall, (hruns ⟨by decide, by decide, trivial⟩).1 hall⟩

/-- One element stays within a capacity of two, but it does not fill the array. -/
theorem extendFromSlice_short :
    AllFit 2 [] [Op.extendFromSlice [(1 : UInt8)]] ∧
      (new : ArrayVec UInt8 2).extendFromSlice [1] = .panic .assertion ∧
      ¬(new : ArrayVec UInt8 2).AsOnLists [.extendFromSlice [1]] := by
  have hpanic : (new : ArrayVec UInt8 2).extendFromSlice [1] = .panic .assertion := by decide
  have hfits : Op.Fits 2 (.extendFromSlice [(1 : UInt8)]) [] := by decide
  refine ⟨⟨hfits, trivial⟩, hpanic, fun h => ?_⟩
  obtain ⟨v, hrun, -⟩ := h.1 hfits
  cases hpanic.symm.trans hrun

end ArrayVec

end RustDogecoin
