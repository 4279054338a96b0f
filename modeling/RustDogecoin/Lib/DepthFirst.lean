import Mathlib.Algebra.Order.Ring.Rat
import Mathlib.Data.List.Basic
import Mathlib.Order.Nat
import Mathlib.Tactic.Common
import Mathlib.Tactic.Ring

/-!
# Building a binary tree from a depth-first walk

The leaves of a full binary tree, left to right, each with its depth, determine the tree.  A builder
that is fed these leaves keeps a *spine*: for every level down to the last leaf, the finished left
subtree that waits there for its right sibling, if there is one.  Spines are written deepest level
first.

`put` adds a subtree to a spine, joining it with the left siblings it completes.  Nothing that is put
is lost or moved (`spineWalk_put`), a subtree that is put whole does the same as its leaves put one by
one (`run_walk`), and a spine with an open root can always be completed (`walk_close`), so that with
an open root the sequences that are accepted are the beginnings of walks (`run_isSome_iff`).
-/

namespace DepthFirst

variable {α β : Type}

/-- Full binary trees. -/
inductive LeafTree (α : Type) where
  | leaf (a : α)
  | node (l r : LeafTree α)

namespace LeafTree

/-- The leaves from left to right with their depths, the root being at depth `d`. -/
def walk : LeafTree α → ℕ → List (ℕ × α)
  | leaf a, d => [(d, a)]
  | node l r, d => l.walk (d + 1) ++ r.walk (d + 1)

def map (f : α → β) : LeafTree α → LeafTree β
  | leaf a => leaf (f a)
  | node l r => node (l.map f) (r.map f)

/-- The leaves from left to right. -/
def leaves (t : LeafTree α) : List α := (t.walk 0).map Prod.snd

/-- The depths of the leaves from left to right. -/
def depths (t : LeafTree α) : List ℕ := (t.walk 0).map Prod.fst

theorem walk_eq_map (t : LeafTree α) (d : ℕ) : t.walk d = (t.walk 0).map fun p => (p.1 + d, p.2) := by
  induction t generalizing d with
  | leaf a => simp [walk]
  | node l r ihl ihr =>
    rw [walk, walk, ihl (d + 1), ihr (d + 1), ihl (0 + 1), ihr (0 + 1)]
    simp [Function.comp_def, Nat.add_assoc, Nat.add_comm 1 d]

theorem walk_map (f : α → β) (t : LeafTree α) (d : ℕ) : (t.map f).walk d = (t.walk d).map (Prod.map id f) := by
  induction t generalizing d with
  | leaf a => rfl
  | node l r ihl ihr => rw [map, walk, walk, ihl, ihr, List.map_append]

theorem map_snd_walk (t : LeafTree α) (d : ℕ) : (t.walk d).map Prod.snd = t.leaves := by
  rw [leaves, walk_eq_map, List.map_map]
  rfl

theorem leaves_node (l r : LeafTree α) : (node l r).leaves = l.leaves ++ r.leaves := by
  rw [leaves, walk, List.map_append, map_snd_walk, map_snd_walk]

/-- The share of the tree that leaves at these depths take up. -/
def share (ds : List ℕ) : ℚ := (ds.map fun d => 1 / 2 ^ d).sum

theorem share_cons (d : ℕ) (ds : List ℕ) : share (d :: ds) = 1 / 2 ^ d + share ds := by
  rw [share, List.map_cons, List.sum_cons]
  rfl

theorem share_append (xs ys : List ℕ) : share (xs ++ ys) = share xs + share ys := by
  rw [share, List.map_append, List.sum_append]
  rfl

theorem share_succ (ds : List ℕ) : share (ds.map (· + 1)) = share ds / 2 := by
  induction ds with
  | nil => simp [share]
  | cons d ds ih =>
    rw [List.map_cons, share_cons, share_cons, ih]
    ring

/-- The leaves of a tree take up all of it. -/
theorem share_depths (t : LeafTree α) : share t.depths = 1 := by
  induction t with
  | leaf a => simp [share, depths, walk]
  | node l r ihl ihr =>
    have hchild : ∀ t : LeafTree α, (t.walk (0 + 1)).map Prod.fst = t.depths.map (· + 1) := by
      intro t
      rw [walk_eq_map, depths, List.map_map, List.map_map]
      rfl
    rw [depths, walk, List.map_append, hchild, hchild, share_append, share_succ, share_succ, ihl, ihr]
    norm_num

/-- Depths only grow when the root is moved down. -/
theorem forall_walk_le_of_le {t : LeafTree α} {d e bound : ℕ} (h : d ≤ e)
    (hb : ∀ p ∈ t.walk e, p.1 ≤ bound) : ∀ p ∈ t.walk d, p.1 ≤ bound := by
  rw [walk_eq_map] at hb ⊢
  intro p hp
  obtain ⟨q, hq, rfl⟩ := List.mem_map.1 hp
  have := hb _ (List.mem_map.2 ⟨q, hq, rfl⟩)
  dsimp only at this ⊢
  omega

end LeafTree

open LeafTree

/-- For every level, deepest first, the left sibling that waits there. -/
abbrev Spine (α : Type) := List (Option (LeafTree α))

/-- Everything that hangs on a spine, from left to right. -/
def spineWalk : Spine α → List (ℕ × α)
  | [] => []
  | none :: es => spineWalk es
  | some t :: es => spineWalk es ++ t.walk es.length

/-- The subtree `t` at depth `d`, behind everything on the spine. -/
def put : Spine α → LeafTree α → ℕ → Option (Spine α)
  | [], t, d => some (some t :: List.replicate d none)
  | e :: es, t, d =>
    if d < es.length then none
    else if d = es.length then
      match e with
      | none => some (some t :: es)
      | some s => if d = 0 then none else put es (node s t) (d - 1)
    else some (some t :: (List.replicate (d - (es.length + 1)) none ++ e :: es))

/-- Leaves put one by one. -/
def run : Spine α → List (ℕ × α) → Option (Spine α)
  | es, [] => some es
  | es, (d, a) :: calls => (put es (leaf a) d).bind fun es' => run es' calls

/-! ## Putting a subtree -/

theorem put_of_length_le {es : Spine α} {d : ℕ} (h : es.length ≤ d) (t : LeafTree α) :
    put es t d = some (some t :: (List.replicate (d - es.length) none ++ es)) := by
  cases es with
  | nil => simp [put]
  | cons e es =>
    rw [List.length_cons] at h
    simp only [put]
    rw [if_neg (by omega), if_neg (by omega), List.length_cons]

theorem put_of_lt {e : Option (LeafTree α)} {es : Spine α} {d : ℕ} (h : d < es.length) (t : LeafTree α) :
    put (e :: es) t d = none := by
  simp only [put]
  rw [if_pos h]

theorem put_none (es : Spine α) (t : LeafTree α) : put (none :: es) t es.length = some (some t :: es) := by
  rw [put, if_neg (lt_irrefl _), if_pos rfl]

theorem put_some (es : Spine α) (s t : LeafTree α) {d : ℕ} (h : es.length = d + 1) :
    put (some s :: es) t (d + 1) = put es (node s t) d := by
  rw [put, if_neg (by omega), if_pos h.symm]
  simp

/-- When a subtree is refused: a deeper level is open, or every level up to the root is taken. -/
theorem put_eq_none_iff (es : Spine α) (t : LeafTree α) (d : ℕ) :
    put es t d = none ↔
      d + 1 < es.length ∨ (es.length = d + 1 ∧ ∀ e ∈ es, e.isSome) := by
  induction es generalizing t d with
  | nil => simp [put]
  | cons e es ih =>
    rcases lt_trichotomy d es.length with hd | rfl | hd
    · rw [put_of_lt hd, List.length_cons]
      exact iff_of_true rfl (Or.inl (by omega))
    · cases e with
      | none => simp [put_none]
      | some s =>
        cases hes : es with
        | nil => simp [put]
        | cons e' es' =>
          have h := ih (node s t) es'.length
          rw [hes, List.length_cons] at h
          rw [List.length_cons, put_some _ _ _ (by simp), h]
          simp
    · rw [put_of_length_le (by rw [List.length_cons]; exact hd), List.length_cons]
      simp
      omega

/-- The ways in which a subtree is put: it waits on a level that no one waits on, or it is joined with
the subtree that waits on its level, and their parent is put. -/
inductive Puts : Spine α → LeafTree α → ℕ → Spine α → Prop
  | fresh {es : Spine α} {t : LeafTree α} {d : ℕ} (h : es.length ≤ d) :
    Puts es t d (some t :: (List.replicate (d - es.length) none ++ es))
  | free (es : Spine α) (t : LeafTree α) : Puts (none :: es) t es.length (some t :: es)
  | join {es es' : Spine α} {s t : LeafTree α} {d : ℕ} (h : es.length = d + 1) :
    Puts es (node s t) d es' → Puts (some s :: es) t (d + 1) es'

theorem puts_of_put {es es' : Spine α} {t : LeafTree α} {d : ℕ} (h : put es t d = some es') :
    Puts es t d es' := by
  induction es generalizing t d with
  | nil =>
    rw [put_of_length_le (Nat.zero_le d)] at h
    cases h
    exact .fresh (Nat.zero_le d)
  | cons e es ih =>
    rcases lt_trichotomy d es.length with hd | rfl | hd
    · rw [put_of_lt hd] at h
      cases h
    · cases e with
      | none =>
        rw [put_none] at h
        cases h
        exact .free es t
      | some s =>
        cases hlen : es.length with
        | zero =>
          rw [List.length_eq_zero_iff.1 hlen] at h
          simp [put] at h
        | succ d =>
          rw [hlen, put_some _ _ _ hlen] at h
          exact .join hlen (ih h)
    · have hle : (e :: es).length ≤ d := hd
      rw [put_of_length_le hle] at h
      cases h
      exact .fresh hle

/-- What is put comes behind what was there. -/
theorem spineWalk_put {es es' : Spine α} {t : LeafTree α} {d : ℕ} (h : put es t d = some es') :
    spineWalk es' = spineWalk es ++ t.walk d := by
  have hpad : ∀ (n : ℕ) (es : Spine α), spineWalk (List.replicate n none ++ es) = spineWalk es := by
    intro n es
    induction n with
    | zero => rfl
    | succ n ih => rw [List.replicate_succ, List.cons_append, spineWalk, ih]
  replace h := puts_of_put h
  induction h with
  | fresh hle =>
    rw [spineWalk, hpad]
    congr 2
    simp
    omega
  | free es t => rfl
  | join hlen _ ih => rw [ih, spineWalk, walk, hlen, List.append_assoc]

theorem spineWalk_run {es es' : Spine α} {calls : List (ℕ × α)} (h : run es calls = some es') :
    spineWalk es' = spineWalk es ++ calls := by
  induction calls generalizing es with
  | nil =>
    cases h
    simp
  | cons call calls ih =>
    obtain ⟨es₁, h₁, h₂⟩ := Option.bind_eq_some_iff.1 h
    rw [ih h₂, spineWalk_put h₁, walk, List.append_assoc, List.singleton_append]

theorem run_append (es : Spine α) (xs ys : List (ℕ × α)) :
    run es (xs ++ ys) = (run es xs).bind fun es' => run es' ys := by
  induction xs generalizing es with
  | nil => rfl
  | cons x xs ih => simp [run, Option.bind_assoc, ih]

/-- The leaves of a subtree put one by one do what the subtree does. -/
theorem run_walk (t : LeafTree α) {es : Spine α} {d : ℕ} (h : es.length ≤ d + 1) :
    run es (t.walk d) = put es t d := by
  induction t generalizing es d with
  | leaf a => simp [walk, run]
  | node l r ihl ihr =>
    have hlen : (List.replicate (d + 1 - es.length) (none : Option (LeafTree α)) ++ es).length = d + 1 := by
      simp
      omega
    rw [walk, run_append, ihl (by omega), put_of_length_le h, Option.bind_some,
      ihr (by rw [List.length_cons, hlen]), put_some _ _ _ hlen]
    -- the left subtree has opened the levels above it, which the join now finds empty
    rcases Nat.lt_or_ge d es.length with hd | hd
    · rw [show d + 1 - es.length = 0 by omega]
      rfl
    · rw [put_of_length_le hd, show d + 1 - es.length = (d - es.length) + 1 by omega,
        List.replicate_succ, List.cons_append]
      have htail : (List.replicate (d - es.length) (none : Option (LeafTree α)) ++ es).length = d := by
        simp
        omega
      have hput := put_none (List.replicate (d - es.length) (none : Option (LeafTree α)) ++ es) (node l r)
      rwa [htail] at hput

theorem run_walk_zero (t : LeafTree α) : run [] (t.walk 0) = some [some t] := by
  rw [run_walk t (Nat.zero_le _)]
  rfl

/-! ## Labels -/

theorem put_map (f : α → β) (es : Spine α) (t : LeafTree α) (d : ℕ) :
    put (es.map (Option.map (LeafTree.map f))) (t.map f) d =
      (put es t d).map (List.map (Option.map (LeafTree.map f))) := by
  induction es generalizing t d with
  | nil => simp [put]
  | cons e es ih =>
    rcases lt_trichotomy d es.length with hd | rfl | hd
    · simp [put, hd]
    · cases e with
      | none => simp [put]
      | some s =>
        cases hes : es.length with
        | zero => simp [put, hes]
        | succ d =>
          rw [List.map_cons, Option.map_some, put_some _ _ _ (by rw [List.length_map, hes]),
            put_some _ _ _ hes, ← ih]
          rfl
    · rw [put_of_length_le (by simp; omega), put_of_length_le (by simp; omega)]
      simp

theorem run_map (f : α → β) (es : Spine α) (calls : List (ℕ × α)) :
    run (es.map (Option.map (LeafTree.map f))) (calls.map (Prod.map id f)) =
      (run es calls).map (List.map (Option.map (LeafTree.map f))) := by
  induction calls generalizing es with
  | nil => rfl
  | cons call calls ih =>
    have hput := put_map f es (leaf call.2) call.1
    simp only [LeafTree.map] at hput
    simp only [List.map_cons, run, Prod.map_fst, Prod.map_snd, id_eq, hput]
    cases put es (leaf call.2) call.1 with
    | none => rfl
    | some es' => simp [ih]

/-! ## Open roots -/

/-- The root is not finished. -/
def RootOpen (es : Spine α) : Prop := es = [] ∨ es.getLast? = some none

theorem rootOpen_append (xs : Spine α) {es : Spine α} (h : es ≠ []) :
    RootOpen (xs ++ es) ↔ RootOpen es := by
  have hlast : (xs ++ es).getLast? = es.getLast? := by
    rw [List.getLast?_append, List.getLast?_eq_some_getLast h, Option.some_or]
  simp [RootOpen, hlast, h]

theorem rootOpen_cons (e : Option (LeafTree α)) {es : Spine α} (h : es ≠ []) :
    RootOpen (e :: es) ↔ RootOpen es := rootOpen_append [e] h

theorem rootOpen_singleton (e : Option (LeafTree α)) : RootOpen [e] ↔ e = none := by simp [RootOpen]

/-- A subtree put on a spine with an open root leaves the root open, or is the last one. -/
theorem RootOpen.put {es es' : Spine α} (hes : RootOpen es) {t : LeafTree α} {d : ℕ}
    (h : put es t d = some es') : RootOpen es' ∨ ∃ t', es' = [some t'] := by
  replace h := puts_of_put h
  induction h with
  | @fresh es t d hle =>
    by_cases hnil : es = []
    · subst hnil
      cases d with
      | zero => exact Or.inr ⟨t, rfl⟩
      | succ d =>
        left
        rw [List.append_nil, List.length_nil, Nat.sub_zero, rootOpen_cons _ (by simp),
          List.replicate_succ', rootOpen_append _ (by simp), rootOpen_singleton]
    · left
      rwa [rootOpen_cons _ (by simp [hnil]), rootOpen_append _ hnil]
  | free es t =>
    by_cases hnil : es = []
    · exact Or.inr ⟨t, by rw [hnil]⟩
    · left
      rw [rootOpen_cons _ hnil] at hes ⊢
      exact hes
  | join hlen _ ih =>
    apply ih
    rwa [rootOpen_cons _ (List.length_pos_iff.1 (by omega))] at hes

/-- A spine with a finished root keeps it, and more waits below. -/
theorem put_of_not_rootOpen {es es' : Spine α} (hes : ¬RootOpen es) {t : LeafTree α} {d : ℕ}
    (h : put es t d = some es') : ¬RootOpen es' ∧ 1 < es'.length := by
  have hne : ∀ {es : Spine α}, ¬RootOpen es → es ≠ [] := fun hes hnil => hes (Or.inl hnil)
  replace h := puts_of_put h
  induction h with
  | @fresh es t d hle =>
    have hpos := List.length_pos_iff.2 (hne hes)
    rw [rootOpen_cons _ (by simp [hne hes]), rootOpen_append _ (hne hes)]
    refine ⟨hes, ?_⟩
    simp only [List.length_cons, List.length_append]
    omega
  | free es t =>
    have hnil : es ≠ [] := by
      rintro rfl
      exact hes ((rootOpen_singleton _).2 rfl)
    have hpos := List.length_pos_iff.2 hnil
    rw [rootOpen_cons _ hnil] at hes ⊢
    exact ⟨hes, Nat.succ_lt_succ hpos⟩
  | join hlen _ ih =>
    apply ih
    rwa [rootOpen_cons _ (List.length_pos_iff.1 (by omega))] at hes

/-- Once the root is finished and something else has been put, no single tree comes out. -/
theorem run_of_not_rootOpen {es es' : Spine α} (hes : ¬RootOpen es) {calls : List (ℕ × α)}
    (hne : calls ≠ []) (h : run es calls = some es') : 1 < es'.length := by
  induction calls generalizing es with
  | nil => exact absurd rfl hne
  | cons call calls ih =>
    obtain ⟨es₁, h₁, h₂⟩ := Option.bind_eq_some_iff.1 h
    obtain ⟨hroot, hlen⟩ := put_of_not_rootOpen hes h₁
    cases calls with
    | nil =>
      cases h₂
      exact hlen
    | cons call' calls' => exact ih hroot (by simp) h₂

/-! ## Completing a walk -/

/-- The tree around the subtree `x` at the deepest level of a spine, with `a` wherever something is
still to come. -/
def close (a : α) : Spine α → LeafTree α → LeafTree α
  | [], x => x
  | some s :: es, x => if es = [] then x else close a es (node s x)
  | none :: es, x => if es = [] then x else close a es (node x (leaf a))

theorem walk_close (a : α) (es : Spine α) (hes : es.getLast? = some none) (x : LeafTree α) :
    ∃ rest : List (ℕ × α), (∀ p ∈ rest, p.1 < es.length) ∧
      (close a es x).walk 0 = spineWalk es ++ x.walk (es.length - 1) ++ rest := by
  induction es generalizing x with
  | nil => cases hes
  | cons e es ih =>
    rcases eq_or_ne es [] with rfl | hne
    · cases hes
      exact ⟨[], by simp, by simp [close, spineWalk]⟩
    · have hlast : es.getLast? = some none := by
        rw [List.getLast?_cons_of_ne_nil hne] at hes
        exact hes
      have hlen : es.length - 1 + 1 = es.length := Nat.sub_add_cancel (List.length_pos_iff.2 hne)
      cases e with
      | some s =>
        obtain ⟨rest, hrest, hwalk⟩ := ih hlast (node s x)
        refine ⟨rest, fun p hp => (hrest p hp).trans (Nat.lt_succ_self _), ?_⟩
        rw [close, if_neg hne, hwalk, spineWalk, walk, hlen, List.length_cons, Nat.add_sub_cancel]
        simp only [List.append_assoc]
      | none =>
        obtain ⟨rest, hrest, hwalk⟩ := ih hlast (node x (leaf a))
        refine ⟨(es.length, a) :: rest, ?_, ?_⟩
        · intro p hp
          rcases List.mem_cons.1 hp with rfl | hp
          · exact Nat.lt_succ_self _
          · exact (hrest p hp).trans (Nat.lt_succ_self _)
        · rw [close, if_neg hne, hwalk, spineWalk, walk, walk, hlen, List.length_cons,
            Nat.add_sub_cancel]
          simp only [List.append_assoc, List.singleton_append]

theorem length_put_le {es es' : Spine α} {t : LeafTree α} {d : ℕ} (h : put es t d = some es') :
    es'.length ≤ d + 1 := by
  replace h := puts_of_put h
  induction h with
  | fresh hle =>
    simp
    omega
  | free es t => exact le_rfl
  | join hlen _ ih => exact ih.trans (Nat.le_succ _)

theorem length_run_le {es es' : Spine α} {calls : List (ℕ × α)} {bound : ℕ}
    (hes : es.length ≤ bound + 1) (hb : ∀ p ∈ calls, p.1 ≤ bound) (h : run es calls = some es') :
    es'.length ≤ bound + 1 := by
  induction calls generalizing es with
  | nil =>
    cases h
    exact hes
  | cons call calls ih =>
    obtain ⟨es₁, h₁, h₂⟩ := Option.bind_eq_some_iff.1 h
    have hcall := hb call List.mem_cons_self
    exact ih ((length_put_le h₁).trans (by omega)) (fun p hp => hb p (List.mem_cons_of_mem _ hp)) h₂

/-- The depths at the beginning of the depth-first walk of some tree of depth at most `bound`. -/
def BeginsWalk (bound : ℕ) (ds : List ℕ) : Prop :=
  ∃ t : LeafTree Unit, (∀ d ∈ t.depths, d ≤ bound) ∧ ds <+: t.depths

theorem beginsWalk_of_run {es : Spine Unit} {calls : List (ℕ × Unit)} {bound : ℕ}
    (h : run [] calls = some es) (hb : ∀ p ∈ calls, p.1 ≤ bound)
    (hes : RootOpen es ∨ ∃ t, es = [some t]) : BeginsWalk bound (calls.map Prod.fst) := by
  have hwalk : spineWalk es = calls := spineWalk_run h
  have hlen := length_run_le (Nat.zero_le _) hb h
  have hdepths : ∀ d ∈ calls.map Prod.fst, d ≤ bound := by simpa using hb
  rcases hes with (rfl | hlast) | ⟨t, rfl⟩
  · rw [← hwalk]
    exact ⟨leaf (), by simp [depths, walk], List.nil_prefix⟩
  · obtain ⟨rest, hrest, hclose⟩ := walk_close () es hlast (leaf ())
    rw [hwalk, walk] at hclose
    refine ⟨close () es (leaf ()), ?_, ?_⟩
    · intro d hd
      rw [depths, hclose, List.map_append, List.map_append, List.mem_append, List.mem_append] at hd
      rcases hd with (hd | hd) | hd
      · exact hdepths d hd
      · rw [List.map_singleton, List.mem_singleton] at hd
        omega
      · obtain ⟨p, hp, rfl⟩ := List.mem_map.1 hd
        have := hrest p hp
        omega
    · rw [depths, hclose, List.append_assoc, List.map_append]
      exact List.prefix_append _ _
  · have ht : t.walk 0 = calls := by simpa [spineWalk] using hwalk
    rw [← ht] at hdepths ⊢
    exact ⟨t, hdepths, List.prefix_refl _⟩

/-- A sequence goes on as a walk exactly when the root is open and the next leaf is accepted. -/
theorem beginsWalk_concat_iff {es : Spine α} {calls : List (ℕ × α)} {bound : ℕ}
    (h : run [] calls = some es) (hb : ∀ p ∈ calls, p.1 ≤ bound) {d : ℕ} (hd : d ≤ bound) (a : α) :
    BeginsWalk bound (calls.map Prod.fst ++ [d]) ↔ RootOpen es ∧ (put es (leaf a) d).isSome := by
  -- labels play no part: forget them
  set f : α → Unit := fun _ => ()
  set shape : Spine Unit := es.map (Option.map (LeafTree.map f)) with hshape
  have hrun : run [] (calls.map (Prod.map id f)) = some shape := by
    have := run_map f [] calls
    rwa [h, Option.map_some] at this
  have hput : (put shape (leaf ()) d).isSome = (put es (leaf a) d).isSome := by
    have := put_map f es (leaf a) d
    simp only [LeafTree.map] at this
    rw [hshape, this, Option.isSome_map]
  have hroot : RootOpen shape ↔ RootOpen es := by
    simp [RootOpen, hshape, List.getLast?_map]
  have hfst : (calls.map (Prod.map id f)).map Prod.fst = calls.map Prod.fst := by simp
  rw [← hroot, ← hput, ← hfst]
  constructor
  · rintro ⟨t, -, ht⟩
    -- the rest of the walk leads to the whole tree
    obtain ⟨rest, hrest⟩ := ht
    have hunit : ∀ xs : List (ℕ × Unit), (xs.map Prod.fst).map (fun d => (d, ())) = xs := by
      intro xs
      rw [List.map_map]
      exact List.map_id' xs
    have hwalk : calls.map (Prod.map id f) ++ (d, ()) :: rest.map (fun d => (d, ())) = t.walk 0 := by
      rw [← hunit (t.walk 0), ← depths, ← hrest, List.map_append, List.map_append, hunit]
      simp
    have hall := run_walk_zero t
    rw [← hwalk, run_append, hrun, Option.bind_some] at hall
    refine ⟨?_, ?_⟩
    · by_contra hes
      have := run_of_not_rootOpen hes (by simp) hall
      simp at this
    · rw [run] at hall
      cases hp : put shape (leaf ()) d with
      | none =>
        rw [hp] at hall
        cases hall
      | some es' => rfl
  · rintro ⟨hes, hsome⟩
    obtain ⟨es', hes'⟩ := Option.isSome_iff_exists.1 hsome
    have hnext : run [] (calls.map (Prod.map id f) ++ [(d, ())]) = some es' := by
      rw [run_append, hrun, Option.bind_some, run, hes']
      rfl
    have hbound : ∀ p ∈ calls.map (Prod.map id f) ++ [(d, ())], p.1 ≤ bound := by
      intro p hp
      rcases List.mem_append.1 hp with hp | hp
      · obtain ⟨q, hq, rfl⟩ := List.mem_map.1 hp
        exact hb q hq
      · rw [List.mem_singleton.1 hp]
        exact hd
    have := beginsWalk_of_run hnext hbound (hes.put hes')
    rwa [List.map_append] at this

end DepthFirst
