import Mathlib.Data.List.Forall2
import Mathlib.Data.List.Perm.Basic
import RustDogecoin.Lib.BTreeMap
import RustDogecoin.Lib.Outcome

/-!
# Records stored as entries

A record is written as a list of entries and read back by inserting them one by one.  `Stores` is the law of
one component of the record: the entries that `push` lists for it rebuild it from nothing, and every insertion
keeps the condition `Ok` under which they do.  Components that are maps are settled entry by entry
(`StoresEntries.stores`), and a run over the entries of one component leaves the others alone
(`Component.foldlM_eq`).
-/

namespace Outcome

variable {ε α β : Type}

theorem mapM_eq_ok_iff {f : α → Outcome ε β} {as : List α} {bs : List β} :
    as.mapM f = ok bs ↔ List.Forall₂ (fun a b => f a = ok b) as bs := by
  induction as generalizing bs with
  | nil => simp [eq_comm]
  | cons a as ih =>
    rw [List.mapM_cons, bind_eq_ok_iff]
    constructor
    · rintro ⟨b, hb, h⟩
      obtain ⟨tail, htail, h⟩ := bind_eq_ok_iff.1 h
      cases h
      exact .cons hb (ih.1 htail)
    · rintro (_ | ⟨hb, htail⟩)
      refine ⟨_, hb, ?_⟩
      rw [ih.2 htail]
      rfl

theorem mapM_of_forall {f : α → Outcome ε β} {g : α → β} {as : List α} (h : ∀ a ∈ as, f a = ok (g a)) :
    as.mapM f = ok (as.map g) := by
  rw [mapM_eq_ok_iff, List.forall₂_map_right_iff, List.forall₂_same]
  exact h

end Outcome

namespace BTreeMap

variable {K V P ε : Type} [LinearOrder K]

theorem nodup_toList (m : BTreeMap K V) : m.toList.Nodup :=
  m.pairwise_toList.imp fun h e => h (congrArg Prod.fst e)

theorem perm_toList_insert {m : BTreeMap K V} {k : K} (hk : m[k]? = none) (v : V) :
    (m.insert k v).toList.Perm ((k, v) :: m.toList) := by
  have hfresh : ∀ v', (k, v') ∉ m.toList := by
    intro v' hmem
    rw [mem_toList_iff, hk] at hmem
    cases hmem
  refine (List.perm_ext_iff_of_nodup (nodup_toList _) (List.nodup_cons.2 ⟨hfresh v, nodup_toList m⟩)).2 ?_
  rintro ⟨k', v'⟩
  rw [mem_toList_iff, getElem?_insert, List.mem_cons, mem_toList_iff]
  by_cases hkk : k = k'
  · subst hkk
    simp [hk, eq_comm]
  · simp [hkk, Ne.symm hkk]

/-- Inserting entries with different keys into a map that has none of them. -/
theorem foldlM_insert {step : BTreeMap K V → P → Outcome ε (BTreeMap K V)} {l : List (K × V)} {ps : List P}
    (h : List.Forall₂ (fun e p => ∀ m, m[e.1]? = none → step m p = .ok (m.insert e.1 e.2)) l ps)
    (hl : l.Pairwise fun a b => a.1 ≠ b.1) {m : BTreeMap K V} (hm : ∀ e ∈ l, m[e.1]? = none) :
    ∃ m', ps.foldlM step m = .ok m' ∧ ∀ k, m'[k]? = (l.lookup k).or m[k]? := by
  induction h generalizing m with
  | nil => exact ⟨m, rfl, fun k => rfl⟩
  | @cons e p l ps hp hrest ih =>
    rw [List.pairwise_cons] at hl
    rw [List.forall_mem_cons] at hm
    have hnone : ∀ e' ∈ l, (m.insert e.1 e.2)[e'.1]? = none := by
      intro e' he'
      rw [getElem?_insert, if_neg (hl.1 e' he'), hm.2 e' he']
    obtain ⟨m', hm', hget⟩ := ih hl.2 hnone
    refine ⟨m', ?_, fun k => ?_⟩
    · rw [List.foldlM_cons, hp m hm.1]
      exact hm'
    · rw [hget, getElem?_insert, List.lookup_cons]
      by_cases hk : e.1 = k
      · subst hk
        have hnot : l.lookup e.1 = none := by
          rw [List.lookup_eq_none_iff]
          intro e' he'
          exact bne_iff_ne.2 (hl.1 e' he')
        rw [hnot, if_pos rfl, beq_self_eq_true]
        rfl
      · rw [if_neg hk, beq_eq_false_iff_ne.2 (Ne.symm hk)]

end BTreeMap

namespace Entries

variable {P ε C M K V : Type} [LinearOrder K]

/-- `push` lists entries of a component, and `insert` rebuilds the component from them. -/
structure Stores (push : C → Outcome Empty (List P)) (insert : C → P → Outcome ε C) (empty : C)
    (Entry : P → Prop) (Ok : C → Prop) : Prop where
  ok_empty : Ok empty
  ok_insert : ∀ c p c', Ok c → Entry p → insert c p = .ok c' → Ok c'
  exists_push : ∀ c, Ok c →
    ∃ ps, push c = .ok ps ∧ (∀ p ∈ ps, Entry p) ∧ ps.foldlM insert empty = .ok c

/-- One entry of a map is written and inserted. -/
structure StoresEntries (write : K × V → Outcome Empty P)
    (insert : BTreeMap K V → P → Outcome ε (BTreeMap K V)) (Entry : P → Prop) (Ok : K → V → Prop) : Prop where
  insert_written : ∀ k v, Ok k v → ∃ p, write (k, v) = .ok p ∧ Entry p ∧
    ∀ m : BTreeMap K V, m[k]? = none → insert m p = .ok (m.insert k v)
  of_insert : ∀ (m m' : BTreeMap K V) p, Entry p → insert m p = .ok m' →
    ∃ k v, Ok k v ∧ m[k]? = none ∧ m' = m.insert k v

theorem exists_forall₂ {α β : Type} {R : α → β → Prop} {as : List α} (h : ∀ a ∈ as, ∃ b, R a b) :
    ∃ bs, List.Forall₂ R as bs := by
  induction as with
  | nil => exact ⟨[], .nil⟩
  | cons a as ih =>
    rw [List.forall_mem_cons] at h
    obtain ⟨b, hb⟩ := h.1
    obtain ⟨bs, hbs⟩ := ih h.2
    exact ⟨b :: bs, .cons hb hbs⟩

theorem forall_mem_right {α β : Type} {R : α → β → Prop} {Q : β → Prop} {as : List α} {bs : List β}
    (h : List.Forall₂ R as bs) (hQ : ∀ a b, R a b → Q b) : ∀ b ∈ bs, Q b := by
  induction h with
  | nil => simp
  | cons hab _ ih => exact List.forall_mem_cons.2 ⟨hQ _ _ hab, ih⟩

theorem StoresEntries.stores {write : K × V → Outcome Empty P}
    {insert : BTreeMap K V → P → Outcome ε (BTreeMap K V)} {Entry : P → Prop} {Ok : K → V → Prop}
    (h : StoresEntries write insert Entry Ok) :
    Stores (fun m : BTreeMap K V => m.toList.mapM write) insert ∅ Entry
      fun m => m.Forall Ok where
  ok_empty := by simp [BTreeMap.Forall]
  ok_insert m p m' hm hp hins k v hv := by
    obtain ⟨k₀, v₀, hok, -, rfl⟩ := h.of_insert m m' p hp hins
    rw [BTreeMap.getElem?_insert] at hv
    split_ifs at hv with hk
    · cases hv
      rwa [← hk]
    · exact hm k v hv
  exists_push m hm := by
    obtain ⟨ps, hps⟩ := exists_forall₂ fun (e : K × V) he =>
      h.insert_written e.1 e.2 (hm e.1 e.2 ((m.mem_toList_iff e.1 e.2).1 he))
    obtain ⟨m', hm', hget⟩ := BTreeMap.foldlM_insert (hps.imp fun _ _ hp => hp.2.2) m.pairwise_toList
      (m := ∅) (by simp)
    refine ⟨ps, Outcome.mapM_eq_ok_iff.2 (hps.imp fun _ _ hp => hp.1),
      forall_mem_right hps fun _ _ hp => hp.2.1, ?_⟩
    rw [hm']
    refine congrArg Outcome.ok (BTreeMap.ext fun k => ?_)
    rw [hget, BTreeMap.lookup_toList]
    simp

/-! ## Components of a record -/

/-- A component of a record that can be read and replaced. -/
structure Component (M C : Type) where
  get : M → C
  set : M → C → M
  get_set : ∀ m c, get (set m c) = c := by intros; rfl
  set_set : ∀ m c c', set (set m c) c' = set m c' := by intros; rfl
  set_get : ∀ m, set m (get m) = m := by intros; rfl

/-- Entries of one component are inserted into that component alone. -/
theorem Component.foldlM_eq (L : Component M C) {step : M → P → Outcome ε M}
    {insert : C → P → Outcome ε C} {ps : List P}
    (hstep : ∀ m, ∀ p ∈ ps, step m p = L.set m <$> insert (L.get m) p) (m : M) :
    ps.foldlM step m = L.set m <$> ps.foldlM insert (L.get m) := by
  induction ps generalizing m with
  | nil => exact congrArg Outcome.ok (L.set_get m).symm
  | cons p ps ih =>
    have htail : ∀ m, ∀ q ∈ ps, step m q = L.set m <$> insert (L.get m) q :=
      fun m q hq => hstep m q (List.mem_cons_of_mem _ hq)
    rw [List.foldlM_cons, List.foldlM_cons, hstep m p List.mem_cons_self]
    cases insert (L.get m) p with
    | ok c =>
      rw [Outcome.map_ok, Outcome.ok_bind, Outcome.ok_bind, ih htail, L.get_set]
      cases ps.foldlM insert c with
      | ok c' => rw [Outcome.map_ok, Outcome.map_ok, L.set_set]
      | err e => rfl
      | panic p => rfl
    | err e => rfl
    | panic p => rfl

/-- The entries `x` lists, all of them in `Q`, lead from the record `m` to the record `m'`. -/
def Rebuilds (step : M → P → Outcome ε M) (Q : P → Prop) (x : Outcome Empty (List P)) (m m' : M) : Prop :=
  ∃ ps, x = .ok ps ∧ (∀ p ∈ ps, Q p) ∧ ps.foldlM step m = .ok m'

/-- An invariant that counts what has been inserted. -/
theorem foldlM_invariant_sum (size : P → ℕ) (Ok : ℕ → M → Prop) {step : M → P → Outcome ε M} {Q : P → Prop}
    (hstep : ∀ n m p m', Ok n m → Q p → step m p = .ok m' → Ok (n + size p) m') {ps : List P}
    (hps : ∀ p ∈ ps, Q p) {n : ℕ} {m m' : M} (hm : Ok n m) (h : ps.foldlM step m = .ok m') :
    Ok (n + (ps.map size).sum) m' := by
  induction ps generalizing n m with
  | nil =>
    cases h
    exact hm
  | cons p ps ih =>
    rw [List.forall_mem_cons] at hps
    rw [List.foldlM_cons] at h
    obtain ⟨m₁, hm₁, h⟩ := Outcome.bind_eq_ok_iff.1 h
    rw [List.map_cons, List.sum_cons, ← Nat.add_assoc]
    exact ih hps.2 (hstep n m p m₁ hm hps.1 hm₁) h

/-- What every insertion keeps is kept by a run of insertions. -/
theorem foldlM_invariant {step : M → P → Outcome ε M} {Q : P → Prop} {Ok : M → Prop}
    (hstep : ∀ m p m', Ok m → Q p → step m p = .ok m' → Ok m') {ps : List P} (hps : ∀ p ∈ ps, Q p) {m m' : M}
    (hm : Ok m) (h : ps.foldlM step m = .ok m') : Ok m' :=
  foldlM_invariant_sum 0 (fun _ => Ok) (fun _ => hstep) hps (n := 0) hm h

/-- A component that is still empty is rebuilt from the entries pushed for it. -/
theorem Stores.rebuilds {push : C → Outcome Empty (List P)} {insert : C → P → Outcome ε C} {empty : C}
    {Entry Q : P → Prop} {Ok : C → Prop} (h : Stores push insert empty Entry Ok) (L : Component M C)
    {step : M → P → Outcome ε M} (hstep : ∀ m p, Entry p → step m p = L.set m <$> insert (L.get m) p)
    (hQ : ∀ p, Entry p → Q p) {m : M} (hm : L.get m = empty) {c : C} (hc : Ok c) :
    Rebuilds step Q (push c) m (L.set m c) := by
  obtain ⟨ps, hpush, hentry, hfold⟩ := h.exists_push c hc
  refine ⟨ps, hpush, fun p hp => hQ p (hentry p hp), ?_⟩
  rw [L.foldlM_eq fun m p hp => hstep m p (hentry p hp), hm, hfold, Outcome.map_ok]

/-! ## Sizes -/

/-- The sizes of the listed entries, summed up. -/
def total (size : P → ℕ) : Outcome Empty (List P) → ℕ
  | .ok ps => (ps.map size).sum
  | _ => 0

/-- A new entry of a map adds its size. -/
theorem total_insert {write : K × V → Outcome Empty P} (size : P → ℕ) {m : BTreeMap K V} {k : K} {v : V}
    {p : P} (hm : ∀ e ∈ m.toList, ∃ p, write e = .ok p) (hk : m[k]? = none) (hp : write (k, v) = .ok p) :
    total size ((m.insert k v).toList.mapM write) = total size (m.toList.mapM write) + size p := by
  obtain ⟨ps, hps⟩ := exists_forall₂ hm
  obtain ⟨ps', hps', hperm⟩ := List.perm_comp_forall₂ (BTreeMap.perm_toList_insert hk v) (.cons hp hps)
  rw [Outcome.mapM_eq_ok_iff.2 hps, Outcome.mapM_eq_ok_iff.2 hps', total, total,
    (hperm.map size).sum_nat, List.map_cons, List.sum_cons, Nat.add_comm]

end Entries
