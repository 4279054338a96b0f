import Mathlib.Data.List.Lex
import Mathlib.Data.Prod.Lex
import Mathlib.Order.Nat
import RustDogecoin.Lib.Bytes

/-!
# Ordered maps

Maps with keys in a linear order, as trees up to the entries they hold.  A map is its entries in the order
of the keys, and two maps with the same value at every key are equal.  `extend` takes the entries of a
second map over, so that it wins where both have a key.
-/

/-- Byte strings compare as lists of numbers. -/
def Bytes.rank (bs : Bytes) : List ℕ := bs.map UInt8.toNat

theorem Bytes.rank_injective : Function.Injective Bytes.rank :=
  List.map_injective_iff.2 fun _ _ => UInt8.toNat_inj.1

/-! ## Merged values -/

section Merged

variable {α : Type} {x y z : Option α}

/-- `z` is one of the values `x` and `y`, and there if one of them is. -/
def Merged (x y z : Option α) : Prop := z = x.or y ∨ z = y.or x

theorem Merged.symm (h : Merged x y z) : Merged y x z := Or.symm h

theorem Merged.eq_of_eq (h : Merged x y z) (hxy : x = y) : z = x := by
  subst hxy
  rcases h with rfl | rfl <;> exact Option.or_self

theorem Merged.eq_or (h : Merged x y z) (hagree : ∀ v w, x = some v → y = some w → v = w) :
    z = x.or y := by
  rcases h with rfl | rfl
  · rfl
  · cases x with
    | none => simp
    | some v =>
      cases y with
      | none => simp
      | some w => simp [hagree v w rfl rfl]

theorem Merged.eq_some_iff (h : Merged x y z) (hagree : ∀ v w, x = some v → y = some w → v = w) (v : α) :
    z = some v ↔ x = some v ∨ y = some v := by
  rw [h.eq_or hagree]
  cases x with
  | none => simp
  | some w =>
    rw [Option.some_or]
    refine ⟨Or.inl, fun hor => hor.elim id fun hy => ?_⟩
    rw [hagree w v rfl hy]

/-- What is there in `x` or `y` is there in `z`, with its value if only one of them has one. -/
structure Kept (x y z : Option α) : Prop where
  isSome : x.isSome ∨ y.isSome → z.isSome
  left : ∀ v, x = some v → y = none → z = some v
  right : ∀ v, x = none → y = some v → z = some v

theorem Merged.kept (h : Merged x y z) : Kept x y z := by
  refine ⟨fun hsome => ?_, fun v hx hy => ?_, fun v hx hy => ?_⟩
  · rcases h with rfl | rfl
    · simpa using hsome
    · simpa [or_comm] using hsome
  · rcases h with rfl | rfl <;> simp [hx, hy]
  · rcases h with rfl | rfl <;> simp [hx, hy]

/-- Two functions to optional values that agree where both have one. -/
def Agree {K : Type} {V : K → Type} (g g' : (k : K) → Option (V k)) : Prop :=
  ∀ k v w, g k = some v → g' k = some w → v = w

theorem Agree.symm {K : Type} {V : K → Type} {g g' : (k : K) → Option (V k)} (h : Agree g g') :
    Agree g' g := fun k v w hv hw => (h k w v hw hv).symm

theorem agree_of_cases {K : Type} {V : K → Type} {g g' : (k : K) → Option (V k)}
    (h : ∀ k, g k = none ∨ g' k = none ∨ g k = g' k) : Agree g g' := by
  intro k v w hv hw
  rcases h k with h | h | h
  · rw [h] at hv
    cases hv
  · rw [h] at hw
    cases hw
  · exact Option.some.inj (hv.symm.trans (h.trans hw))

end Merged

/-! ## Maps -/

abbrev BTreeMap (K V : Type) [LinearOrder K] := Std.ExtTreeMap K V compare

namespace BTreeMap

variable {K V : Type} [LinearOrder K]

instance transCmp : Std.TransCmp (compare : K → K → Ordering) := inferInstance

theorem ext {m m' : BTreeMap K V} (h : ∀ k : K, m[k]? = m'[k]?) : m = m' :=
  Std.ExtTreeMap.ext_getElem? h

/-- All entries of the map are in `P`. -/
def Forall (m : BTreeMap K V) (P : K → V → Prop) : Prop := ∀ (k : K) (v : V), m[k]? = some v → P k v

theorem pairwise_toList (m : BTreeMap K V) : m.toList.Pairwise fun a b => a.1 ≠ b.1 := by
  refine Std.ExtTreeMap.distinct_keys_toList.imp fun h => ?_
  rwa [compare_eq_iff_eq] at h

theorem pairwise_lt_toList (m : BTreeMap K V) : m.toList.Pairwise fun a b => a.1 < b.1 :=
  Std.ExtTreeMap.ordered_keys_toList.imp fun h => compare_lt_iff_lt.1 h

theorem mem_toList_iff (m : BTreeMap K V) (k : K) (v : V) : (k, v) ∈ m.toList ↔ m[k]? = some v :=
  Std.ExtTreeMap.mem_toList_iff_getElem?_eq_some

theorem lookup_of_mem {l : List (K × V)} (hl : l.Pairwise fun a b => a.1 ≠ b.1) {k : K} {v : V}
    (h : (k, v) ∈ l) : l.lookup k = some v := by
  induction l with
  | nil => cases h
  | cons entry l ih =>
    rw [List.pairwise_cons] at hl
    rcases List.mem_cons.1 h with rfl | h
    · exact List.lookup_cons_self
    · rw [List.lookup_cons, beq_eq_false_iff_ne.2 (hl.1 _ h).symm]
      exact ih hl.2 h

theorem lookup_eq_none_of_ne {l : List (K × V)} {k : K} (h : ∀ entry ∈ l, k ≠ entry.1) : l.lookup k = none := by
  rw [List.lookup_eq_none_iff]
  intro entry hentry
  exact bne_iff_ne.2 (h entry hentry)

/-- Merging one entry and then a list of entries with other keys. -/
theorem merged_cons {l : List (K × V)} {k k' : K} {v : V} {x y z : Option V}
    (hne : ∀ entry ∈ l, k ≠ entry.1) (hone : Merged x (if k = k' then some v else none) y)
    (hrest : Merged y (l.lookup k') z) : Merged x (((k, v) :: l).lookup k') z := by
  rcases eq_or_ne k k' with rfl | hk
  · -- the key does not come back
    rw [lookup_eq_none_of_ne hne, Merged, Option.or_none, Option.none_or, or_self] at hrest
    rw [if_pos rfl] at hone
    rwa [List.lookup_cons_self, hrest]
  · rw [if_neg hk, Merged, Option.or_none, Option.none_or, or_self] at hone
    rwa [List.lookup_cons, beq_eq_false_iff_ne.2 hk.symm, ← hone]

theorem lookup_toList (m : BTreeMap K V) (k : K) : m.toList.lookup k = m[k]? := by
  cases h : m[k]? with
  | none =>
    rw [List.lookup_eq_none_iff]
    rintro ⟨k', v⟩ hmem
    rw [bne_iff_ne]
    rintro rfl
    rw [mem_toList_iff, h] at hmem
    cases hmem
  | some v => exact lookup_of_mem m.pairwise_toList ((mem_toList_iff m k v).2 h)

/-- Insert the entries of `m'`, in their order. -/
def extend (m m' : BTreeMap K V) : BTreeMap K V := m.insertMany m'.toList

theorem getElem?_insert (m : BTreeMap K V) (k k' : K) (v : V) :
    (m.insert k v)[k']? = if k = k' then some v else m[k']? := by
  rw [Std.ExtTreeMap.getElem?_insert]
  simp only [compare_eq_iff_eq]

theorem getElem?_extend (m m' : BTreeMap K V) (k : K) : (m.extend m')[k]? = m'[k]?.or m[k]? := by
  unfold extend
  cases h : m'[k]? with
  | none =>
    rw [Option.none_or]
    apply Std.ExtTreeMap.getElem?_insertMany_list_of_contains_eq_false
    rw [← Bool.not_eq_true, List.contains_iff_mem, List.mem_map]
    rintro ⟨⟨k', v⟩, hmem, rfl⟩
    rw [Std.ExtTreeMap.mem_toList_iff_getElem?_eq_some, h] at hmem
    cases hmem
  | some v =>
    rw [Option.some_or]
    exact Std.ExtTreeMap.getElem?_insertMany_list_of_mem (compare_eq_iff_eq.2 rfl)
      Std.ExtTreeMap.distinct_keys_toList (Std.ExtTreeMap.mem_toList_iff_getElem?_eq_some.2 h)

theorem merged_extend (m m' : BTreeMap K V) (k : K) : Merged m[k]? m'[k]? (m.extend m')[k]? :=
  Or.inr (getElem?_extend m m' k)

theorem extend_self (m : BTreeMap K V) : m.extend m = m := by
  apply ext
  intro k
  exact (merged_extend m m k).eq_of_eq rfl

end BTreeMap
