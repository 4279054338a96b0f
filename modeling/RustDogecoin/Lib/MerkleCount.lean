import RustDogecoin.Lib.Merkle

/-!
# How many bits and hashes a partial tree has

A node with two children is paid for by a hash, as in every binary tree, and a node with one child
comes on top of that.  In the tree pruned to a set of leaves a level has at most one of them, its last
node, and the marked leaves bound the hashes by the lengths of their paths.
-/

namespace Merkle

variable {α : Type} {H : α → α → α} {n : ℕ} {f : ℕ → α} {m : ℕ → Bool}

theorem filter_lt_range' (a k n : ℕ) :
    (List.range' a k).filter (· < n) = List.range' a (min k (n - a)) := by
  induction k with
  | zero => simp
  | succ k ih =>
    rw [List.range'_1_concat, List.filter_append, ih]
    by_cases h : a + k < n
    · have hmin : min k (n - a) = k := by omega
      have hmin' : min (k + 1) (n - a) = k + 1 := by omega
      rw [hmin, hmin', List.range'_1_concat, List.filter_cons_of_pos (by simpa using h)]
      rfl
    · have hmin : min k (n - a) = min (k + 1) (n - a) := by omega
      rw [hmin, List.filter_cons_of_neg (by simpa using h)]
      exact List.append_nil _

theorem length_leaves (n h pos : ℕ) :
    (leaves n h pos).length = min (2 ^ h) (n - pos * 2 ^ h) := by
  rw [leaves, filter_lt_range', List.length_range']

/-- The number of marked leaves below a node. -/
def marked (n : ℕ) (m : ℕ → Bool) (h pos : ℕ) : ℕ := ((leaves n h pos).filter m).length

theorem marked_succ (h pos : ℕ) :
    marked n m (h + 1) pos = marked n m h (pos * 2) + marked n m h (pos * 2 + 1) := by
  rw [marked, leaves_succ, List.filter_append, List.length_append]
  rfl

theorem marked_eq_zero_iff {h pos : ℕ} :
    marked n m h pos = 0 ↔ (leaves n h pos).any m = false := by
  rw [marked, List.length_eq_zero_iff, List.filter_eq_nil_iff]
  simp

theorem marked_of_width_le {h pos : ℕ} (hpos : ¬ pos < width n h) : marked n m h pos = 0 := by
  rw [marked, leaves_eq_nil (Nat.le_of_not_lt (mt lt_width_iff.mpr hpos))]
  rfl

/-- Of two neighbours one is marked, wherever there are two. -/
def PairsMarked (n : ℕ) (m : ℕ → Bool) : Prop :=
  ∀ i, i * 2 + 1 < n → m (i * 2) = true ∨ m (i * 2 + 1) = true

/-- The level has an odd number of nodes and the parent of the last one has marked leaves below. -/
def HasOpenSingle (n : ℕ) (m : ℕ → Bool) (k : ℕ) : Prop :=
  width n k % 2 = 1 ∧ (leaves n (k + 1) (width n (k + 1) - 1)).any m = true

instance (n : ℕ) (m : ℕ → Bool) (k : ℕ) : Decidable (HasOpenSingle n m k) :=
  inferInstanceAs (Decidable (_ ∧ _))

/-- The number of such levels below height `top`. -/
def openSingles (n : ℕ) (m : ℕ → Bool) (top : ℕ) : ℕ :=
  ((List.range top).filter fun k => HasOpenSingle n m k).length

theorem openSingles_succ (top : ℕ) : openSingles n m (top + 1) =
    openSingles n m top + if HasOpenSingle n m top then 1 else 0 := by
  rw [openSingles, List.range_succ, List.filter_append, List.length_append, openSingles]
  by_cases h : HasOpenSingle n m top <;> simp [h]

theorem openSingles_le (n : ℕ) (m : ℕ → Bool) (top : ℕ) : openSingles n m top ≤ top :=
  (List.length_filter_le _ _).trans_eq List.length_range

/-- The leaves below the last node of a level are among those of the last node of the next. -/
theorem mem_leaves_last {h i : ℕ} (hn : 0 < n) (hi : i ∈ leaves n h (width n h - 1)) :
    i ∈ leaves n (h + 1) (width n (h + 1) - 1) := by
  have hpow : (2 : ℕ) ^ (h + 1) = 2 * 2 ^ h := Nat.pow_succ'
  have hpos : 0 < width n (h + 1) := lt_width_iff.mpr (by rwa [Nat.zero_mul])
  have hsucc := width_succ n h
  have hend : ¬ width n (h + 1) * 2 ^ (h + 1) < n := mt lt_width_iff.mpr (Nat.lt_irrefl _)
  have hlast : (width n (h + 1) - 1) * 2 ^ (h + 1) ≤ (width n h - 1) * 2 ^ h := by
    rw [hpow, ← Nat.mul_assoc]
    exact Nat.mul_le_mul_right _ (by omega)
  have hsplit : (width n (h + 1) - 1) * 2 ^ (h + 1) + 2 ^ (h + 1) = width n (h + 1) * 2 ^ (h + 1) := by
    rw [← Nat.succ_mul, Nat.succ_eq_add_one, Nat.sub_add_cancel hpos]
  obtain ⟨hle, -, hlt⟩ := mem_leaves.mp hi
  exact mem_leaves.mpr ⟨hlast.trans hle, by omega, hlt⟩

/-- Below a last node without marked leaves no level has an open node with one child. -/
theorem openSingles_eq_zero (hn : 0 < n) {top : ℕ}
    (hnone : (leaves n top (width n top - 1)).any m = false) : openSingles n m top = 0 := by
  induction top with
  | zero => rfl
  | succ top ih =>
    have hbelow : (leaves n top (width n top - 1)).any m = false := by
      rw [List.any_eq_false] at hnone ⊢
      exact fun i hi => hnone i (mem_leaves_last hn hi)
    have hclosed : ¬ HasOpenSingle n m top := by
      rintro ⟨-, hopen⟩
      rw [hnone] at hopen
      cases hopen
    rw [openSingles_succ, ih hbelow, if_neg hclosed]

namespace PartialTree

/-- The number of nodes with one child. -/
def singles : {h : ℕ} → PartialTree α h → ℕ
  | _, leaf _ _ => 0
  | _, pruned _ => 0
  | _, one t => t.singles + 1
  | _, two l r => l.singles + r.singles

theorem length_bits {h : ℕ} (t : PartialTree α h) :
    t.bits.length + 1 = 2 * t.hashes.length + t.singles := by
  induction t with
  | leaf x b => rfl
  | pruned x => rfl
  | one t ih =>
    rw [bits, hashes, singles, List.length_cons]
    omega
  | two l r ihl ihr =>
    rw [bits, hashes, singles, List.length_cons, List.length_append, List.length_append]
    omega

theorem length_hashes_pos {h : ℕ} (t : PartialTree α h) : 0 < t.hashes.length := by
  induction t with
  | leaf x b => exact Nat.one_pos
  | pruned x => exact Nat.one_pos
  | one t ih => exact ih
  | two l r ihl ihr =>
    rw [hashes, List.length_append]
    omega

/-- Every marked leaf has a path of at most `h` hashes, and two paths share their end. -/
theorem hashes_le_paths (h pos : ℕ) :
    (prune H n f m h pos).hashes.length + (prune H n f m h pos).singles ≤ 1 + marked n m h pos * h ∧
      (2 ≤ marked n m h pos → (prune H n f m h pos).hashes.length +
        (prune H n f m h pos).singles ≤ marked n m h pos * h) := by
  induction h generalizing pos with
  | zero =>
    have hone : marked n m 0 pos ≤ 1 := by
      refine (List.length_filter_le _ _).trans ((List.length_filter_le _ _).trans ?_)
      rw [List.length_range', Nat.pow_zero]
    rw [prune, hashes, singles, List.length_singleton]
    omega
  | succ h ih =>
    have hsucc := marked_succ (n := n) (m := m) h pos
    rcases prune_cases (H := H) (n := n) (f := f) (m := m) h pos with
      ⟨hany, heq⟩ | ⟨hany, hw, heq⟩ | ⟨hany, hw, heq⟩
    · rw [← marked_eq_zero_iff] at hany
      rw [heq, hany, hashes, singles, List.length_singleton]
      omega
    · have hl := (ih (pos * 2)).1
      have hr := (ih (pos * 2 + 1)).1
      have hsome : marked n m (h + 1) pos ≠ 0 := fun hz => by simp [marked_eq_zero_iff.mp hz] at hany
      rw [hsucc] at hsome
      rw [heq, hashes, singles, List.length_append, hsucc, Nat.mul_succ (_ + _) h, Nat.add_mul _ _ h]
      omega
    · have hl := (ih (pos * 2)).1
      have hr := marked_of_width_le (m := m) hw
      have hsome : marked n m (h + 1) pos ≠ 0 := fun hz => by simp [marked_eq_zero_iff.mp hz] at hany
      simp only [hr, Nat.add_zero] at hsucc
      rw [hsucc] at hsome
      rw [heq, hashes, singles, hsucc, Nat.mul_succ _ h]
      omega

/-- A node with one child is the last one of its level. -/
theorem singles_prune {h pos : ℕ} (hpos : pos * 2 ^ h < n) :
    (prune H n f m h pos).singles = if pos + 1 = width n h then openSingles n m h else 0 := by
  induction h generalizing pos with
  | zero => simp [prune, singles, openSingles]
  | succ h ih =>
    have hsucc := width_succ n h
    have hlt : pos < width n (h + 1) := lt_width_iff.mpr hpos
    have hn : 0 < n := Nat.zero_lt_of_lt hpos
    rcases prune_cases (H := H) (n := n) (f := f) (m := m) h pos with
      ⟨hany, heq⟩ | ⟨hany, hw, heq⟩ | ⟨hany, hw, heq⟩
    · rw [heq, singles]
      split_ifs with hlast
      · rw [openSingles_eq_zero hn]
        rwa [← hlast, Nat.add_sub_cancel]
      · rfl
    · have hleft : pos * 2 + 1 ≠ width n h := Nat.ne_of_lt hw
      rw [heq, singles, ih (left_lt hpos), ih (lt_width_iff.mp hw), if_neg hleft, Nat.zero_add]
      by_cases hlast : pos + 1 = width n (h + 1)
      · have heven : ¬ HasOpenSingle n m h := by
          rintro ⟨hodd, -⟩
          omega
        rw [if_pos hlast, if_pos (by omega), openSingles_succ, if_neg heven, Nat.add_zero]
      · rw [if_neg hlast, if_neg (by omega)]
    · have hlast : pos + 1 = width n (h + 1) := by omega
      have hopen : HasOpenSingle n m h := by
        refine ⟨by omega, ?_⟩
        rwa [← hlast, Nat.add_sub_cancel]
      rw [heq, singles, ih (left_lt hpos), if_pos (by omega), if_pos hlast, openSingles_succ,
        if_pos hopen]

theorem length_hashes_le {h pos : ℕ} (hpos : pos * 2 ^ h < n) :
    (prune H n f m h pos).hashes.length ≤ (leaves n h pos).length :=
  (length_prune hpos).1

/-- The pair of leaves that a node begins with. -/
theorem mem_leaves_pair {h pos : ℕ} (hpos : pos * 2 ^ (h + 1) + 1 < n) :
    pos * 2 ^ h * 2 ∈ leaves n (h + 1) pos ∧ pos * 2 ^ h * 2 + 1 ∈ leaves n (h + 1) pos := by
  have hpow : (2 : ℕ) ^ (h + 1) = 2 ^ h * 2 := pow_succ 2 h
  have hle := Nat.two_pow_pos h
  have hstart : pos * 2 ^ h * 2 = pos * 2 ^ (h + 1) := by rw [hpow, Nat.mul_assoc]
  rw [mem_leaves, mem_leaves, hstart]
  omega

/-- Nothing is cut off but single leaves if one leaf of every pair is marked. -/
theorem length_hashes_of_pairsMarked (hm : PairsMarked n m) {h pos : ℕ} (hpos : pos * 2 ^ h < n) :
    (prune H n f m h pos).hashes.length = (leaves n h pos).length := by
  induction h generalizing pos with
  | zero =>
    rw [leaves_zero (by simpa using hpos)]
    rfl
  | succ h ih =>
    rcases prune_cases (H := H) (n := n) (f := f) (m := m) h pos with
      ⟨hany, heq⟩ | ⟨-, hw, heq⟩ | ⟨-, hw, heq⟩
    · -- a node without marked leaves has no pair below it
      have hsingle : n ≤ pos * 2 ^ (h + 1) + 1 := by
        by_contra hlt
        obtain ⟨hleft, hright⟩ := mem_leaves_pair (Nat.lt_of_not_le hlt)
        have hnone := List.any_eq_false.mp hany
        rcases hm (pos * 2 ^ h) (mem_leaves.mp hright).2.2 with hmark | hmark
        · exact hnone _ hleft hmark
        · exact hnone _ hright hmark
      have hpow := Nat.two_pow_pos (h + 1)
      rw [heq, hashes, List.length_singleton, length_leaves]
      omega
    · rw [heq, hashes, List.length_append, ih (left_lt hpos), ih (lt_width_iff.mp hw), leaves_succ,
        List.length_append]
    · have hnil := leaves_eq_nil (Nat.le_of_not_lt (mt lt_width_iff.mpr hw))
      rw [heq, hashes, ih (left_lt hpos), leaves_succ, hnil, List.append_nil]

/-- Where as many hashes are stored as there are leaves, every pair of them has a mark. -/
theorem pair_marked_of_length {h pos : ℕ} (hpos : pos * 2 ^ h < n)
    (hlen : (prune H n f m h pos).hashes.length = (leaves n h pos).length) {i : ℕ}
    (hleft : i * 2 ∈ leaves n h pos) (hright : i * 2 + 1 ∈ leaves n h pos) :
    m (i * 2) = true ∨ m (i * 2 + 1) = true := by
  induction h generalizing pos with
  | zero =>
    rw [leaves_zero (by simpa using hpos), List.mem_singleton] at hleft hright
    omega
  | succ h ih =>
    rcases prune_cases (H := H) (n := n) (f := f) (m := m) h pos with
      ⟨hany, heq⟩ | ⟨hany, hw, heq⟩ | ⟨-, hw, heq⟩
    · rw [heq, hashes, List.length_singleton] at hlen
      obtain ⟨x, hx⟩ := List.length_eq_one_iff.mp hlen.symm
      rw [hx, List.mem_singleton] at hleft hright
      omega
    · have hl := length_hashes_le (H := H) (f := f) (m := m) (left_lt hpos)
      have hr := length_hashes_le (H := H) (f := f) (m := m) (lt_width_iff.mp hw)
      rw [heq, hashes, List.length_append] at hlen
      rw [leaves_succ, List.length_append] at hlen
      rw [leaves_succ, List.mem_append] at hleft hright
      rcases hleft with hll | hlr <;> rcases hright with hrl | hrr
      · exact ih (left_lt hpos) (by omega) hll hrl
      · -- only leaves themselves are split between two children
        have h₁ := mem_leaves.mp hll
        have h₂ := mem_leaves.mp hrr
        have hzero : h = 0 := by
          by_contra hne
          obtain ⟨k, rfl⟩ := Nat.exists_eq_succ_of_ne_zero hne
          have heven : (pos * 2) * 2 ^ (k + 1) = (pos * 2 * 2 ^ k) * 2 := by
            rw [pow_succ, Nat.mul_assoc (pos * 2)]
          rw [Nat.succ_eq_add_one, Nat.add_mul, heven] at h₂
          rw [Nat.succ_eq_add_one, heven] at h₁
          rw [pow_succ] at h₁ h₂
          omega
        subst hzero
        have hpair : i = pos := by omega
        subst hpair
        rw [leaves_succ, leaves_zero (by omega), leaves_zero (by omega)] at hany
        simpa using hany
      · have h₁ := mem_leaves.mp hlr
        have h₂ := mem_leaves.mp hrl
        rw [Nat.add_mul] at h₁
        omega
      · exact ih (lt_width_iff.mp hw) (by omega) hlr hrr
    · have hnil := leaves_eq_nil (Nat.le_of_not_lt (mt lt_width_iff.mpr hw))
      rw [heq, hashes, leaves_succ, hnil, List.append_nil] at hlen
      rw [leaves_succ, hnil, List.append_nil] at hleft hright
      exact ih (left_lt hpos) hlen hleft hright

/-- The hashes of the whole tree are as many as its leaves exactly if every pair has a mark. -/
theorem length_hashes_eq_iff (hn : 0 < n) :
    (prune H n f m (height n) 0).hashes.length = n ↔ PairsMarked n m := by
  have hroot : 0 * 2 ^ height n < n := by rwa [Nat.zero_mul]
  have hleaves : leaves n (height n) 0 = List.range n := leaves_top (le_two_pow_height n)
  constructor
  · intro hlen i hi
    apply pair_marked_of_length (H := H) (f := f) (m := m) hroot
    · rw [hlen, hleaves, List.length_range]
    · rw [hleaves, List.mem_range]
      omega
    · rw [hleaves, List.mem_range]
      exact hi
  · intro hm
    rw [length_hashes_of_pairsMarked hm hroot, hleaves, List.length_range]

/-- The number of bits of the whole tree. -/
theorem length_bits_prune (hn : 0 < n) :
    (prune H n f m (height n) 0).bits.length + 1 =
      2 * (prune H n f m (height n) 0).hashes.length + openSingles n m (height n) := by
  have hroot : 0 * 2 ^ height n < n := by rwa [Nat.zero_mul]
  have htop : 0 + 1 = width n (height n) := by
    have hpos : 0 < width n (height n) := lt_width_iff.mpr hroot
    have hone := mt lt_height_iff.mpr (Nat.lt_irrefl (height n))
    omega
  rw [length_bits, singles_prune hroot, if_pos htop]

end PartialTree

end Merkle
