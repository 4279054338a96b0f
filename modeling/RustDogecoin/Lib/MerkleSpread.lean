import RustDogecoin.Lib.Merkle
import Mathlib.Data.List.Nodup

/-!
# Leaves with the same root

An odd last node is paired with itself, so the root over some leaves is the root of a complete tree in
which everything below such a node is repeated.  `spread` lists the leaves of that tree.  Where no two
pairs collide, two trees of one height have the same root exactly if they spread to the same list; so a
list of leaves is known from its root up to repeated parts, and known if its leaves are all different.
-/

namespace Merkle

variable {α : Type} {H : α → α → α} {n n' : ℕ} {f f' : ℕ → α}

/-- The position of the right child, which is that of the left one where that is the last node. -/
def rightPos (n h pos : ℕ) : ℕ := if pos * 2 + 1 < width n h then pos * 2 + 1 else pos * 2

/-- The leaves of the complete tree below a node. -/
def spread (n : ℕ) (f : ℕ → α) : ℕ → ℕ → List α
  | 0, pos => [f pos]
  | h + 1, pos => spread n f h (pos * 2) ++ spread n f h (rightPos n h pos)

theorem children_eq (h pos : ℕ) :
    children H n f h pos = (nodeAt H n f h (pos * 2), nodeAt H n f h (rightPos n h pos)) := by
  rw [children, rightPos]
  split_ifs <;> rfl

theorem rightPos_lt {h pos : ℕ} (hpos : pos * 2 ^ (h + 1) < n) : rightPos n h pos * 2 ^ h < n := by
  rw [rightPos]
  split_ifs with hw
  · exact lt_width_iff.mp hw
  · exact left_lt hpos

@[simp] theorem length_spread (h pos : ℕ) : (spread n f h pos).length = 2 ^ h := by
  induction h generalizing pos with
  | zero => rfl
  | succ h ih => rw [spread, List.length_append, ih, ih, Nat.pow_succ, Nat.mul_two]

theorem map_spread {β : Type} (g : α → β) (h pos : ℕ) :
    (spread n f h pos).map g = spread n (fun i => g (f i)) h pos := by
  induction h generalizing pos with
  | zero => rfl
  | succ h ih => rw [spread, List.map_append, ih, ih, spread]

/-! ## Nodes and what they spread to -/

/-- A node is determined by what it spreads to. -/
theorem nodeAt_congr {h pos pos' : ℕ} (hspread : spread n f h pos = spread n' f' h pos') :
    nodeAt H n f h pos = nodeAt H n' f' h pos' := by
  induction h generalizing pos pos' with
  | zero => exact List.cons.inj hspread |>.1
  | succ h ih =>
    obtain ⟨hleft, hright⟩ := List.append_inj hspread (by rw [length_spread, length_spread])
    rw [nodeAt_succ, nodeAt_succ, children_eq, children_eq, ih hleft, ih hright]

/-- And the other way round, as long as no two of the pairs above the leaves collide. -/
theorem spread_injective {top top' : ℕ}
    (hinj : Set.InjOn (hashPair H) {q | q ∈ treePairs H n f top ++ treePairs H n' f' top'})
    {h : ℕ} (hh : h ≤ top) (hh' : h ≤ top') {pos pos' : ℕ} (hpos : pos * 2 ^ h < n)
    (hpos' : pos' * 2 ^ h < n') (hnode : nodeAt H n f h pos = nodeAt H n' f' h pos') :
    spread n f h pos = spread n' f' h pos' := by
  induction h generalizing pos pos' with
  | zero => exact congrArg (fun a => [a]) hnode
  | succ h ih =>
    have hpair := hinj (List.mem_append_left _ (mem_treePairs hh hpos))
      (List.mem_append_right _ (mem_treePairs hh' hpos')) hnode
    rw [children_eq, children_eq, Prod.mk.injEq] at hpair
    rw [spread, spread, ih (by omega) (by omega) (left_lt hpos) (left_lt hpos') hpair.1,
      ih (by omega) (by omega) (rightPos_lt hpos) (rightPos_lt hpos') hpair.2]

/-- Below a node of a lower tree that is a node of a higher one, the first leaf is a node as well. -/
theorem leaf_eq_nodeAt {top top' : ℕ}
    (hinj : Set.InjOn (hashPair H) {q | q ∈ treePairs H n f top ++ treePairs H n' f' top'})
    {h k : ℕ} (hh : h ≤ top) (hh' : h + k ≤ top') {pos pos' : ℕ} (hpos : pos * 2 ^ h < n)
    (hpos' : pos' * 2 ^ (h + k) < n') (hnode : nodeAt H n f h pos = nodeAt H n' f' (h + k) pos') :
    f (pos * 2 ^ h) = nodeAt H n' f' k (pos' * 2 ^ h) := by
  induction h generalizing pos pos' with
  | zero => simpa [nodeAt] using hnode
  | succ h ih =>
    have hadd : h + 1 + k = h + k + 1 := by omega
    rw [hadd] at hnode hpos' hh'
    have hpair := hinj (List.mem_append_left _ (mem_treePairs hh hpos))
      (List.mem_append_right _ (mem_treePairs hh' hpos')) hnode
    rw [children_eq, children_eq, Prod.mk.injEq] at hpair
    have hfirst := ih (by omega) (by omega) (left_lt hpos) (left_lt hpos') hpair.1
    rwa [Nat.mul_assoc, Nat.mul_assoc, ← Nat.pow_succ'] at hfirst

/-- A tree whose first leaf is no node of another tree is not the lower one of the two. -/
theorem height_le_of_nodeAt_eq (hn : 0 < n) (hn' : 0 < n')
    (hinj : Set.InjOn (hashPair H)
      {q | q ∈ treePairs H n f (height n) ++ treePairs H n' f' (height n')})
    (hleaf : ∀ q ∈ treePairs H n' f' (height n'), f 0 ≠ hashPair H q)
    (hroot : nodeAt H n f (height n) 0 = nodeAt H n' f' (height n') 0) : height n' ≤ height n := by
  by_contra hlt
  obtain ⟨k, hk⟩ := Nat.exists_eq_add_of_lt (Nat.lt_of_not_le hlt)
  rw [hk, Nat.add_assoc] at hroot
  have hfirst := leaf_eq_nodeAt hinj le_rfl (by omega) (by omega) (by omega) hroot
  rw [Nat.zero_mul, nodeAt_succ] at hfirst
  exact hleaf _ (mem_treePairs (by omega) (by omega)) hfirst

/-- The root determines what its leaves spread to, if no leaf is a node of the other tree. -/
theorem spread_eq_of_root_eq (hn : 0 < n) (hn' : 0 < n')
    (hinj : Set.InjOn (hashPair H)
      {q | q ∈ treePairs H n f (height n) ++ treePairs H n' f' (height n')})
    (hleaf : ∀ q ∈ treePairs H n' f' (height n'), f 0 ≠ hashPair H q)
    (hleaf' : ∀ q ∈ treePairs H n f (height n), f' 0 ≠ hashPair H q)
    (hroot : nodeAt H n f (height n) 0 = nodeAt H n' f' (height n') 0) :
    height n = height n' ∧ spread n f (height n) 0 = spread n' f' (height n') 0 := by
  have hinj' : Set.InjOn (hashPair H)
      {q | q ∈ treePairs H n' f' (height n') ++ treePairs H n f (height n)} := by
    apply hinj.mono
    intro q hq
    exact List.mem_append.2 (List.mem_append.1 hq).symm
  have hle := height_le_of_nodeAt_eq hn hn' hinj hleaf hroot
  have hge := height_le_of_nodeAt_eq hn' hn hinj' hleaf' hroot.symm
  have hheight : height n = height n' := by omega
  refine ⟨hheight, ?_⟩
  rw [← hheight] at hroot
  have hspread : spread n f (height n) 0 = spread n' f' (height n) 0 :=
    spread_injective hinj le_rfl hheight.le (by omega) (by omega) hroot
  rw [hspread, hheight]

/-! ## What a list of leaves spreads to -/

/-- The leaves below a node come first, in their order, and the rest repeats some of them. -/
theorem spread_eq_append {h pos : ℕ} (hpos : pos * 2 ^ h < n) :
    ∃ rest, spread n f h pos = (leaves n h pos).map f ++ rest ∧ rest ⊆ (leaves n h pos).map f := by
  induction h generalizing pos with
  | zero =>
    rw [Nat.pow_zero, Nat.mul_one] at hpos
    exact ⟨[], by rw [spread, leaves_zero hpos]; rfl, List.nil_subset _⟩
  | succ h ih =>
    obtain ⟨rest, hrest, hsub⟩ := ih (left_lt hpos)
    rw [spread, leaves_succ, List.map_append, rightPos]
    split_ifs with hw
    · -- the left child is complete, as there are leaves to its right
      obtain ⟨rest', hrest', hsub'⟩ := ih (lt_width_iff.mp hw)
      have hfull : rest = [] := by
        have hlen := congrArg List.length hrest
        have hroom := lt_width_iff.mp hw
        have hleaves : (leaves n h (pos * 2)).length = 2 ^ h := by
          rw [leaves, List.filter_eq_self.mpr, List.length_range']
          intro i hi
          rw [List.mem_range'_1] at hi
          rw [Nat.add_mul, Nat.one_mul] at hroom
          exact decide_eq_true (by omega)
        rw [length_spread, List.length_append, List.length_map, hleaves] at hlen
        exact List.length_eq_zero_iff.mp (by omega)
      rw [hrest, hrest', hfull, List.append_nil, ← List.append_assoc]
      exact ⟨rest', rfl, fun a ha => List.mem_append_right _ (hsub' ha)⟩
    · have hnil := leaves_eq_nil (Nat.le_of_not_lt (mt lt_width_iff.mpr hw))
      rw [hnil, List.map_nil, List.append_nil, hrest]
      refine ⟨rest ++ ((leaves n h (pos * 2)).map f ++ rest), by rw [List.append_assoc], ?_⟩
      intro a ha
      rcases List.mem_append.1 ha with ha | ha
      · exact hsub ha
      · exact (List.mem_append.1 ha).elim id fun ha => hsub ha

theorem spread_top (hn : 0 < n) {h : ℕ} (hh : n ≤ 2 ^ h) :
    ∃ rest, spread n f h 0 = (List.range n).map f ++ rest ∧ rest ⊆ (List.range n).map f := by
  have happend := spread_eq_append (f := f) (h := h) (by rwa [Nat.zero_mul] : 0 * 2 ^ h < n)
  rwa [leaves_top hh] at happend

/-- Only leaves are listed. -/
theorem mem_spread_top (hn : 0 < n) {h : ℕ} (hh : n ≤ 2 ^ h) {a : α} (ha : a ∈ spread n f h 0) :
    a ∈ (List.range n).map f := by
  obtain ⟨rest, hrest, hsub⟩ := spread_top (f := f) hn hh
  rw [hrest] at ha
  exact (List.mem_append.1 ha).elim id fun ha => hsub ha

/-- Of two lists that spread to the same list one is an initial part of the other, and it lists all
that the other one does. -/
theorem eq_of_append_eq {xs ys rs ss : List α} (h : xs ++ rs = ys ++ ss) (hrs : rs ⊆ xs)
    (hle : xs.length ≤ ys.length) (hys : ys.Nodup) : xs = ys := by
  obtain ⟨t, rfl⟩ : xs <+: ys :=
    List.prefix_of_prefix_length_le (List.prefix_append xs rs) (h ▸ List.prefix_append ys ss) hle
  rw [List.append_assoc, List.append_cancel_left_eq] at h
  cases t with
  | nil => rw [List.append_nil]
  | cons a t =>
    have ha : a ∈ xs := hrs (h ▸ List.mem_cons_self)
    exact absurd ha fun hx => (List.nodup_append.1 hys).2.2 a hx a List.mem_cons_self rfl

/-- Lists are known from what a function makes of them that tells their elements apart. -/
theorem eq_of_map_eq {β : Type} {g : α → β} {xs ys : List α}
    (hg : Set.InjOn g {a | a ∈ xs ++ ys}) (h : xs.map g = ys.map g) : xs = ys := by
  induction xs generalizing ys with
  | nil => exact (List.map_eq_nil_iff.1 h.symm).symm
  | cons x xs ih =>
    cases ys with
    | nil => cases h
    | cons y ys =>
      rw [List.map_cons, List.map_cons, List.cons.injEq] at h
      have hhead : x = y := hg (by simp) (by simp) h.1
      have htail : xs = ys := by
        apply ih (hg.mono _) h.2
        intro a ha
        rcases List.mem_append.1 ha with ha | ha <;> simp [ha]
      rw [hhead, htail]

/-- Lists of different leaves that spread to the same list are equal. -/
theorem map_eq_of_spread_eq (hn : 0 < n) (hn' : 0 < n') {h : ℕ} (hh : n ≤ 2 ^ h) (hh' : n' ≤ 2 ^ h)
    (hspread : spread n f h 0 = spread n' f' h 0) (hnodup : ((List.range n).map f).Nodup)
    (hnodup' : ((List.range n').map f').Nodup) : (List.range n).map f = (List.range n').map f' := by
  obtain ⟨rs, hrs, hsub⟩ := spread_top hn (f := f) hh
  obtain ⟨ss, hss, hsub'⟩ := spread_top hn' (f := f') hh'
  rw [hrs, hss] at hspread
  rcases Nat.le_total n n' with hle | hle
  · exact eq_of_append_eq hspread hsub (by simpa using hle) hnodup'
  · exact (eq_of_append_eq hspread.symm hsub' (by simpa using hle) hnodup).symm

/-- So are lists of one length. -/
theorem map_eq_of_spread_eq_of_length (hn : 0 < n) {h : ℕ} (hh : n ≤ 2 ^ h)
    (hspread : spread n f h 0 = spread n f' h 0) : (List.range n).map f = (List.range n).map f' := by
  obtain ⟨rs, hrs, -⟩ := spread_top hn (f := f) hh
  obtain ⟨ss, hss, -⟩ := spread_top hn (f := f') hh
  rw [hrs, hss] at hspread
  exact (List.append_inj hspread (by simp)).1

/-! ## Partial trees of any size -/

/-- What a partial tree with the root of a tree marks is a leaf of the tree or a node above its leaves,
whatever number of leaves the partial tree is made for, if no leaf is a node of the partial tree. -/
theorem PartialTree.exists_leaf_of_found {top k h : ℕ} {t : PartialTree α h} {pos pos' : ℕ}
    (hinj : Set.InjOn (hashPair H) {q | q ∈ t.pairs H ++ treePairs H n f top}) (hk : k ≤ top)
    (hpos : pos * 2 ^ k < n) (hroot : t.root H = nodeAt H n f k pos)
    (hleaf : ∀ i < n, ∀ q ∈ t.pairs H, f i ≠ hashPair H q) {p : ℕ × α} (hp : p ∈ t.found pos')
    (hx : ∀ q ∈ treePairs H n f top, p.2 ≠ hashPair H q) : ∃ i < n, p.2 = f i := by
  induction t generalizing k pos pos' with
  | leaf x b =>
    cases b with
    | false => cases hp
    | true =>
      obtain rfl := List.mem_singleton.mp hp
      cases k with
      | zero =>
        rw [Nat.pow_zero, Nat.mul_one] at hpos
        exact ⟨pos, hpos, hroot⟩
      | succ k => exact absurd hroot (hx _ (mem_treePairs hk hpos))
  | pruned x => cases hp
  | one t ih =>
    cases k with
    | zero =>
      rw [Nat.pow_zero, Nat.mul_one] at hpos
      exact absurd hroot.symm (hleaf pos hpos _ (by simp [pairs]))
    | succ k =>
      have hpair := hinj (by simp [pairs]) (List.mem_append_right _ (mem_treePairs hk hpos)) hroot
      have hsub : t.pairs H ⊆ (one t).pairs H := List.subset_cons_self _ _
      exact ih (injOn_mono hsub hinj) (by omega) (left_lt hpos) (congrArg Prod.fst hpair)
        (fun i hi q hq => hleaf i hi q (hsub hq)) hp
  | @two h l r ihl ihr =>
    cases k with
    | zero =>
      rw [Nat.pow_zero, Nat.mul_one] at hpos
      exact absurd hroot.symm (hleaf pos hpos _ (by simp [pairs]))
    | succ k =>
      have hpair := hinj (by simp [pairs]) (List.mem_append_right _ (mem_treePairs hk hpos)) hroot
      rcases List.mem_append.mp hp with hl | hr
      · have hsub : l.pairs H ⊆ (two l r).pairs H :=
          List.subset_cons_of_subset _ (List.subset_append_left _ _)
        exact ihl (injOn_mono hsub hinj) (by omega) (left_lt hpos) (congrArg Prod.fst hpair)
          (fun i hi q hq => hleaf i hi q (hsub hq)) hl
      · have hsub : r.pairs H ⊆ (two l r).pairs H :=
          List.subset_cons_of_subset _ (List.subset_append_right _ _)
        rw [children_eq] at hpair
        exact ihr (injOn_mono hsub hinj) (by omega) (rightPos_lt hpos) (congrArg Prod.snd hpair)
          (fun i hi q hq => hleaf i hi q (hsub hq)) hr

end Merkle
