import Mathlib.Algebra.BigOperators.Group.List.Basic
import Mathlib.Data.List.Perm.Basic
import Mathlib.Tactic.Linarith
import Mathlib.Tactic.Ring
import RustDogecoin.Lib.DepthFirst

/-!
# Huffman's trees

A forest of weighted trees is merged, two trees of least weight at a time, until one tree is left
(`Merges`; which two are taken among equal weights is left open).  The tree has the least sum of leaf
weights times leaf depths among all full binary trees with these leaves (`Merges.cost_le`).

What a competitor contributes is only the list of its leaf depths, paired with the weights.  The two
least weights may be moved to a deepest pair of siblings (`exists_exchange`), and that pair may be
contracted to their parent (`exists_contracts`).
-/

namespace DepthFirst

variable {α β : Type}

namespace LeafTree

/-- The depths of the leaves, the root being at depth `k`. -/
def depthsAt (t : LeafTree α) (k : ℕ) : List ℕ := (t.walk k).map Prod.fst

theorem depthsAt_node (l r : LeafTree α) (k : ℕ) :
    (node l r).depthsAt k = l.depthsAt (k + 1) ++ r.depthsAt (k + 1) := List.map_append

theorem depthsAt_one (t : LeafTree α) : t.depthsAt 1 = t.depths.map fun d => d + 1 := by
  rw [depthsAt, walk_eq_map, depths, List.map_map, List.map_map]
  rfl

theorem depths_map (f : α → β) (t : LeafTree α) : (t.map f).depths = t.depths := by
  rw [depths, walk_map, List.map_map]
  rfl

theorem le_of_mem_depthsAt {t : LeafTree α} {k d : ℕ} (h : d ∈ t.depthsAt k) : k ≤ d := by
  rw [depthsAt, walk_eq_map, List.map_map] at h
  obtain ⟨q, -, rfl⟩ := List.mem_map.1 h
  exact Nat.le_add_left k q.1

/-! ## Deepest siblings -/

/-- `ds` has two greatest entries `d + 1`, and contracting them gives the depths of a tree. -/
def Contracts (α : Type) (k d : ℕ) (ds : List ℕ) : Prop :=
  ∃ rest, ds.Perm ((d + 1) :: (d + 1) :: rest) ∧ (∀ e ∈ ds, e ≤ d + 1) ∧
    ∃ t : LeafTree α, (t.depthsAt k).Perm (d :: rest)

theorem Contracts.perm {k d : ℕ} {ds ds' : List ℕ} (h : Contracts α k d ds) (hperm : ds'.Perm ds) :
    Contracts α k d ds' := by
  obtain ⟨rest, hds, hle, ht⟩ := h
  exact ⟨rest, hperm.trans hds, fun e he => hle e (hperm.subset he), ht⟩

/-- A sibling that is not deeper does not matter. -/
theorem Contracts.beside {l r : LeafTree α} {k d : ℕ} (h : Contracts α (k + 1) d (l.depthsAt (k + 1)))
    (hr : ∀ e ∈ r.depthsAt (k + 1), e ≤ d + 1) : Contracts α k d ((node l r).depthsAt k) := by
  obtain ⟨rest, hds, hle, t, ht⟩ := h
  rw [depthsAt_node]
  refine ⟨rest ++ r.depthsAt (k + 1), hds.append_right _, ?_, node t r, ?_⟩
  · intro e he
    exact (List.mem_append.1 he).elim (hle e) (hr e)
  · rw [depthsAt_node]
    exact ht.append_right _

theorem Contracts.le {k d : ℕ} {ds : List ℕ} (h : Contracts α k d ds) : k ≤ d := by
  obtain ⟨rest, -, -, t, ht⟩ := h
  exact le_of_mem_depthsAt (ht.symm.subset List.mem_cons_self)

/-- A tree that is not a leaf has a deepest pair of siblings. -/
theorem exists_contracts (t : LeafTree α) (k : ℕ) :
    (∃ a, t = leaf a) ∨ ∃ d, Contracts α k d (t.depthsAt k) := by
  induction t generalizing k with
  | leaf a => exact .inl ⟨a, rfl⟩
  | node l r ihl ihr =>
    have hswap : ((node l r).depthsAt k).Perm ((node r l).depthsAt k) := by
      rw [depthsAt_node, depthsAt_node]
      exact List.perm_append_comm
    have hleaf : ∀ (a : α) (d : ℕ), k + 1 ≤ d → ∀ e ∈ (leaf a).depthsAt (k + 1), e ≤ d + 1 := by
      intro a d hd e he
      obtain rfl : e = k + 1 := List.mem_singleton.1 he
      omega
    right
    rcases ihl (k + 1) with ⟨a, rfl⟩ | ⟨d, hl⟩
    · rcases ihr (k + 1) with ⟨b, rfl⟩ | ⟨d, hr⟩
      · refine ⟨k, [], List.Perm.refl _, ?_, leaf a, List.Perm.refl _⟩
        simp [depthsAt, walk]
      · exact ⟨d, (hr.beside (hleaf a d hr.le)).perm hswap⟩
    · rcases ihr (k + 1) with ⟨b, rfl⟩ | ⟨e, hr⟩
      · exact ⟨d, hl.beside (hleaf b d hl.le)⟩
      · obtain ⟨restl, hdl, hlel, htl⟩ := id hl
        obtain ⟨restr, hdr, hler, htr⟩ := id hr
        rcases Nat.le_total e d with hle | hle
        · exact ⟨d, hl.beside fun f hf => (hler f hf).trans (by omega)⟩
        · exact ⟨e, (hr.beside fun f hf => (hlel f hf).trans (by omega)).perm hswap⟩

end LeafTree

open LeafTree

/-! ## Pairing depths with weights -/

/-- The sum of the depths times the weights. -/
def total (P : List (ℕ × ℕ)) : ℕ := (P.map fun p => p.1 * p.2).sum

theorem total_cons (p : ℕ × ℕ) (P : List (ℕ × ℕ)) : total (p :: P) = p.1 * p.2 + total P := rfl

theorem total_perm {P Q : List (ℕ × ℕ)} (h : P.Perm Q) : total P = total Q := (h.map _).sum_eq

/-- The least weight may stand at the greatest depth. -/
theorem exists_exchange {P : List (ℕ × ℕ)} {d x : ℕ} {D W : List ℕ} (hD : (P.map Prod.fst).Perm (d :: D))
    (hd : ∀ e ∈ D, e ≤ d) (hW : (P.map Prod.snd).Perm (x :: W)) (hx : ∀ w ∈ W, x ≤ w) :
    ∃ Q : List (ℕ × ℕ), (Q.map Prod.fst).Perm D ∧ (Q.map Prod.snd).Perm W ∧
      d * x + total Q ≤ total P := by
  obtain ⟨⟨d', a⟩, hda, hd'⟩ := List.mem_map.1 (hD.symm.subset (List.mem_cons_self (a := d) (l := D)))
  obtain rfl : d' = d := hd'
  obtain ⟨⟨e, x'⟩, hex, hx'⟩ := List.mem_map.1 (hW.symm.subset (List.mem_cons_self (a := x) (l := W)))
  obtain rfl : x' = x := hx'
  have hP := List.perm_cons_erase hda
  have hfst : ((P.erase (d', a)).map Prod.fst).Perm D :=
    ((hP.map Prod.fst).symm.trans hD).cons_inv
  have hcost := total_perm hP
  rw [total_cons] at hcost
  by_cases hax : a = x'
  · subst hax
    exact ⟨P.erase (d', a), hfst, ((hP.map Prod.snd).symm.trans hW).cons_inv, hcost.ge⟩
  · -- the two entries change their weights
    have hmem : (e, x') ∈ P.erase (d', a) :=
      (List.mem_erase_of_ne fun h => hax (Prod.mk.inj h).2.symm).2 hex
    have hR := List.perm_cons_erase hmem
    set R := (P.erase (d', a)).erase (e, x')
    have hsnd : (a :: R.map Prod.snd).Perm W := by
      have hperm : (x' :: a :: R.map Prod.snd).Perm (x' :: W) :=
        (List.Perm.swap _ _ _).trans (((hP.trans (hR.cons _)).map Prod.snd).symm.trans hW)
      exact hperm.cons_inv
    have hR' : (e :: R.map Prod.fst).Perm D := (hR.map Prod.fst).symm.trans hfst
    refine ⟨(e, a) :: R, hR', hsnd, ?_⟩
    have he : e ≤ d' := hd e (hR'.subset List.mem_cons_self)
    have ha : x' ≤ a := hx a (hsnd.subset List.mem_cons_self)
    have hcost' := total_perm hR
    rw [total_cons] at hcost'
    obtain ⟨u, rfl⟩ := Nat.exists_eq_add_of_le he
    obtain ⟨v, rfl⟩ := Nat.exists_eq_add_of_le ha
    rw [hcost, hcost', total_cons]
    dsimp only
    have hmul : (e + u) * (x' + v) = e * x' + e * v + u * x' + u * v := by ring
    have hmul' : (e + u) * x' = e * x' + u * x' := by ring
    have hmul'' : e * (x' + v) = e * x' + e * v := by ring
    omega

/-! ## Merging a forest -/

/-- Two trees of least weight are merged until one tree is left. -/
inductive Merges : List (ℕ × LeafTree α) → LeafTree α → Prop
  | done (p : ℕ × LeafTree α) : Merges [p] p.2
  | step {F rest : List (ℕ × LeafTree α)} {x y : ℕ × LeafTree α} {t : LeafTree α}
    (hF : F.Perm (x :: y :: rest)) (hx : ∀ z ∈ y :: rest, x.1 ≤ z.1) (hy : ∀ z ∈ rest, y.1 ≤ z.1) :
    Merges ((x.1 + y.1, node y.2 x.2) :: rest) t → Merges F t

section Cost

variable (w : α → ℕ)

/-- The sum of the weights of the leaves. -/
def weight (t : LeafTree α) : ℕ := (t.leaves.map w).sum

/-- The sum of the weights of the leaves times their depths. -/
def cost (t : LeafTree α) : ℕ := ((t.walk 0).map fun p => p.1 * w p.2).sum

theorem cost_node (l r : LeafTree α) : cost w (node l r) = cost w l + weight w l + (cost w r + weight w r) := by
  have hdown : ∀ t : LeafTree α,
      ((t.walk 1).map fun p => p.1 * w p.2).sum = cost w t + weight w t := by
    intro t
    rw [walk_eq_map, cost, weight, leaves]
    induction t.walk 0 with
    | nil => rfl
    | cons p l ih =>
      simp only [List.map_cons, List.sum_cons, ih]
      ring
  rw [cost, walk, List.map_append, List.sum_append, hdown, hdown]

theorem weight_node (l r : LeafTree α) : weight w (node l r) = weight w l + weight w r := by
  rw [weight, leaves_node, List.map_append, List.sum_append, weight, weight]

end Cost

namespace Merges

variable {F : List (ℕ × LeafTree α)} {t : LeafTree α}

/-- No leaf is lost, and none is added. -/
theorem leaves_perm (h : Merges F t) : t.leaves.Perm (F.flatMap fun p => p.2.leaves) := by
  induction h with
  | done p => simp
  | @step F rest x y t hF _ _ _ ih =>
    refine ih.trans (List.Perm.trans ?_ (hF.flatMap_right _).symm)
    rw [List.flatMap_cons, List.flatMap_cons, List.flatMap_cons, leaves_node, ← List.append_assoc]
    exact List.perm_append_comm.append_right _

/-- Leaves only get deeper. -/
theorem exists_le (h : Merges F t) {p : ℕ × LeafTree α} (hp : p ∈ F) {d : ℕ} (hd : d ∈ p.2.depths) :
    ∃ e ∈ t.depths, d ≤ e := by
  induction h generalizing p d with
  | done q =>
    obtain rfl := List.mem_singleton.1 hp
    exact ⟨d, hd, le_rfl⟩
  | @step F rest x y t hF _ _ _ ih =>
    have hdown : ∀ {s : LeafTree α}, d ∈ s.depths → d + 1 ∈ s.depthsAt 1 := by
      intro s hs
      rw [depthsAt_one]
      exact List.mem_map.2 ⟨d, hs, rfl⟩
    have hjoin : d + 1 ∈ y.2.depthsAt 1 ++ x.2.depthsAt 1 → ∃ e ∈ t.depths, d ≤ e := by
      intro hmem
      rw [← depthsAt_node] at hmem
      obtain ⟨e, he, hle⟩ := ih List.mem_cons_self hmem
      exact ⟨e, he, (Nat.le_succ d).trans hle⟩
    rcases List.mem_cons.1 (hF.subset hp) with rfl | hp
    · exact hjoin (List.mem_append_right _ (hdown hd))
    · rcases List.mem_cons.1 hp with rfl | hp
      · exact hjoin (List.mem_append_left _ (hdown hd))
      · exact ih (List.mem_cons_of_mem _ hp) hd

/-- The merged tree costs no more than the weights of the forest at the depths of any other tree, on top
of what the forest costs. -/
theorem cost_le_total {w : α → ℕ} (h : Merges F t) (hF : ∀ p ∈ F, p.1 = weight w p.2) {t' : LeafTree β}
    {P : List (ℕ × ℕ)} (hfst : (P.map Prod.fst).Perm (t'.depthsAt 0))
    (hsnd : (P.map Prod.snd).Perm (F.map Prod.fst)) :
    cost w t ≤ total P + (F.map fun p => cost w p.2).sum := by
  induction h generalizing t' P with
  | done p =>
    simp
  | @step F rest x y t hperm hx hy _ ih =>
    have hweights := hsnd.trans (hperm.map Prod.fst)
    rw [List.map_cons, List.map_cons] at hweights
    have hlen := hweights.length_eq
    rw [List.length_cons, List.length_cons] at hlen
    rcases exists_contracts t' 0 with ⟨a, rfl⟩ | ⟨d, D, hD, hle, s, hs⟩
    · have hone := hfst.length_eq
      simp [depthsAt, walk] at hone hlen
      omega
    -- the two least weights move to the deepest siblings
    have hle' : ∀ e ∈ (d + 1) :: D, e ≤ d + 1 := fun e he =>
      hle e (hD.symm.subset (List.mem_cons_of_mem _ he))
    obtain ⟨Q, hQfst, hQsnd, hQ⟩ := exists_exchange (hfst.trans hD) hle' hweights (by
      intro v hv
      rw [← List.map_cons] at hv
      obtain ⟨z, hz, rfl⟩ := List.mem_map.1 hv
      exact hx z hz)
    obtain ⟨R, hRfst, hRsnd, hR⟩ := exists_exchange hQfst
      (fun e he => hle' e (List.mem_cons_of_mem _ he)) hQsnd (by
        intro v hv
        obtain ⟨z, hz, rfl⟩ := List.mem_map.1 hv
        exact hy z hz)
    -- and their parent takes the place of the merged tree
    have hxw : x.1 = weight w x.2 := hF x (hperm.symm.subset List.mem_cons_self)
    have hyw : y.1 = weight w y.2 := hF y (hperm.symm.subset (by simp))
    have hnext : ∀ p ∈ (x.1 + y.1, node y.2 x.2) :: rest, p.1 = weight w p.2 := by
      intro p hp
      rcases List.mem_cons.1 hp with rfl | hp
      · rw [weight_node, hxw, hyw, Nat.add_comm]
      · exact hF p (hperm.symm.subset (by simp [hp]))
    have hstep := @ih hnext s ((d, x.1 + y.1) :: R) ((hRfst.cons d).trans hs.symm)
      (hRsnd.cons (x.1 + y.1))
    have hsum : (F.map fun p => cost w p.2).sum =
        cost w x.2 + (cost w y.2 + (rest.map fun p => cost w p.2).sum) := by
      rw [(hperm.map fun p => cost w p.2).sum_eq]
      rfl
    rw [List.map_cons, List.sum_cons, total_cons, cost_node] at hstep
    dsimp only at hstep
    have hx' : (d + 1) * x.1 = d * x.1 + x.1 := by ring
    have hy' : (d + 1) * y.1 = d * y.1 + y.1 := by ring
    have hxy : d * (x.1 + y.1) = d * x.1 + d * y.1 := by ring
    omega

/-- Merging the leaves gives a tree of least cost on them. -/
theorem cost_le {w : α → ℕ} {as : List α} (h : Merges (as.map fun a => (w a, leaf a)) t) {t' : LeafTree α}
    (ht' : t'.leaves.Perm as) : cost w t ≤ cost w t' := by
  have hF : ∀ p ∈ as.map fun a => (w a, leaf a), p.1 = weight w p.2 := by
    intro p hp
    obtain ⟨a, -, rfl⟩ := List.mem_map.1 hp
    simp [weight, leaves, walk]
  have hzero : ((as.map fun a => (w a, leaf a)).map fun p => cost w p.2).sum = 0 := by
    rw [List.map_map]
    simp [cost, walk, Function.comp_def]
  have hle := @cost_le_total _ _ _ t w h hF t' ((t'.walk 0).map fun p => (p.1, w p.2))
    (by rw [List.map_map]; exact List.Perm.refl _) (by
      rw [List.map_map, List.map_map]
      have hmap := ht'.map w
      rw [leaves, List.map_map] at hmap
      exact hmap)
  rw [hzero, Nat.add_zero, total, List.map_map] at hle
  exact hle

end Merges

end DepthFirst
