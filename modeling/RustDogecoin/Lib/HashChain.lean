import Mathlib.Data.List.Induction
import Mathlib.Data.Set.Function

/-!
# Hash chains

A chain takes up one item after the other: each link is hashed from the link before and the next item.  If no
two of the pairs that are hashed collide, the last link binds where the chain started and every item
(`eq_of_foldl_eq`).
-/

namespace HashChain

variable {α β : Type} {step : β → α → β} {x x' : β} {l l' : List α}

/-- The pairs of a link and an item that are hashed. -/
def pairs (step : β → α → β) : β → List α → List (β × α)
  | _, [] => []
  | x, a :: l => (x, a) :: pairs step (step x a) l

theorem pairs_concat (x : β) (l : List α) (a : α) :
    pairs step x (l ++ [a]) = pairs step x l ++ [(l.foldl step x, a)] := by
  induction l generalizing x with
  | nil => rfl
  | cons b l ih =>
    rw [List.cons_append, pairs, ih, pairs, List.cons_append]
    rfl

theorem mem_of_mem_pairs {p : β × α} (h : p ∈ pairs step x l) : p.2 ∈ l := by
  induction l generalizing x with
  | nil => cases h
  | cons a l ih =>
    rcases List.mem_cons.1 h with rfl | h
    · exact List.mem_cons_self
    · exact List.mem_cons_of_mem _ (ih h)

/-- Chains of the same length that end with the same link are the same. -/
theorem eq_of_foldl_eq {S : Set (β × α)} (hinj : S.InjOn fun p => step p.1 p.2) (hlen : l.length = l'.length)
    (h : ∀ p ∈ pairs step x l, p ∈ S) (h' : ∀ p ∈ pairs step x' l', p ∈ S)
    (heq : l.foldl step x = l'.foldl step x') : x = x' ∧ l = l' := by
  -- the last pair first: its hash is the end of the chain
  induction l using List.reverseRecOn generalizing l' with
  | nil =>
    obtain rfl := List.length_eq_zero_iff.1 hlen.symm
    exact ⟨heq, rfl⟩
  | append_singleton l a ih =>
    rcases List.eq_nil_or_concat l' with rfl | ⟨l', a', rfl⟩
    · simp at hlen
    · rw [List.concat_eq_append] at hlen h' heq ⊢
      rw [pairs_concat] at h h'
      rw [List.foldl_append, List.foldl_append] at heq
      have hlast := hinj (h _ (List.mem_append_right _ (List.mem_singleton_self _)))
        (h' _ (List.mem_append_right _ (List.mem_singleton_self _))) heq
      obtain ⟨hlink, rfl⟩ := Prod.mk.inj hlast
      obtain ⟨hx, rfl⟩ := ih (by simpa using hlen) (fun p hp => h p (List.mem_append_left _ hp))
        (fun p hp => h' p (List.mem_append_left _ hp)) hlink
      exact ⟨hx, rfl⟩

end HashChain
