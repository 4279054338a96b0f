import RustDogecoin.Taproot.ControlBlock

/-!
# The order of nodes and scripts

The derived orders of `taproot/mod.rs`, by their fields in turn: of the keys and the sets of a script map,
and of the nodes that a heap of nodes compares.
-/

namespace RustDogecoin

namespace Taproot

/-- A script with its version, as the key of a script map. -/
structure ScriptVer where
  script : Bytes
  ver : LeafVersion
  deriving DecidableEq, Repr

instance : LinearOrder ScriptVer :=
  LinearOrder.lift' (fun k => toLex (k.script.rank, k.ver.rank)) fun k k' h => by
    obtain ⟨script, ver⟩ := k
    obtain ⟨script', ver'⟩ := k'
    simp only [EmbeddingLike.apply_eq_iff_eq, Prod.mk.injEq] at h
    cases Bytes.rank_injective h.1
    cases LeafVersion.rank_injective h.2
    rfl

instance : LinearOrder TaprootMerkleBranch :=
  LinearOrder.lift' TaprootMerkleBranch.hashes fun b b' h => by
    cases b
    cases b'
    cases h
    rfl

/-- Scripts come before hidden leaves. -/
def TapLeaf.rank : TapLeaf → ℕ ×ₗ List ℕ ×ₗ ℕ ×ₗ ℕ
  | script s ver => toLex (0, toLex (s.rank, ver.rank))
  | hidden hash => toLex (1, toLex (hash.toList.rank, toLex (0, 0)))

theorem TapLeaf.rank_injective : Function.Injective TapLeaf.rank := by
  intro l l' h
  cases l <;> cases l'
  case script.script s v s' v' =>
    simp only [rank, EmbeddingLike.apply_eq_iff_eq, Prod.mk.injEq, true_and] at h
    cases Bytes.rank_injective h.1
    cases LeafVersion.rank_injective h.2
    rfl
  case hidden.hidden hash hash' =>
    simp only [rank, EmbeddingLike.apply_eq_iff_eq, Prod.mk.injEq, true_and, and_true] at h
    cases U8Array.ext (Bytes.rank_injective h)
    rfl
  all_goals simp [rank] at h

instance : LinearOrder LeafNode :=
  LinearOrder.lift' (fun l => toLex (l.leaf.rank, l.merkleBranch)) fun l l' h => by
    obtain ⟨leaf, branch⟩ := l
    obtain ⟨leaf', branch'⟩ := l'
    simp only [EmbeddingLike.apply_eq_iff_eq, Prod.mk.injEq] at h
    cases TapLeaf.rank_injective h.1
    cases h.2
    rfl

instance : LinearOrder NodeInfo :=
  LinearOrder.lift' (fun n => toLex (n.hash, toLex (n.leaves, n.hasHiddenNodes))) fun n n' h => by
    cases n
    cases n'
    cases h
    rfl

end Taproot

end RustDogecoin
