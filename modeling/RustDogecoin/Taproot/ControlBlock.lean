import RustDogecoin.Crypto.Key
import RustDogecoin.Taproot.Node

/-!
# Control blocks

`taproot/mod.rs`: the control block of a script path, with its byte form.
-/

namespace RustDogecoin

/-- The error of `Hash::from_slice`. -/
structure HashFromSliceError where
  expected : ℕ
  got : ℕ
  deriving DecidableEq, Repr

/-- `Hash::from_slice` of a hash of `n` bytes. -/
def hashFromSlice (n : ℕ) (sl : Bytes) : Outcome HashFromSliceError (U8Array n) :=
  if h : sl.length = n then .ok ⟨sl, h⟩ else .err ⟨n, sl.length⟩

theorem hashFromSlice_toList {n : ℕ} (a : U8Array n) : hashFromSlice n a.toList = .ok a :=
  dif_pos a.length_eq

/-- `count` pieces of `size` bytes off the front. -/
def chunksExact (size : ℕ) : ℕ → Bytes → List Bytes
  | 0, _ => []
  | count + 1, bs => bs.take size :: chunksExact size count (bs.drop size)

theorem chunksExact_flatMap {n : ℕ} (as : List (U8Array n)) :
    chunksExact n as.length (as.flatMap U8Array.toList) = as.map U8Array.toList := by
  induction as with
  | nil => rfl
  | cons a as ih =>
    rw [List.flatMap_cons, List.length_cons, chunksExact, List.take_left' a.length_eq,
      List.drop_left' a.length_eq, ih, List.map_cons]

theorem length_flatMap_toList {n : ℕ} (as : List (U8Array n)) :
    (as.flatMap U8Array.toList).length = n * as.length := by
  induction as with
  | nil => rfl
  | cons a as ih =>
    rw [List.flatMap_cons, List.length_append, ih, a.length_eq, List.length_cons, Nat.mul_succ,
      Nat.add_comm]

namespace Taproot

def TAPROOT_LEAF_MASK : UInt8 := 0xfe

def TAPROOT_CONTROL_NODE_SIZE : ℕ := 32

def TAPROOT_CONTROL_BASE_SIZE : ℕ := 33

variable (S : KeyFormats)

/-- `TaprootError`, as far as control blocks cause it. -/
inductive ControlBlockError where
  | leafVersion (e : TaprootError)
  | invalidControlBlockSize (len : ℕ)
  | invalidInternalKey (e : S.Error)
  | invalidMerkleBranchSize (len : ℕ)
  | invalidMerkleTreeDepth (depth : ℕ)

/-- `secp256k1::Parity`. -/
inductive Parity where
  | even
  | odd
  deriving DecidableEq, Repr

/-- The conversion of a parity to a number. -/
def Parity.toU8 : Parity → UInt8
  | even => 0
  | odd => 1

structure ControlBlock where
  leafVersion : LeafVersion
  outputKeyParity : Parity
  internalKey : S.XOnlyPublicKey
  merkleBranch : TaprootMerkleBranch

variable {S}

/-! ## The byte form -/

/-- `TaprootMerkleBranch::decode`. -/
def TaprootMerkleBranch.decode (sl : Bytes) : Outcome (ControlBlockError S) TaprootMerkleBranch := do
  .ensure (sl.length % TAPROOT_CONTROL_NODE_SIZE = 0) (.invalidMerkleBranchSize sl.length)
  if TAPROOT_CONTROL_NODE_SIZE * TAPROOT_CONTROL_MAX_NODE_COUNT < sl.length then
    .err (.invalidMerkleTreeDepth (sl.length / TAPROOT_CONTROL_NODE_SIZE))
  else
    let inner ← (chunksExact TAPROOT_CONTROL_NODE_SIZE (sl.length / TAPROOT_CONTROL_NODE_SIZE) sl).mapM
      fun chunk => (hashFromSlice 32 chunk).expect.lift
    if h : inner.length ≤ TAPROOT_CONTROL_MAX_NODE_COUNT then return ⟨inner, h⟩
    else .panic .assertion

/-- `TaprootMerkleBranch::serialize`. -/
def TaprootMerkleBranch.serialize (branch : TaprootMerkleBranch) : Bytes :=
  branch.hashes.flatMap U8Array.toList

namespace ControlBlock

/-- `ControlBlock::decode`. -/
def decode (sl : Bytes) : Outcome (ControlBlockError S) (ControlBlock S) := do
  .ensure (TAPROOT_CONTROL_BASE_SIZE ≤ sl.length ∧
      (sl.length - TAPROOT_CONTROL_BASE_SIZE) % TAPROOT_CONTROL_NODE_SIZE = 0)
    (.invalidControlBlockSize sl.length)
  let first := sl.headD 0
  let outputKeyParity := if first &&& 1 = 0 then Parity.even else Parity.odd
  let leafVersion ← (LeafVersion.fromConsensus (first &&& TAPROOT_LEAF_MASK)).mapErr .leafVersion
  let internalKey ← (Outcome.ofExcept
    (S.xOnlyFromSlice ((sl.take TAPROOT_CONTROL_BASE_SIZE).drop 1))).mapErr .invalidInternalKey
  let merkleBranch ← TaprootMerkleBranch.decode (sl.drop TAPROOT_CONTROL_BASE_SIZE)
  return ⟨leafVersion, outputKeyParity, internalKey, merkleBranch⟩

/-- `ControlBlock::serialize`. -/
def serialize (cb : ControlBlock S) : Bytes :=
  (cb.outputKeyParity.toU8 ||| cb.leafVersion.toConsensus) ::
    ((S.xOnlySerialize cb.internalKey).toList ++ cb.merkleBranch.serialize)

end ControlBlock

theorem TaprootMerkleBranch.length_serialize (branch : TaprootMerkleBranch) :
    branch.serialize.length = 32 * branch.hashes.length := length_flatMap_toList _

theorem TaprootMerkleBranch.decode_serialize (branch : TaprootMerkleBranch) :
    (decode branch.serialize : Outcome (ControlBlockError S) _) = .ok branch := by
  have hlen := branch.length_serialize
  have hle : branch.hashes.length ≤ 128 := branch.length_le
  have hchunks : (chunksExact 32 branch.hashes.length branch.serialize).mapM
      (fun chunk => ((hashFromSlice 32 chunk).expect.lift : Outcome (ControlBlockError S) _)) =
      .ok branch.hashes := by
    rw [serialize, chunksExact_flatMap]
    induction branch.hashes with
    | nil => rfl
    | cons h hs ih => rw [List.map_cons, List.mapM_cons, hashFromSlice_toList, ih]; rfl
  have hdiv : branch.serialize.length / TAPROOT_CONTROL_NODE_SIZE = branch.hashes.length := by
    rw [hlen]
    exact Nat.mul_div_cancel_left _ (by decide)
  have hmod : branch.serialize.length % TAPROOT_CONTROL_NODE_SIZE = 0 := by
    rw [hlen]
    exact Nat.mul_mod_right _ _
  unfold decode
  rw [Outcome.ensure_of hmod, Outcome.ok_bind, if_neg (by rw [hlen]; exact Nat.not_lt.2 (by
    simpa [TAPROOT_CONTROL_NODE_SIZE, TAPROOT_CONTROL_MAX_NODE_COUNT] using Nat.mul_le_mul_left 32 hle)),
    hdiv]
  change (chunksExact 32 _ _).mapM _ >>= _ = _
  rw [hchunks, Outcome.ok_bind, dif_pos branch.length_le]
  rfl

theorem LeafVersion.toConsensus_even (v : LeafVersion) : v.toConsensus &&& 0xfe = v.toConsensus := by
  cases v with
  | tapScript => rfl
  | future v => exact v.even

/-- The parity stands in the low bit, which versions leave free. -/
theorem parity_or_version (p : Parity) (v : LeafVersion) :
    (if (p.toU8 ||| v.toConsensus) &&& 1 = 0 then Parity.even else Parity.odd) = p ∧
      (p.toU8 ||| v.toConsensus) &&& TAPROOT_LEAF_MASK = v.toConsensus := by
  have hall : ∀ b : Fin 256, UInt8.ofNat b.1 &&& 0xfe = UInt8.ofNat b.1 →
      (0 ||| UInt8.ofNat b.1) &&& 1 = 0 ∧ (0 ||| UInt8.ofNat b.1) &&& 0xfe = UInt8.ofNat b.1 ∧
        (1 ||| UInt8.ofNat b.1) &&& 1 ≠ 0 ∧ (1 ||| UInt8.ofNat b.1) &&& 0xfe = UInt8.ofNat b.1 := by
    decide +kernel
  have hv := hall ⟨v.toConsensus.toNat, v.toConsensus.toNat_lt⟩
  rw [UInt8.ofNat_toNat] at hv
  obtain ⟨h₁, h₂, h₃, h₄⟩ := hv v.toConsensus_even
  cases p with
  | even => exact ⟨if_pos h₁, h₂⟩
  | odd => exact ⟨if_neg h₃, h₄⟩

theorem ControlBlock.length_serialize (cb : ControlBlock S) :
    cb.serialize.length = 33 + 32 * cb.merkleBranch.hashes.length := by
  simp [ControlBlock.serialize, TaprootMerkleBranch.length_serialize]
  omega

theorem ControlBlock.decode_serialize_of
    (hkey : ∀ key, S.xOnlyFromSlice (S.xOnlySerialize key).toList = .ok key) (cb : ControlBlock S) :
    ControlBlock.decode cb.serialize = .ok cb := by
  obtain ⟨hparity, hversion⟩ := parity_or_version cb.outputKeyParity cb.leafVersion
  have hlen := cb.length_serialize
  have hbytes : ((cb.serialize.take 33).drop 1) = (S.xOnlySerialize cb.internalKey).toList := by
    rw [ControlBlock.serialize, List.take_succ_cons, List.drop_succ_cons, List.drop_zero,
      List.take_left' (U8Array.length_eq _)]
  have hbranch : cb.serialize.drop 33 = cb.merkleBranch.serialize := by
    rw [ControlBlock.serialize, List.drop_succ_cons, List.drop_left' (U8Array.length_eq _)]
  have hsize : TAPROOT_CONTROL_BASE_SIZE ≤ cb.serialize.length ∧
      (cb.serialize.length - TAPROOT_CONTROL_BASE_SIZE) % TAPROOT_CONTROL_NODE_SIZE = 0 := by
    simp only [TAPROOT_CONTROL_BASE_SIZE, TAPROOT_CONTROL_NODE_SIZE]
    omega
  have hhead : cb.serialize.headD 0 = cb.outputKeyParity.toU8 ||| cb.leafVersion.toConsensus := rfl
  unfold ControlBlock.decode
  rw [Outcome.ensure_of hsize, Outcome.ok_bind]
  simp only [Outcome.ok_bind, hhead, hversion, hparity,
    LeafVersion.fromConsensus_toConsensus, Outcome.mapErr_ok, TAPROOT_CONTROL_BASE_SIZE, hbytes, hkey,
    Outcome.ofExcept_ok, hbranch, TaprootMerkleBranch.decode_serialize, Outcome.pure_eq_ok]

theorem ControlBlock.decode_serialize (hS : S.Lawful) (cb : ControlBlock S) :
    ControlBlock.decode cb.serialize = .ok cb := cb.decode_serialize_of hS.xOnly

/-! ## The order of control blocks -/

def LeafVersion.rank : LeafVersion → ℕ ×ₗ ℕ
  | tapScript => toLex (0, 0)
  | future v => toLex (1, v.version.toNat)

theorem LeafVersion.rank_injective : Function.Injective LeafVersion.rank := by
  intro v v' h
  cases v <;> cases v'
  case tapScript.tapScript => rfl
  case future.future v v' =>
    obtain ⟨x⟩ := v
    obtain ⟨y⟩ := v'
    simp only [rank, EmbeddingLike.apply_eq_iff_eq, Prod.mk.injEq, true_and] at h
    cases UInt8.toNat_inj.1 h
    rfl
  all_goals simp [rank] at h

def ControlBlock.rank (cb : ControlBlock S) :
    (ℕ ×ₗ ℕ) ×ₗ ℕ ×ₗ S.XOnlyPublicKey ×ₗ List (U8Array 32) :=
  toLex (cb.leafVersion.rank, toLex (cb.outputKeyParity.toU8.toNat,
    toLex (cb.internalKey, cb.merkleBranch.hashes)))

theorem ControlBlock.rank_injective : Function.Injective (ControlBlock.rank (S := S)) := by
  rintro ⟨v, p, k, ⟨hs, hlen⟩⟩ ⟨v', p', k', ⟨hs', hlen'⟩⟩ h
  simp only [rank, EmbeddingLike.apply_eq_iff_eq, Prod.mk.injEq] at h
  obtain ⟨hv, hp, rfl, rfl⟩ := h
  cases LeafVersion.rank_injective hv
  cases p <;> cases p' <;> first | rfl | cases hp

instance : LinearOrder (ControlBlock S) := LinearOrder.lift' ControlBlock.rank ControlBlock.rank_injective

end Taproot

end RustDogecoin
