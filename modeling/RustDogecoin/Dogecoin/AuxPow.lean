import RustDogecoin.Dogecoin.Header
import RustDogecoin.Lib.Merkle
import RustDogecoin.Lib.Search
import Mathlib.Data.Int.ModEq

/-!
# Merged mining

`AuxPow::check` of `dogecoin/auxpow.rs`: the coinbase transaction of a parent block commits, in the
script of its first input, to the root of a tree that has the hash of the auxiliary block at a slot
fixed by a nonce and the chain id.  `Valid` says exactly what the check accepts, and it follows that
one script with a merged mining header cannot stand for two blocks of one chain.
-/

namespace RustDogecoin

namespace Dogecoin

open Search Merkle

def MERGED_MINING_HEADER : Bytes := [0xfa, 0xbe, 0x6d, 0x6d]

inductive AuxPowCoinbaseScriptValidationError where
  | missingMerkleRoot
  | multipleHeaders
  | headerNotAdjacent
  | legacyRootTooFar
  | missingMerkleSizeAndNonce
  | merkleSizeMismatch
  | invalidChainIndex
  deriving DecidableEq, Repr

inductive AuxPowValidationError where
  | auxPowNotFromCoinbase
  | parentHasSameChainId
  | chainMerkleBranchTooLong
  | invalidCoinbaseMerkleProof
  | coinbaseHasNoInputs
  | invalidAuxPowCoinbaseScript (err : AuxPowCoinbaseScriptValidationError)
  deriving DecidableEq, Repr

/-- `SHA256D(left + right)`. -/
def parentHash (left right : TxMerkleNode) : TxMerkleNode := Sha256d.hash (left.toList ++ right.toList)

namespace AuxPow

/-- Computes the merkle root from a child hash and its merkle branch proof. -/
def computeMerkleRoot (hash : BlockHash) (branch : List TxMerkleNode) (index : Int32) : TxMerkleNode :=
  match branch with
  | [] => hash
  | branchHash :: branch =>
    if index &&& 1 = 1 then
      computeMerkleRoot (Dogecoin.parentHash branchHash hash) branch (index >>> 1)
    else
      computeMerkleRoot (Dogecoin.parentHash hash branchHash) branch (index >>> 1)

/-- Returns the byte offset of the first occurrence of `needle` in `haystack`. -/
def findBytes (haystack needle : Bytes) : Option ℕ :=
  if needle.isEmpty then some 0 else find haystack needle

/-- `&script[start..]`. -/
def sliceFrom {ε : Type} (script : Bytes) (start : ℕ) : Outcome ε Bytes := do
  .require (start ≤ script.length) .outOfBounds
  return script.drop start

/-- `1u32 << n`. -/
def shiftOne {ε : Type} (n : ℕ) : Outcome ε UInt32 := do
  .require (n < 32) .overflow
  return 1 <<< UInt32.ofNat n

/-- Calculates the expected index of the AuxPow block header in the blockchain merkle tree. -/
def getExpectedIndex {ε : Type} (nonce : UInt32) (chainId : Int32) (merkleHeight : ℕ) :
    Outcome ε Int32 := do
  let rand := nonce * 1103515245 + 12345
  let rand := rand + chainId.toUInt32
  let rand := rand * 1103515245 + 12345
  let slots ← shiftOne merkleHeight
  .require (slots ≠ 0) .divideByZero
  return (rand % slots).toInt32

/-- The position of the merged mining header, if there is one. -/
def checkHeader (script : Bytes) (rootPos : ℕ) :
    Outcome AuxPowCoinbaseScriptValidationError Unit :=
  match findBytes script MERGED_MINING_HEADER with
  | some headerPos => do
    let after ← sliceFrom script (headerPos + MERGED_MINING_HEADER.length)
    .ensure (findBytes after MERGED_MINING_HEADER = none) .multipleHeaders
    .ensure (headerPos + MERGED_MINING_HEADER.length = rootPos) .headerNotAdjacent
  | none => .ensure (rootPos ≤ 20) .legacyRootTooFar

/-- Validates the merged mining header and merkle tree data in the coinbase script. -/
def checkMergedMiningCoinbaseScript (a : AuxPow) (script : Bytes) (blockchainMerkleRoot : U8Array 32)
    (chainId : Int32) : Outcome AuxPowCoinbaseScriptValidationError Unit :=
  match findBytes script blockchainMerkleRoot.toList with
  | none => .err .missingMerkleRoot
  | some rootPos => do
    checkHeader script rootPos
    let remaining ← sliceFrom script (rootPos + 32)
    .ensure (8 ≤ remaining.length) .missingMerkleSizeAndNonce
    let size := UInt32.ofNat (leNat (remaining.take 4))
    let merkleHeight := a.blockchainBranch.length
    let slots ← shiftOne merkleHeight
    .ensure (size = slots) .merkleSizeMismatch
    let nonce := UInt32.ofNat (leNat ((remaining.drop 4).take 4))
    let expectedIndex ← getExpectedIndex nonce chainId merkleHeight
    .ensure (a.blockchainIndex = expectedIndex) .invalidChainIndex

/-- `[u8; 32]::reverse`. -/
def reverse (root : TxMerkleNode) : U8Array 32 := ⟨root.toList.reverse, by simp⟩

/-- Validates the AuxPow structure for merged mining. -/
def check (a : AuxPow) (auxBlockHash : BlockHash) (chainId : Int32) (strictChainId : Bool) :
    Outcome AuxPowValidationError Unit := do
  .ensure (a.coinbaseIndex = 0) .auxPowNotFromCoinbase
  .ensure (¬ (strictChainId = true ∧ extractChainId a.parentBlockHeader = chainId)) .parentHasSameChainId
  .ensure (a.blockchainBranch.length ≤ 30) .chainMerkleBranchTooLong
  let blockchainMerkleRoot := computeMerkleRoot auxBlockHash a.blockchainBranch a.blockchainIndex
  let coinbaseHash ← Outcome.lift a.coinbaseTx.computeTxid
  let transactionsMerkleRoot := computeMerkleRoot coinbaseHash a.coinbaseBranch a.coinbaseIndex
  .ensure (transactionsMerkleRoot = a.parentBlockHeader.merkleRoot) .invalidCoinbaseMerkleProof
  match a.coinbaseTx.input with
  | [] => .err .coinbaseHasNoInputs
  | input :: _ =>
    (a.checkMergedMiningCoinbaseScript input.scriptSig (reverse blockchainMerkleRoot) chainId).mapErr
      .invalidAuxPowCoinbaseScript

/-! ## What the script commits to -/

/-- The slot of a chain in a tree of `2 ^ height` blocks. -/
def expectedSlot (nonce : ℕ) (chainId : ℤ) (height : ℕ) : ℤ :=
  ((nonce * 1103515245 + 12345 + chainId) * 1103515245 + 12345) % 2 ^ height

/-- The script contains the root, followed by the size of the tree and a nonce whose slot is the
index.  The merged mining header, if it is there, is there once and just before the root; if not,
the root stands at the start of the script. -/
structure Commits (script : Bytes) (root : U8Array 32) (height : ℕ) (index chainId : Int32)
    (rootPos : ℕ) : Prop where
  root_first : FirstAt root.toList script rootPos
  header : ∀ p, OccursAt MERGED_MINING_HEADER script p →
    (∀ q, OccursAt MERGED_MINING_HEADER script q → q = p) ∧ p + 4 = rootPos
  legacy : (∀ p, ¬ OccursAt MERGED_MINING_HEADER script p) → rootPos ≤ 20
  room : rootPos + 32 + 8 ≤ script.length
  size_eq : leNat ((script.drop (rootPos + 32)).take 4) = 2 ^ height
  index_eq : index.toInt =
    expectedSlot (leNat ((script.drop (rootPos + 36)).take 4)) chainId.toInt height

theorem findBytes_eq_find {script needle : Bytes} (hn : needle ≠ []) :
    findBytes script needle = find script needle := by
  rw [findBytes, if_neg (by simpa using hn)]

theorem sliceFrom_of_le {ε : Type} {script : Bytes} {start : ℕ} (h : start ≤ script.length) :
    (sliceFrom script start : Outcome ε Bytes) = .ok (script.drop start) := by
  rw [sliceFrom, Outcome.require_of h]
  rfl

theorem shiftOne_of_lt {ε : Type} {n : ℕ} (h : n < 32) :
    (shiftOne n : Outcome ε UInt32) = .ok (UInt32.ofNat (2 ^ n)) := by
  have hlt : 2 ^ n < 2 ^ 32 := Nat.pow_lt_pow_right (by decide) h
  have hmod : n % 2 ^ 32 = n := Nat.mod_eq_of_lt (by omega)
  rw [shiftOne, Outcome.require_of h, Outcome.ok_bind, Outcome.pure_eq_ok, Outcome.ok.injEq,
    ← UInt32.toNat_inj, UInt32.toNat_shiftLeft, UInt32.toNat_ofNat', UInt32.toNat_ofNat', hmod,
    Nat.mod_eq_of_lt h, Nat.shiftLeft_eq, UInt32.toNat_one, Nat.one_mul]

theorem header_ne_nil : MERGED_MINING_HEADER ≠ [] := by decide

/-- The first byte of the merged mining header does not come again in it, so its occurrences do
not overlap. -/
theorem le_of_header_lt {script : Bytes} {p q : ℕ} (hp : OccursAt MERGED_MINING_HEADER script p)
    (hq : OccursAt MERGED_MINING_HEADER script q) (hlt : p < q) : p + 4 ≤ q := by
  by_contra hle
  obtain ⟨k, rfl⟩ : ∃ k, q = p + k := ⟨q - p, by omega⟩
  have h₁ := hp.getElem? (k := k) (by show k < 4; omega)
  have h₂ := hq.getElem? (k := 0) (by decide)
  rw [Nat.add_zero, h₁] at h₂
  have hk : k = 1 ∨ k = 2 ∨ k = 3 := by omega
  rcases hk with rfl | rfl | rfl <;> revert h₂ <;> decide

theorem checkHeader_eq_ok_iff {script : Bytes} {rootPos : ℕ} {u : Unit} :
    checkHeader script rootPos = .ok u ↔
      (∀ p, OccursAt MERGED_MINING_HEADER script p →
        (∀ q, OccursAt MERGED_MINING_HEADER script q → q = p) ∧ p + 4 = rootPos) ∧
      ((∀ p, ¬ OccursAt MERGED_MINING_HEADER script p) → rootPos ≤ 20) := by
  unfold checkHeader
  rw [findBytes_eq_find header_ne_nil]
  cases hf : find script MERGED_MINING_HEADER with
  | none =>
    have hnone := (find_eq_none_iff header_ne_nil).1 hf
    rw [Outcome.ensure_eq_ok_iff]
    exact ⟨fun h => ⟨fun p hp => absurd hp (hnone p), fun _ => h⟩, fun h => h.2 hnone⟩
  | some p =>
    have hfirst := (find_eq_some_iff header_ne_nil).1 hf
    have hle := hfirst.occurs.le_length header_ne_nil
    have hlen : MERGED_MINING_HEADER.length = 4 := rfl
    rw [hlen] at hle
    simp only [hlen, sliceFrom_of_le hle, Outcome.ok_bind, findBytes_eq_find header_ne_nil,
      Outcome.bind_eq_ok_iff, Outcome.ensure_eq_ok_iff, find_eq_none_iff header_ne_nil,
      occursAt_drop]
    constructor
    · rintro ⟨-, huniq, hadj⟩
      refine ⟨fun q hq => ?_, fun hnone => absurd hfirst.occurs (hnone p)⟩
      -- every occurrence is at `p`: none before, and none from `p + 4` on
      have hall : ∀ r, OccursAt MERGED_MINING_HEADER script r → r = p := by
        intro r hr
        rcases Nat.lt_trichotomy r p with h | h | h
        · exact absurd hr (hfirst.first r h)
        · exact h
        · obtain ⟨k, rfl⟩ := Nat.exists_eq_add_of_le (le_of_header_lt hfirst.occurs hr h)
          exact absurd hr (huniq k)
      obtain rfl := hall q hq
      exact ⟨hall, hadj⟩
    · rintro ⟨hheader, -⟩
      obtain ⟨huniq, hadj⟩ := hheader p hfirst.occurs
      refine ⟨(), fun k hk => ?_, hadj⟩
      have := huniq _ hk
      omega

/-- A signed number and its unsigned form agree modulo every power of two up to the width. -/
theorem toUInt32_modEq (c : Int32) {h : ℕ} (hh : h ≤ 32) :
    (c.toUInt32.toNat : ℤ) ≡ c.toInt [ZMOD 2 ^ h] := by
  have hdvd : (2 ^ h : ℤ) ∣ 2 ^ 32 := pow_dvd_pow 2 hh
  have hc : c.toInt = if 2 * c.toUInt32.toNat < 2 ^ 32 then (c.toUInt32.toNat : ℤ)
      else c.toUInt32.toNat - (2 ^ 32 : ℕ) := BitVec.toInt_eq_toNat_cond c.toBitVec
  rw [hc]
  split_ifs
  · rfl
  · refine (Int.modEq_iff_dvd.2 ?_)
    simpa using hdvd

/-- Wrapping around at the width changes nothing modulo a smaller power of two. -/
theorem mod_modEq (x : ℤ) {h : ℕ} (hh : h ≤ 32) : x % 2 ^ 32 ≡ x [ZMOD 2 ^ h] :=
  (Int.mod_modEq x _).of_dvd (pow_dvd_pow 2 hh)

theorem rand_modEq (nonce c : UInt32) {h : ℕ} (hh : h ≤ 32) :
    (((nonce * 1103515245 + 12345 + c) * 1103515245 + 12345).toNat : ℤ) ≡
      (nonce.toNat * 1103515245 + 12345 + c.toNat) * 1103515245 + 12345 [ZMOD 2 ^ h] := by
  have hmul : (1103515245 : UInt32).toNat = 1103515245 := rfl
  have hadd : (12345 : UInt32).toNat = 12345 := rfl
  simp only [UInt32.toNat_add, UInt32.toNat_mul, hmul, hadd, Nat.cast_add, Nat.cast_mul,
    Int.natCast_mod, Nat.cast_pow, Nat.cast_ofNat]
  have h₁ := ((mod_modEq (nonce.toNat * 1103515245 : ℤ) hh).add_right 12345)
  have h₂ := (((mod_modEq _ hh).trans h₁).add_right (c.toNat : ℤ))
  have h₃ := (((mod_modEq _ hh).trans h₂).mul_right 1103515245)
  exact (mod_modEq _ hh).trans (((mod_modEq _ hh).trans h₃).add_right 12345)

theorem getExpectedIndex_of_le {ε : Type} (nonce : UInt32) (chainId : Int32) {h : ℕ} (hh : h ≤ 30) :
    ∃ i, (getExpectedIndex nonce chainId h : Outcome ε Int32) = .ok i ∧
      i.toInt = expectedSlot nonce.toNat chainId.toInt h := by
  have hpow : 2 ^ h ≤ 2 ^ 30 := Nat.pow_le_pow_right (by decide) hh
  have hslots : (UInt32.ofNat (2 ^ h)).toNat = 2 ^ h := UInt32.toNat_ofNat_of_lt' (by
    show 2 ^ h < 2 ^ 32
    omega)
  have hne : UInt32.ofNat (2 ^ h) ≠ 0 := by
    intro h0
    rw [h0] at hslots
    exact absurd hslots.symm (Nat.two_pow_pos h).ne'
  rw [getExpectedIndex, shiftOne_of_lt (by omega), Outcome.ok_bind, Outcome.require_of hne,
    Outcome.ok_bind]
  refine ⟨_, rfl, ?_⟩
  have hrand := rand_modEq nonce chainId.toUInt32 (by omega : h ≤ 32)
  generalize (nonce * 1103515245 + 12345 + chainId.toUInt32) * 1103515245 + 12345 = rand at hrand ⊢
  have hnat : (rand % UInt32.ofNat (2 ^ h)).toNat = rand.toNat % 2 ^ h := by
    rw [UInt32.toNat_mod, hslots]
  have hlt : (rand % UInt32.ofNat (2 ^ h)).toNat < 2 ^ h := by
    rw [hnat]
    exact Nat.mod_lt _ (Nat.two_pow_pos h)
  have hint : (rand % UInt32.ofNat (2 ^ h)).toInt32.toInt = (rand % UInt32.ofNat (2 ^ h)).toNat := by
    refine (BitVec.toInt_eq_toNat_cond _).trans (if_pos ?_)
    show 2 * (rand % UInt32.ofNat (2 ^ h)).toNat < 2 ^ 32
    omega
  rw [hint, hnat, expectedSlot]
  have hchain := (((toUInt32_modEq chainId (by omega : h ≤ 32)).add_left
    (nonce.toNat * 1103515245 + 12345)).mul_right 1103515245).add_right 12345
  have := hrand.trans hchain
  push_cast
  exact this

theorem leNat_take_four_lt (bs : Bytes) : leNat (bs.take 4) < 2 ^ 32 :=
  leNat_lt_two_pow (n := 4) (List.length_take_le 4 bs)

theorem root_ne_nil (root : U8Array 32) : root.toList ≠ [] := by
  intro h
  have := root.length_eq
  rw [h] at this
  cases this

theorem checkMergedMiningCoinbaseScript_eq_ok_iff {a : AuxPow} {script : Bytes} {root : U8Array 32}
    {chainId : Int32} (hh : a.blockchainBranch.length ≤ 30) :
    a.checkMergedMiningCoinbaseScript script root chainId = .ok () ↔
      ∃ rootPos, Commits script root a.blockchainBranch.length a.blockchainIndex chainId rootPos := by
  unfold checkMergedMiningCoinbaseScript
  rw [findBytes_eq_find (root_ne_nil root)]
  cases hf : find script root.toList with
  | none =>
    have hnone := (find_eq_none_iff (root_ne_nil root)).1 hf
    exact iff_of_false (by simp) fun ⟨p, hp⟩ => hnone p hp.root_first.occurs
  | some rootPos =>
    have hfirst := (find_eq_some_iff (root_ne_nil root)).1 hf
    have hle := hfirst.occurs.le_length (root_ne_nil root)
    rw [root.length_eq] at hle
    have hlt : a.blockchainBranch.length < 32 := by omega
    have hpow : 2 ^ a.blockchainBranch.length < 2 ^ 32 := Nat.pow_lt_pow_right (by decide) hlt
    have hsize : UInt32.ofNat (leNat ((script.drop (rootPos + 32)).take 4)) =
        UInt32.ofNat (2 ^ a.blockchainBranch.length) ↔
        leNat ((script.drop (rootPos + 32)).take 4) = 2 ^ a.blockchainBranch.length := by
      rw [← UInt32.toNat_inj, UInt32.toNat_ofNat_of_lt' (leNat_take_four_lt _),
        UInt32.toNat_ofNat_of_lt' hpow]
    obtain ⟨i, hi, hidx⟩ := getExpectedIndex_of_le (ε := AuxPowCoinbaseScriptValidationError)
      (UInt32.ofNat (leNat (((script.drop (rootPos + 32)).drop 4).take 4))) chainId hh
    rw [UInt32.toNat_ofNat_of_lt' (leNat_take_four_lt _), List.drop_drop] at hidx
    simp only [sliceFrom_of_le hle, Outcome.ok_bind, shiftOne_of_lt hlt, hi,
      Outcome.bind_eq_ok_iff, checkHeader_eq_ok_iff, Outcome.ensure_eq_ok_iff, hsize,
      List.length_drop]
    constructor
    · rintro ⟨-, hheader, -, hroom, -, hs, he⟩
      exact ⟨rootPos, hfirst, hheader.1, hheader.2, by omega, hs, by rw [he, hidx]⟩
    · rintro ⟨p, hp⟩
      obtain rfl := hp.root_first.unique hfirst
      have hroom := hp.room
      refine ⟨(), ⟨hp.header, hp.legacy⟩, (), by omega, (), hp.size_eq, ?_⟩
      rw [← Int32.toInt_inj, hp.index_eq, hidx]

/-! ## The check -/

/-- The conditions under which a proof is accepted for a block hash and a chain. -/
structure Valid (a : AuxPow) (auxBlockHash : BlockHash) (chainId : Int32) (strictChainId : Bool) :
    Prop where
  coinbaseIndex_eq : a.coinbaseIndex = 0
  chainId_ne : ¬ (strictChainId = true ∧ extractChainId a.parentBlockHeader = chainId)
  branch_le : a.blockchainBranch.length ≤ 30
  coinbase : ∃ txid, a.coinbaseTx.computeTxid = .ok txid ∧
    computeMerkleRoot txid a.coinbaseBranch 0 = a.parentBlockHeader.merkleRoot
  script : ∃ input rest rootPos, a.coinbaseTx.input = input :: rest ∧
    Commits input.scriptSig
      (reverse (computeMerkleRoot auxBlockHash a.blockchainBranch a.blockchainIndex))
      a.blockchainBranch.length a.blockchainIndex chainId rootPos

theorem valid_of_check {a : AuxPow} {auxBlockHash : BlockHash} {chainId : Int32} {strict : Bool}
    (h : a.check auxBlockHash chainId strict = .ok ()) : a.Valid auxBlockHash chainId strict := by
  unfold check at h
  simp only [Outcome.bind_eq_ok_iff, Outcome.ensure_eq_ok_iff, Outcome.lift_eq_ok_iff] at h
  obtain ⟨-, hidx, -, hchain, -, hlen, txid, htx, -, hroot, hscript⟩ := h
  rw [hidx] at hroot
  refine ⟨hidx, hchain, hlen, ⟨txid, htx, hroot⟩, ?_⟩
  cases hin : a.coinbaseTx.input with
  | nil =>
    rw [hin] at hscript
    cases hscript
  | cons input rest =>
    rw [hin] at hscript
    obtain ⟨rootPos, hc⟩ :=
      (checkMergedMiningCoinbaseScript_eq_ok_iff hlen).1 (Outcome.mapErr_eq_ok_iff.1 hscript)
    exact ⟨input, rest, rootPos, rfl, hc⟩

theorem check_of_valid {a : AuxPow} {auxBlockHash : BlockHash} {chainId : Int32} {strict : Bool}
    (h : a.Valid auxBlockHash chainId strict) : a.check auxBlockHash chainId strict = .ok () := by
  obtain ⟨hidx, hchain, hlen, ⟨txid, htx, hroot⟩, input, rest, rootPos, hin, hc⟩ := h
  unfold check
  rw [← hidx] at hroot
  rw [Outcome.ensure_of hidx, Outcome.ok_bind, Outcome.ensure_of hchain, Outcome.ok_bind,
    Outcome.ensure_of hlen, Outcome.ok_bind, htx, Outcome.lift_ok, Outcome.ok_bind]
  dsimp only
  rw [Outcome.ensure_of hroot, Outcome.ok_bind, hin]
  exact Outcome.mapErr_eq_ok_iff.2 ((checkMergedMiningCoinbaseScript_eq_ok_iff hlen).2 ⟨rootPos, hc⟩)

/-- `AuxPow::check` accepts exactly the valid proofs. -/
theorem check_accepts_iff_valid (a : AuxPow) (auxBlockHash : BlockHash) (chainId : Int32)
    (strictChainId : Bool) :
    a.check auxBlockHash chainId strictChainId = .ok () ↔
      a.Valid auxBlockHash chainId strictChainId :=
  ⟨valid_of_check, check_of_valid⟩

theorem checkHeader_noPanic (script : Bytes) (rootPos : ℕ) : (checkHeader script rootPos).NoPanic := by
  unfold checkHeader
  rw [findBytes_eq_find header_ne_nil]
  cases hf : find script MERGED_MINING_HEADER with
  | none => exact Outcome.noPanic_ensure _
  | some p =>
    have hle := ((find_eq_some_iff header_ne_nil).1 hf).occurs.le_length header_ne_nil
    dsimp only
    rw [sliceFrom_of_le hle, Outcome.ok_bind]
    exact (Outcome.noPanic_ensure _).bind fun _ _ => Outcome.noPanic_ensure _

theorem checkMergedMiningCoinbaseScript_noPanic {a : AuxPow} (hh : a.blockchainBranch.length ≤ 30)
    (script : Bytes) (root : U8Array 32) (chainId : Int32) :
    (a.checkMergedMiningCoinbaseScript script root chainId).NoPanic := by
  unfold checkMergedMiningCoinbaseScript
  rw [findBytes_eq_find (root_ne_nil root)]
  cases hf : find script root.toList with
  | none => exact Outcome.noPanic_err _
  | some rootPos =>
    have hle := ((find_eq_some_iff (root_ne_nil root)).1 hf).occurs.le_length (root_ne_nil root)
    rw [root.length_eq] at hle
    obtain ⟨i, hi, -⟩ := getExpectedIndex_of_le (ε := AuxPowCoinbaseScriptValidationError)
      (UInt32.ofNat (leNat (((script.drop (rootPos + 32)).drop 4).take 4))) chainId hh
    dsimp only
    rw [sliceFrom_of_le hle, shiftOne_of_lt (by omega), Outcome.ok_bind, Outcome.ok_bind, hi,
      Outcome.ok_bind]
    exact (checkHeader_noPanic script rootPos).bind fun _ _ => (Outcome.noPanic_ensure _).bind
      fun _ _ => (Outcome.noPanic_ensure _).bind fun _ _ => Outcome.noPanic_ensure _

/-- No script and no branch makes the check panic. -/
theorem check_noPanic {a : AuxPow} (hs : a.coinbaseTx.Sized) (auxBlockHash : BlockHash)
    (chainId : Int32) (strict : Bool) : (a.check auxBlockHash chainId strict).NoPanic := by
  obtain ⟨txid, htx⟩ := Transaction.exists_computeTxid hs
  unfold check
  refine (Outcome.noPanic_ensure _).bind fun _ _ => (Outcome.noPanic_ensure _).bind fun _ _ =>
    (Outcome.noPanic_ensure _).bind fun _ hlen => ?_
  rw [Outcome.ensure_eq_ok_iff] at hlen
  rw [htx, Outcome.lift_ok, Outcome.ok_bind]
  refine (Outcome.noPanic_ensure _).bind fun _ _ => ?_
  cases a.coinbaseTx.input with
  | nil => exact Outcome.noPanic_err _
  | cons input rest => exact (checkMergedMiningCoinbaseScript_noPanic hlen _ _ _).mapErr _

/-! ## Replay -/

/-- The siblings of a branch with the sides that the bits of the index put them on. -/
def branchPath : Int32 → List TxMerkleNode → List (Bool × TxMerkleNode)
  | _, [] => []
  | index, branchHash :: branch =>
    (decide (index &&& 1 = 1), branchHash) :: branchPath (index >>> 1) branch

/-- The pairs of nodes that `compute_merkle_root` hashes. -/
def hashedPairs (hash : BlockHash) (branch : List TxMerkleNode) (index : Int32) :
    List (TxMerkleNode × TxMerkleNode) :=
  branchPairs Dogecoin.parentHash hash (branchPath index branch)

theorem computeMerkleRoot_eq_foldBranch (hash : BlockHash) (branch : List TxMerkleNode)
    (index : Int32) :
    computeMerkleRoot hash branch index = foldBranch Dogecoin.parentHash hash (branchPath index branch) := by
  induction branch generalizing hash index with
  | nil => rfl
  | cons branchHash branch ih =>
    rw [computeMerkleRoot, branchPath, foldBranch]
    by_cases h : index &&& 1 = 1
    · simp [h, branchPair, hashPair, ih]
    · simp [h, branchPair, hashPair, ih]

theorem branchPath_sides {index : Int32} {branch branch' : List TxMerkleNode}
    (h : branch.length = branch'.length) :
    (branchPath index branch).map Prod.fst = (branchPath index branch').map Prod.fst := by
  induction branch generalizing index branch' with
  | nil =>
    obtain rfl := List.length_eq_zero_iff.1 h.symm
    rfl
  | cons b branch ih =>
    obtain _ | ⟨b', branch'⟩ := branch'
    · cases h
    rw [branchPath, branchPath, List.map_cons, List.map_cons, ih (by simpa using h)]

/-- Two commitments of one script with a merged mining header are to the same tree and slot. -/
theorem Commits.unique {script : Bytes} {root root' : U8Array 32} {height height' : ℕ}
    {index index' chainId : Int32} {rootPos rootPos' p : ℕ}
    (hp : OccursAt MERGED_MINING_HEADER script p)
    (h : Commits script root height index chainId rootPos)
    (h' : Commits script root' height' index' chainId rootPos') :
    root = root' ∧ height = height' ∧ index = index' := by
  obtain rfl : rootPos = rootPos' := (h.header p hp).2.symm.trans (h'.header p hp).2
  have hroot : root.toList = root'.toList :=
    h.root_first.occurs.eq_of_length h'.root_first.occurs (by simp)
  have hheight : height = height' :=
    Nat.pow_right_injective (le_refl 2) (h.size_eq.symm.trans h'.size_eq)
  subst hheight
  exact ⟨U8Array.ext hroot, rfl, Int32.toInt_inj.1 (h.index_eq.trans h'.index_eq.symm)⟩

theorem reverse_injective {r r' : TxMerkleNode} (h : reverse r = reverse r') : r = r' := by
  exact U8Array.ext (List.reverse_inj.1 (congrArg U8Array.toList h))

/-- One script with a merged mining header proves work for one block of a chain only, as long as
the pairs hashed for the two roots do not collide. -/
theorem check_rejects_replay (a₁ a₂ : AuxPow) (h₁ h₂ : BlockHash) (chainId : Int32) (s₁ s₂ : Bool)
    (script : Bytes) (p : ℕ)
    (hscript₁ : (a₁.coinbaseTx.input.head?).map TxIn.scriptSig = some script)
    (hscript₂ : (a₂.coinbaseTx.input.head?).map TxIn.scriptSig = some script)
    (hheader : OccursAt MERGED_MINING_HEADER script p)
    (hcheck₁ : a₁.check h₁ chainId s₁ = .ok ()) (hcheck₂ : a₂.check h₂ chainId s₂ = .ok ()) :
    a₁.blockchainBranch.length = a₂.blockchainBranch.length ∧
    a₁.blockchainIndex = a₂.blockchainIndex ∧
    computeMerkleRoot h₁ a₁.blockchainBranch a₁.blockchainIndex =
      computeMerkleRoot h₂ a₂.blockchainBranch a₂.blockchainIndex ∧
    (Set.InjOn (hashPair Dogecoin.parentHash)
        {r | r ∈ hashedPairs h₁ a₁.blockchainBranch a₁.blockchainIndex ++
          hashedPairs h₂ a₂.blockchainBranch a₂.blockchainIndex} → h₁ = h₂) := by
  obtain ⟨in₁, rest₁, pos₁, hin₁, hc₁⟩ := (valid_of_check hcheck₁).script
  obtain ⟨in₂, rest₂, pos₂, hin₂, hc₂⟩ := (valid_of_check hcheck₂).script
  rw [hin₁] at hscript₁
  rw [hin₂] at hscript₂
  obtain rfl : in₁.scriptSig = script := Option.some.inj hscript₁
  rw [show in₂.scriptSig = in₁.scriptSig from Option.some.inj hscript₂] at hc₂
  obtain ⟨hroot, hlen, hidx⟩ := hc₁.unique hheader hc₂
  have hroot := reverse_injective hroot
  refine ⟨hlen, hidx, hroot, fun hinj => ?_⟩
  rw [computeMerkleRoot_eq_foldBranch, computeMerkleRoot_eq_foldBranch, ← hidx] at hroot
  unfold hashedPairs at hinj
  rw [← hidx] at hinj
  exact (foldBranch_injective _ (branchPath_sides hlen) hinj hroot).1

/-- A coinbase transaction that commits to a tree of two blocks, the first with an all-zero hash and
the second with an all-one hash. -/
def sampleCoinbase : Transaction where
  version := 1
  lockTime := .blocks 0 zero_lt_threshold
  input := [⟨⟨.replicate 32 0, 0xffffffff⟩,
    MERGED_MINING_HEADER ++ (Dogecoin.parentHash (.replicate 32 0) (.replicate 32 1)).toList.reverse ++
      leBytes 4 2 ++ leBytes 4 0, 0, Witness.new⟩]
  output := []

/-- A proof for the first of these blocks, in a parent block with the given nonce. -/
def sample (nonce : UInt32) : AuxPow where
  coinbaseTx := sampleCoinbase
  parentHash := .replicate 32 0
  coinbaseBranch := []
  coinbaseIndex := 0
  blockchainBranch := [.replicate 32 1]
  blockchainIndex := 0
  parentBlockHeader :=
    { version := 1
      prevBlockhash := .replicate 32 0
      merkleRoot := match sampleCoinbase.computeTxid with
        | .ok txid => txid
        | _ => .replicate 32 0
      time := 0
      bits := 0
      nonce }

theorem sample_checks : (sample 0).check (.replicate 32 0) 98 true = .ok () ∧
    (sample 1).check (.replicate 32 0) 98 false = .ok () := by
  decide +kernel

theorem check_rejects_replay_sample :
    (sample 0).check (.replicate 32 0) 98 true = .ok () ∧
    (sample 1).check (.replicate 32 0) 98 false = .ok () ∧
    (sample 0).blockchainBranch.length = (sample 1).blockchainBranch.length ∧
    (sample 0).blockchainIndex = (sample 1).blockchainIndex ∧
    (U8Array.replicate 32 0 : BlockHash) = U8Array.replicate 32 0 := by
  obtain ⟨h₁, h₂⟩ := sample_checks
  obtain ⟨hlen, hidx, -, hhash⟩ := check_rejects_replay (sample 0) (sample 1) _ _ 98 true false
    _ 0 rfl rfl ⟨_, rfl⟩ h₁ h₂
  refine ⟨h₁, h₂, hlen, hidx, hhash ?_⟩
  -- both roots are made of the same pair
  have hpair : ∀ r ∈ hashedPairs (.replicate 32 0) [.replicate 32 1] 0 ++
      hashedPairs (.replicate 32 0) [.replicate 32 1] 0,
      r = (.replicate 32 0, .replicate 32 1) := by
    intro r hr
    rcases List.mem_append.1 hr with h | h <;> exact List.mem_singleton.1 h
  intro r hr r' hr' _
  rw [hpair r hr, hpair r' hr']

end AuxPow

end Dogecoin

end RustDogecoin
