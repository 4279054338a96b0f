import RustDogecoin.Blockdata.Block
import RustDogecoin.MerkleTree.Root
import Mathlib.Data.List.Forall2
import Mathlib.Data.List.Nodup

/-!
# Partial merkle trees

`PartialMerkleTree` of `merkle_tree/block.rs`.  The source walks the tree depth first, both to build
a proof from the transactions of a block and to check one.  Either walk is described by the partial
tree that its bits and hashes spell out: `traverseAndBuild` writes the one that keeps the matched
transactions, and `traverseAndExtract` reads one back.
-/

namespace RustDogecoin

open Merkle MerkleTree

instance {n : ℕ} : Inhabited (U8Array n) := ⟨.replicate n 0⟩

/-- Data structure that represents a partial merkle tree. -/
structure PartialMerkleTree where
  numTransactions : UInt32
  bits : List Bool
  hashes : List TxMerkleNode
  deriving DecidableEq

inductive MerkleBlockError where
  | noTransactions
  | tooManyTransactions
  | tooManyHashes
  | notEnoughBits
  | notAllBitsConsumed
  | notAllHashesConsumed
  | bitsArrayOverflow
  | hashesArrayOverflow
  | identicalHashesFound
  deriving DecidableEq, Repr

/-- The result of an operation on `u32`, which panics on overflow. -/
def checkedU32 {ε : Type} (x : ℕ) : Outcome ε ℕ := do
  .require (x < 2 ^ 32) .overflow
  return x

namespace PartialMerkleTree

/-- Helper method to produce SHA256D(left + right). -/
def parentHash (left right : TxMerkleNode) : TxMerkleNode :=
  Sha256d.hash (left.toList ++ right.toList)

section

variable {ε : Type}

/-- The number of nodes at the given height of the tree. -/
def calcTreeWidth (numTransactions height : ℕ) : Outcome ε ℕ := do
  .require (height < 32) .overflow
  let sum ← checkedU32 (numTransactions + 1 <<< height)
  return (sum - 1) >>> height

/-- The loop of `calc_tree_height`, which ends at height 32 in an overflow if not before. -/
def calcTreeHeightLoop (numTransactions : ℕ) : ℕ → ℕ → Outcome ε ℕ
  | 0, _ => .panic .overflow
  | k + 1, height => do
    let w ← calcTreeWidth numTransactions height
    if 1 < w then calcTreeHeightLoop numTransactions k (height + 1) else return height

/-- Calculates the height of the tree. -/
def calcTreeHeight (numTransactions : ℕ) : Outcome ε ℕ := calcTreeHeightLoop numTransactions 32 0

end

/-- Calculate the hash of a node in the merkle tree (at leaf level: the txid's themselves). -/
def calcHash (numTransactions : ℕ) (txids : List Txid) : ℕ → ℕ → Outcome Empty TxMerkleNode
  | 0, pos => indexSlice txids pos
  | height + 1, pos => do
    let leftPos ← checkedU32 (pos * 2)
    let left ← calcHash numTransactions txids height leftPos
    let rightPos ← checkedU32 (leftPos + 1)
    let w ← calcTreeWidth numTransactions height
    let right ← if rightPos < w then calcHash numTransactions txids height rightPos else pure left
    return parentHash left right

/-- The loop that looks for a matched txid below a node; it makes at most `numTransactions` turns. -/
def parentOfMatchLoop (numTransactions stop : ℕ) (matched : List Bool) :
    ℕ → ℕ → Bool → Outcome Empty Bool
  | 0, _, parentOfMatch => return parentOfMatch
  | fuel + 1, p, parentOfMatch => do
    if p < stop ∧ p < numTransactions then
      let found ← indexSlice matched p
      parentOfMatchLoop numTransactions stop matched fuel (p + 1) (parentOfMatch || found)
    else return parentOfMatch

/-- Determine whether this node is the parent of at least one matched txid. -/
def parentOfMatch (numTransactions : ℕ) (matched : List Bool) (height pos : ℕ) :
    Outcome Empty Bool := do
  let next ← checkedU32 (pos + 1)
  parentOfMatchLoop numTransactions (next <<< height % 2 ^ 32) matched numTransactions
    (pos <<< height % 2 ^ 32) false

def storeHash (txids : List Txid) (height pos : ℕ) (pmt : PartialMerkleTree) :
    Outcome Empty PartialMerkleTree := do
  let hash ← calcHash pmt.numTransactions.toNat txids height pos
  return { pmt with hashes := pmt.hashes ++ [hash] }

/-- Recursive function that traverses tree nodes, storing the data as bits and hashes. -/
def traverseAndBuild (txids : List Txid) (matched : List Bool) :
    ℕ → ℕ → PartialMerkleTree → Outcome Empty PartialMerkleTree
  | 0, pos, pmt => do
    let found ← parentOfMatch pmt.numTransactions.toNat matched 0 pos
    storeHash txids 0 pos { pmt with bits := pmt.bits ++ [found] }
  | height + 1, pos, pmt => do
    let found ← parentOfMatch pmt.numTransactions.toNat matched (height + 1) pos
    let pmt := { pmt with bits := pmt.bits ++ [found] }
    if !found then storeHash txids (height + 1) pos pmt
    else
      let leftPos ← checkedU32 (pos * 2)
      let pmt ← traverseAndBuild txids matched height leftPos pmt
      let rightPos ← checkedU32 (leftPos + 1)
      let w ← calcTreeWidth pmt.numTransactions.toNat height
      if rightPos < w then traverseAndBuild txids matched height rightPos pmt else return pmt

/-- Construct a partial merkle tree. -/
def fromTxids (txids : List Txid) (matched : List Bool) : Outcome Empty PartialMerkleTree := do
  .require (txids.length ≠ 0) .assertion
  .require (txids.length = matched.length) .assertion
  let pmt : PartialMerkleTree := ⟨UInt32.ofNat txids.length, [], []⟩
  let height ← calcTreeHeight pmt.numTransactions.toNat
  traverseAndBuild txids matched height 0 pmt

/-- What an extraction has used up and found so far. -/
structure Extraction where
  bitsUsed : ℕ
  hashUsed : ℕ
  matched : List Txid
  indexes : List ℕ
  deriving DecidableEq

/-- The next element of one of the two arrays of a proof. -/
def next {α : Type} (xs : List α) (used : ℕ) (e : MerkleBlockError) :
    Outcome MerkleBlockError (α × ℕ) := do
  .ensure (used < xs.length) e
  let a ← indexSlice xs used
  let used ← checkedU32 (used + 1)
  return (a, used)

def useBit (pmt : PartialMerkleTree) (st : Extraction) :
    Outcome MerkleBlockError (Bool × Extraction) := do
  let (parentOfMatch, bitsUsed) ← next pmt.bits st.bitsUsed .bitsArrayOverflow
  return (parentOfMatch, { st with bitsUsed := bitsUsed })

def useHash (pmt : PartialMerkleTree) (st : Extraction) :
    Outcome MerkleBlockError (TxMerkleNode × Extraction) := do
  let (hash, hashUsed) ← next pmt.hashes st.hashUsed .hashesArrayOverflow
  return (hash, { st with hashUsed := hashUsed })

/-- Recursive function that traverses tree nodes, consuming the bits and hashes produced by
`traverseAndBuild`.  It returns the hash of the respective node. -/
def traverseAndExtract (pmt : PartialMerkleTree) :
    ℕ → ℕ → Extraction → Outcome MerkleBlockError (TxMerkleNode × Extraction)
  | 0, pos, st => do
    let (parentOfMatch, st) ← useBit pmt st
    let (hash, st) ← useHash pmt st
    if parentOfMatch then
      return (hash, { st with matched := st.matched ++ [hash], indexes := st.indexes ++ [pos] })
    else return (hash, st)
  | height + 1, pos, st => do
    let (parentOfMatch, st) ← useBit pmt st
    if !parentOfMatch then useHash pmt st
    else
      let leftPos ← checkedU32 (pos * 2)
      let (left, st) ← traverseAndExtract pmt height leftPos st
      let rightPos ← checkedU32 (leftPos + 1)
      let w ← calcTreeWidth pmt.numTransactions.toNat height
      if rightPos < w then
        let (right, st) ← traverseAndExtract pmt height rightPos st
        .ensure (right ≠ left) .identicalHashesFound
        return (parentHash left right, st)
      else return (parentHash left left, st)

/-- `Weight::MAX_BLOCK / Weight::MIN_TRANSACTION`. -/
def maxTransactions : ℕ := 4000000 / (4 * 60)

/-- Extract the matching txid's represented by this partial merkle tree and their respective indices
within the partial tree, with the merkle root. -/
def extractMatches (pmt : PartialMerkleTree) :
    Outcome MerkleBlockError (TxMerkleNode × List Txid × List ℕ) := do
  .ensure (pmt.numTransactions ≠ 0) .noTransactions
  .ensure (pmt.numTransactions.toNat ≤ maxTransactions) .tooManyTransactions
  .ensure (pmt.hashes.length % 2 ^ 32 ≤ pmt.numTransactions.toNat) .tooManyHashes
  .ensure (pmt.hashes.length ≤ pmt.bits.length) .notEnoughBits
  let height ← calcTreeHeight pmt.numTransactions.toNat
  let (root, st) ← traverseAndExtract pmt height 0 ⟨0, 0, [], []⟩
  let used ← checkedU32 (st.bitsUsed + 7)
  let given ← checkedU32 (pmt.bits.length % 2 ^ 32 + 7)
  .ensure (used / 8 = given / 8) .notAllBitsConsumed
  .ensure (st.hashUsed = pmt.hashes.length % 2 ^ 32) .notAllHashesConsumed
  return (root, st.matched, st.indexes)

/-! ## Encoding -/

/-- Eight flags make a byte, the first one the least significant bit. -/
def packByte (chunk : List Bool) : UInt8 :=
  chunk.zipIdx.foldl (fun byte p => byte ||| (p.1.toUInt8 <<< UInt8.ofNat p.2)) 0

/-- The loop over `bits.chunks(8)`, for the given number of chunks. -/
def packBits : ℕ → List Bool → Bytes
  | 0, _ => []
  | k + 1, bits => packByte (bits.take 8) :: packBits k (bits.drop 8)

def unpackByte (byte : UInt8) : List Bool :=
  (List.range 8).map fun i => byte &&& (1 <<< UInt8.ofNat i) != 0

/-- The flag bits, packed per 8 in a byte. -/
def flagBytes (bits : List Bool) : Bytes := packBits ((bits.length + 7) / 8) bits

/-- The fields as they are written. -/
def toFields (pmt : PartialMerkleTree) : UInt32 × List TxMerkleNode × Bytes :=
  (pmt.numTransactions, pmt.hashes, flagBytes pmt.bits)

def ofFields (p : UInt32 × List TxMerkleNode × Bytes) : PartialMerkleTree :=
  ⟨p.1, p.2.2.flatMap unpackByte, p.2.1⟩

def encodeFields : Encoder (UInt32 × List TxMerkleNode × Bytes) :=
  u32.consensusEncode.seq
    ((vec (u8Array 32)).consensusEncode.seq (encodeLen.counted u8.consensusEncode))

def decodeFields : Read (UInt32 × List TxMerkleNode × Bytes) :=
  u32.consensusDecode.seq
    ((vec (u8Array 32)).consensusDecode.seq
      (Decoder.counted (decodeLen.guard (· ≤ MAX_VEC_SIZE)
        fun nbBytesForBits => .oversizedVectorAllocation nbBytesForBits MAX_VEC_SIZE)
        u8.consensusDecode))

def codec : Codec PartialMerkleTree :=
  .ofFinite (fun pmt => encodeFields pmt.toFields) (ofFields <$> decodeFields)

/-! ## Widths and heights -/

section

variable {ε : Type}

theorem checkedU32_of {x : ℕ} (h : x < 2 ^ 32) : (checkedU32 x : Outcome ε ℕ) = .ok x := by
  unfold checkedU32
  rw [Outcome.require_of h]
  rfl

theorem checkedU32_eq_ok_iff {x y : ℕ} :
    (checkedU32 x : Outcome ε ℕ) = .ok y ↔ x < 2 ^ 32 ∧ y = x := by
  unfold checkedU32
  rw [Outcome.bind_eq_ok_iff]
  constructor
  · rintro ⟨u, hx, hy⟩
    exact ⟨Outcome.require_eq_ok_iff.mp hx, (Outcome.ok.inj hy).symm⟩
  · rintro ⟨hx, rfl⟩
    exact ⟨(), Outcome.require_eq_ok_iff.mpr hx, rfl⟩

theorem calcTreeWidth_of {n h : ℕ} (hh : h < 32) (hn : n + 2 ^ h < 2 ^ 32) :
    (calcTreeWidth n h : Outcome ε ℕ) = .ok (width n h) := by
  unfold calcTreeWidth
  rw [Outcome.require_of hh, Nat.one_shiftLeft, checkedU32_of hn]
  simp only [Outcome.ok_bind, Outcome.pure_eq_ok, Nat.shiftRight_eq_div_pow]
  rfl

theorem eq_width_of_calcTreeWidth {n h w : ℕ} (hw : (calcTreeWidth n h : Outcome ε ℕ) = .ok w) :
    w = width n h := by
  unfold calcTreeWidth at hw
  obtain ⟨-, -, hw⟩ := Outcome.bind_eq_ok_iff.mp hw
  obtain ⟨sum, hsum, hw⟩ := Outcome.bind_eq_ok_iff.mp hw
  obtain ⟨-, rfl⟩ := checkedU32_eq_ok_iff.mp hsum
  rw [Outcome.pure_eq_ok, Outcome.ok.injEq, Nat.one_shiftLeft, Nat.shiftRight_eq_div_pow] at hw
  exact hw.symm

theorem calcTreeHeightLoop_of {n k h : ℕ} (hk : k + h = 32) (hn : n + 2 ^ height n < 2 ^ 32)
    (hh : h ≤ height n) : (calcTreeHeightLoop n k h : Outcome ε ℕ) = .ok (height n) := by
  have hlt : height n < 32 := by
    by_contra hge
    have := Nat.pow_le_pow_right (show 0 < 2 by decide) (Nat.le_of_not_lt hge)
    omega
  induction k generalizing h with
  | zero => omega
  | succ k ih =>
    have hpow : 2 ^ h ≤ 2 ^ height n := Nat.pow_le_pow_right (by decide) hh
    rw [calcTreeHeightLoop, calcTreeWidth_of (by omega) (by omega), Outcome.ok_bind]
    by_cases hone : 1 < width n h
    · rw [if_pos hone]
      exact ih (by omega) (lt_height_iff.mpr hone)
    · have htop := mt lt_height_iff.mp hone
      rw [if_neg hone, Nat.le_antisymm hh (by omega)]
      rfl

theorem eq_height_of_calcTreeHeightLoop {n k h top : ℕ} (hh : h ≤ height n)
    (hloop : (calcTreeHeightLoop n k h : Outcome ε ℕ) = .ok top) : top = height n := by
  induction k generalizing h with
  | zero => cases hloop
  | succ k ih =>
    rw [calcTreeHeightLoop] at hloop
    obtain ⟨w, hw, hloop⟩ := Outcome.bind_eq_ok_iff.mp hloop
    obtain rfl := eq_width_of_calcTreeWidth hw
    by_cases hone : 1 < width n h
    · rw [if_pos hone] at hloop
      exact ih (lt_height_iff.mpr hone) hloop
    · have htop := mt lt_height_iff.mp hone
      rw [if_neg hone] at hloop
      cases hloop
      omega

theorem height_le {n : ℕ} (hn : n < 2 ^ 31) : height n ≤ 31 :=
  Nat.clog_le_of_le_pow (Nat.le_of_lt hn)

theorem lt_of_le_maxTransactions {n : ℕ} (hn : n ≤ maxTransactions) : n < 2 ^ 31 :=
  Nat.lt_of_le_of_lt hn (by decide)

/-- The width of a level below the root. -/
theorem calcTreeWidth_of_le {n h : ℕ} (hn : n < 2 ^ 31) (hh : h ≤ height n) :
    (calcTreeWidth n h : Outcome ε ℕ) = .ok (width n h) := by
  have hle := height_le hn
  have hpow : 2 ^ h ≤ 2 ^ 31 := Nat.pow_le_pow_right (by decide) (by omega)
  exact calcTreeWidth_of (by omega) (by omega)

theorem calcTreeHeight_of {n : ℕ} (hn : n < 2 ^ 31) :
    (calcTreeHeight n : Outcome ε ℕ) = .ok (height n) := by
  have hpow : 2 ^ height n ≤ 2 ^ 31 := Nat.pow_le_pow_right (by decide) (height_le hn)
  exact calcTreeHeightLoop_of rfl (by omega) (Nat.zero_le _)

/-- Positions of children are small. -/
theorem checkedU32_child {n h pos : ℕ} (hn : n < 2 ^ 31) (hpos : pos * 2 ^ (h + 1) < n) :
    (checkedU32 (pos * 2) : Outcome ε ℕ) = .ok (pos * 2) ∧
      (checkedU32 (pos * 2 + 1) : Outcome ε ℕ) = .ok (pos * 2 + 1) := by
  have hle : pos * 2 ≤ pos * 2 * 2 ^ h := Nat.le_mul_of_pos_right _ (Nat.two_pow_pos h)
  have hlt := left_lt hpos
  exact ⟨checkedU32_of (by omega), checkedU32_of (by omega)⟩

end

/-! ## Building -/

section

variable {n : ℕ} (hn : n < 2 ^ 31)

theorem parentOfMatchLoop_eq {stop : ℕ} {matched : List Bool} (hlen : n ≤ matched.length)
    {fuel p : ℕ} (hfuel : n ≤ fuel + p) (acc : Bool) :
    parentOfMatchLoop n stop matched fuel p acc =
      .ok (acc || (List.range' p (stop - p)).any fun i => decide (i < n) && leafOf matched i) := by
  have hbeyond : ∀ q, n ≤ q →
      ((List.range' q (stop - q)).any fun i => decide (i < n) && leafOf matched i) = false := by
    intro q hq
    rw [List.any_eq_false]
    intro i hi
    rw [List.mem_range'_1] at hi
    have hi' : ¬ i < n := by omega
    simp [hi']
  induction fuel generalizing p acc with
  | zero => rw [parentOfMatchLoop, hbeyond p (by omega), Bool.or_false, Outcome.pure_eq_ok]
  | succ fuel ih =>
    rw [parentOfMatchLoop]
    by_cases hp : p < stop ∧ p < n
    · have hget : matched[p]? = some (leafOf matched p) := getElem?_leafOf (by omega)
      have hrange : stop - p = stop - (p + 1) + 1 := by omega
      rw [if_pos hp, indexSlice_of_getElem? hget, Outcome.ok_bind, ih (by omega), hrange,
        List.range'_succ, List.any_cons, decide_eq_true hp.2, Bool.true_and, Bool.or_assoc]
    · rw [if_neg hp, Outcome.pure_eq_ok]
      by_cases hstop : p < stop
      · rw [hbeyond p (by omega), Bool.or_false]
      · rw [Nat.sub_eq_zero_of_le (Nat.le_of_not_lt hstop)]
        simp

include hn

theorem parentOfMatch_eq {matched : List Bool} (hlen : n ≤ matched.length) {h pos : ℕ}
    (hh : h ≤ height n) (hpos : pos * 2 ^ h < n) :
    parentOfMatch n matched h pos = .ok ((leaves n h pos).any (leafOf matched)) := by
  have hle := height_le hn
  have hpow : 2 ^ h ≤ 2 ^ 31 := Nat.pow_le_pow_right (by decide) (by omega)
  have hself : pos ≤ pos * 2 ^ h := Nat.le_mul_of_pos_right _ (Nat.two_pow_pos h)
  have hstop : (pos + 1) * 2 ^ h = pos * 2 ^ h + 2 ^ h := Nat.succ_mul pos (2 ^ h)
  unfold parentOfMatch
  rw [checkedU32_of (by omega), Outcome.ok_bind, Nat.shiftLeft_eq, Nat.shiftLeft_eq,
    Nat.mod_eq_of_lt (by omega), Nat.mod_eq_of_lt (by omega), parentOfMatchLoop_eq hlen (by omega),
    hstop, Nat.add_sub_cancel_left, Bool.false_or, leaves, List.any_filter]

theorem calcHash_eq {txids : List Txid} (hlen : n ≤ txids.length) {h pos : ℕ} (hh : h ≤ height n)
    (hpos : pos * 2 ^ h < n) :
    calcHash n txids h pos = .ok (nodeAt parentHash n (leafOf txids) h pos) := by
  induction h generalizing pos with
  | zero =>
    rw [Nat.pow_zero, Nat.mul_one] at hpos
    rw [calcHash, nodeAt]
    apply indexSlice_of_getElem?
    apply getElem?_leafOf
    omega
  | succ h ih =>
    obtain ⟨hleft, hright⟩ := checkedU32_child (ε := Empty) hn hpos
    rw [calcHash, hleft, Outcome.ok_bind, ih (by omega) (left_lt hpos), Outcome.ok_bind, hright,
      Outcome.ok_bind, calcTreeWidth_of_le hn (by omega), Outcome.ok_bind, nodeAt_succ, children]
    by_cases hw : pos * 2 + 1 < width n h
    · rw [if_pos hw, if_pos hw, ih (by omega) (lt_width_iff.mp hw)]
      rfl
    · rw [if_neg hw, if_neg hw]
      rfl

/-- The walk appends the bits and hashes of the partial tree below its node. -/
theorem traverseAndBuild_eq {txids : List Txid} {matched : List Bool} (hlen : n ≤ txids.length)
    (hmatched : n ≤ matched.length) {h pos : ℕ} (hh : h ≤ height n) (hpos : pos * 2 ^ h < n)
    {pmt : PartialMerkleTree} (hnum : pmt.numTransactions.toNat = n) :
    traverseAndBuild txids matched h pos pmt = .ok
      ⟨pmt.numTransactions,
        pmt.bits ++ (PartialTree.prune parentHash n (leafOf txids) (leafOf matched) h pos).bits,
        pmt.hashes ++ (PartialTree.prune parentHash n (leafOf txids) (leafOf matched) h pos).hashes⟩ := by
  induction h generalizing pos pmt with
  | zero =>
    have hone := leaves_zero (by simpa using hpos : pos < n)
    rw [traverseAndBuild, hnum, parentOfMatch_eq hn hmatched hh hpos, Outcome.ok_bind, storeHash]
    dsimp only
    rw [hnum, calcHash_eq hn hlen hh hpos, hone, List.any_cons, List.any_nil, Bool.or_false]
    rfl
  | succ h ih =>
    rw [traverseAndBuild, hnum, parentOfMatch_eq hn hmatched hh hpos, Outcome.ok_bind]
    dsimp only
    rcases PartialTree.prune_cases (H := parentHash) (n := n) (f := leafOf txids)
      (m := leafOf matched) h pos with ⟨hany, heq⟩ | ⟨hany, hw, heq⟩ | ⟨hany, hw, heq⟩
    · rw [hany, heq, if_pos (by decide), storeHash]
      dsimp only
      rw [hnum, calcHash_eq hn hlen hh hpos]
      rfl
    · obtain ⟨hleft, hright⟩ := checkedU32_child (ε := Empty) hn hpos
      rw [hany, heq, if_neg (by decide), hleft, Outcome.ok_bind, ih (by omega) (left_lt hpos) (by exact hnum),
        Outcome.ok_bind, hright, Outcome.ok_bind]
      dsimp only
      rw [hnum, calcTreeWidth_of_le hn (by omega), Outcome.ok_bind, if_pos hw,
        ih (by omega) (lt_width_iff.mp hw) (by exact hnum)]
      simp [PartialTree.bits, PartialTree.hashes]
    · obtain ⟨hleft, hright⟩ := checkedU32_child (ε := Empty) hn hpos
      rw [hany, heq, if_neg (by decide), hleft, Outcome.ok_bind, ih (by omega) (left_lt hpos) (by exact hnum),
        Outcome.ok_bind, hright, Outcome.ok_bind]
      dsimp only
      rw [hnum, calcTreeWidth_of_le hn (by omega), Outcome.ok_bind, if_neg hw]
      simp [PartialTree.bits, PartialTree.hashes]

end

/-! ## Extracting -/

/-- The state after a partial tree has been read. -/
def Extraction.advance {h : ℕ} (st : Extraction) (t : PartialTree TxMerkleNode h) (pos : ℕ) :
    Extraction where
  bitsUsed := st.bitsUsed + t.bits.length
  hashUsed := st.hashUsed + t.hashes.length
  matched := st.matched ++ (t.found pos).map Prod.snd
  indexes := st.indexes ++ (t.found pos).map Prod.fst

/-- The partial tree that the proof spells out, if it does. -/
def tree (pmt : PartialMerkleTree) (h pos : ℕ) (st : Extraction) :
    Option (PartialTree TxMerkleNode h × List Bool × List TxMerkleNode) :=
  PartialTree.read pmt.numTransactions.toNat h pos (pmt.bits.drop st.bitsUsed)
    (pmt.hashes.drop st.hashUsed)

theorem drop_succ_of_drop_eq_cons {α : Type} {xs ys : List α} {k : ℕ} {a : α}
    (h : xs.drop k = a :: ys) : xs.drop (k + 1) = ys ∧ k < xs.length := by
  constructor
  · rw [← List.drop_drop, h]
    rfl
  · have hlen := congrArg List.length h
    rw [List.length_drop, List.length_cons] at hlen
    omega

theorem drop_of_next {α : Type} {xs : List α} {used used' : ℕ} {a : α} {e : MerkleBlockError}
    (h : next xs used e = .ok (a, used')) :
    xs.drop used = a :: xs.drop (used + 1) ∧ used' = used + 1 := by
  unfold next at h
  obtain ⟨u, hlt, h⟩ := Outcome.bind_eq_ok_iff.mp h
  obtain ⟨b, hb, h⟩ := Outcome.bind_eq_ok_iff.mp h
  obtain ⟨k, hk, h⟩ := Outcome.bind_eq_ok_iff.mp h
  have hlt := Outcome.ensure_eq_ok_iff.mp hlt
  obtain ⟨-, rfl⟩ := checkedU32_eq_ok_iff.mp hk
  rw [indexSlice_of_getElem? (List.getElem?_eq_getElem hlt)] at hb
  cases hb
  cases h
  exact ⟨List.drop_eq_getElem_cons hlt, rfl⟩

theorem next_of_drop {α : Type} {xs rest : List α} {used : ℕ} {a : α} {e : MerkleBlockError}
    (hlen : xs.length < 2 ^ 32) (h : xs.drop used = a :: rest) :
    next xs used e = .ok (a, used + 1) := by
  obtain ⟨-, hlt⟩ := drop_succ_of_drop_eq_cons h
  have hget : xs[used]? = some a := by
    rw [List.drop_eq_getElem_cons hlt] at h
    rw [List.getElem?_eq_getElem hlt, (List.cons.inj h).1]
  unfold next
  rw [Outcome.ensure_of hlt, Outcome.ok_bind, indexSlice_of_getElem? hget, Outcome.ok_bind,
    checkedU32_of (by omega)]
  rfl

theorem drop_of_useBit {pmt : PartialMerkleTree} {st st' : Extraction} {b : Bool}
    (h : useBit pmt st = .ok (b, st')) :
    pmt.bits.drop st.bitsUsed = b :: pmt.bits.drop (st.bitsUsed + 1) ∧
      st' = { st with bitsUsed := st.bitsUsed + 1 } := by
  unfold useBit at h
  obtain ⟨⟨c, k⟩, hnext, h⟩ := Outcome.bind_eq_ok_iff.mp h
  obtain ⟨hdrop, rfl⟩ := drop_of_next hnext
  cases h
  exact ⟨hdrop, rfl⟩

theorem drop_of_useHash {pmt : PartialMerkleTree} {st st' : Extraction} {x : TxMerkleNode}
    (h : useHash pmt st = .ok (x, st')) :
    pmt.hashes.drop st.hashUsed = x :: pmt.hashes.drop (st.hashUsed + 1) ∧
      st' = { st with hashUsed := st.hashUsed + 1 } := by
  unfold useHash at h
  obtain ⟨⟨c, k⟩, hnext, h⟩ := Outcome.bind_eq_ok_iff.mp h
  obtain ⟨hdrop, rfl⟩ := drop_of_next hnext
  cases h
  exact ⟨hdrop, rfl⟩

theorem useBit_of {pmt : PartialMerkleTree} {st : Extraction} {b : Bool} {bs : List Bool}
    (hbits : pmt.bits.length < 2 ^ 32) (h : pmt.bits.drop st.bitsUsed = b :: bs) :
    useBit pmt st = .ok (b, { st with bitsUsed := st.bitsUsed + 1 }) := by
  rw [useBit, next_of_drop hbits h]
  rfl

theorem useHash_of {pmt : PartialMerkleTree} {st : Extraction} {x : TxMerkleNode}
    {xs : List TxMerkleNode} (hhashes : pmt.hashes.length < 2 ^ 32)
    (h : pmt.hashes.drop st.hashUsed = x :: xs) :
    useHash pmt st = .ok (x, { st with hashUsed := st.hashUsed + 1 }) := by
  rw [useHash, next_of_drop hhashes h]
  rfl

theorem advance_one {h : ℕ} (st : Extraction) (t : PartialTree TxMerkleNode h) (pos : ℕ) :
    ({ st with bitsUsed := st.bitsUsed + 1 } : Extraction).advance t (pos * 2) =
      st.advance (.one t) pos := by
  simp [Extraction.advance, PartialTree.found, PartialTree.bits, PartialTree.hashes, Nat.add_assoc,
    Nat.add_comm 1]

theorem advance_two {h : ℕ} (st : Extraction) (l r : PartialTree TxMerkleNode h) (pos : ℕ) :
    (({ st with bitsUsed := st.bitsUsed + 1 } : Extraction).advance l (pos * 2)).advance r
      (pos * 2 + 1) = st.advance (.two l r) pos := by
  simp [Extraction.advance, PartialTree.found, PartialTree.bits, PartialTree.hashes, Nat.add_assoc,
    Nat.add_comm 1]

theorem tree_rest {pmt : PartialMerkleTree} {h pos : ℕ} {st : Extraction}
    {t : PartialTree TxMerkleNode h} {bs : List Bool} {xs : List TxMerkleNode}
    (hread : pmt.tree h pos st = some (t, bs, xs)) :
    bs = pmt.bits.drop (st.advance t pos).bitsUsed ∧
      xs = pmt.hashes.drop (st.advance t pos).hashUsed := by
  obtain ⟨-, hbits, hhashes⟩ := PartialTree.read_spec hread
  simp only [Extraction.advance]
  rw [← List.drop_drop, ← List.drop_drop, hbits, hhashes, List.drop_left, List.drop_left]
  exact ⟨rfl, rfl⟩

/-- A walk that succeeds has read a partial tree of the right shape without equal siblings. -/
theorem traverseAndExtract_reads {pmt : PartialMerkleTree} {h pos : ℕ} {st st' : Extraction}
    {x : TxMerkleNode} (hrun : traverseAndExtract pmt h pos st = .ok (x, st')) :
    ∃ t bs xs, pmt.tree h pos st = some (t, bs, xs) ∧ t.Distinct parentHash ∧
      x = t.root parentHash ∧ st' = st.advance t pos := by
  induction h generalizing pos st st' x with
  | zero =>
    rw [traverseAndExtract] at hrun
    obtain ⟨⟨b, st₁⟩, hb, hrun⟩ := Outcome.bind_eq_ok_iff.mp hrun
    obtain ⟨⟨y, st₂⟩, hx, hrun⟩ := Outcome.bind_eq_ok_iff.mp hrun
    obtain ⟨hbits, rfl⟩ := drop_of_useBit hb
    obtain ⟨hhashes, rfl⟩ := drop_of_useHash hx
    dsimp only at hhashes hrun
    refine ⟨.leaf y b, _, _, by rw [tree, hbits, hhashes]; rfl, trivial, ?_⟩
    cases b with
    | false =>
      cases hrun
      exact ⟨rfl, by simp [Extraction.advance, PartialTree.found, PartialTree.bits,
        PartialTree.hashes]⟩
    | true =>
      cases hrun
      exact ⟨rfl, rfl⟩
  | succ h ih =>
    rw [traverseAndExtract] at hrun
    obtain ⟨⟨b, st₁⟩, hb, hrun⟩ := Outcome.bind_eq_ok_iff.mp hrun
    obtain ⟨hbits, rfl⟩ := drop_of_useBit hb
    dsimp only at hrun
    cases b with
    | false =>
      rw [if_pos (by decide)] at hrun
      obtain ⟨hhashes, rfl⟩ := drop_of_useHash hrun
      dsimp only at hhashes
      refine ⟨.pruned x, _, _, by rw [tree, hbits, hhashes]; rfl, trivial, rfl, ?_⟩
      simp [Extraction.advance, PartialTree.found, PartialTree.bits, PartialTree.hashes]
    | true =>
      rw [if_neg (by decide)] at hrun
      obtain ⟨leftPos, hleftPos, hrun⟩ := Outcome.bind_eq_ok_iff.mp hrun
      obtain ⟨-, rfl⟩ := checkedU32_eq_ok_iff.mp hleftPos
      obtain ⟨⟨left, st₂⟩, hleft, hrun⟩ := Outcome.bind_eq_ok_iff.mp hrun
      obtain ⟨l, bs, xs, hl, hldistinct, rfl, rfl⟩ := ih hleft
      obtain ⟨rightPos, hrightPos, hrun⟩ := Outcome.bind_eq_ok_iff.mp hrun
      obtain ⟨-, rfl⟩ := checkedU32_eq_ok_iff.mp hrightPos
      obtain ⟨w, hw, hrun⟩ := Outcome.bind_eq_ok_iff.mp hrun
      obtain rfl := eq_width_of_calcTreeWidth hw
      obtain ⟨hbs, hxs⟩ := tree_rest hl
      by_cases hw : pos * 2 + 1 < width pmt.numTransactions.toNat h
      · rw [if_pos hw] at hrun
        obtain ⟨⟨right, st₃⟩, hright, hrun⟩ := Outcome.bind_eq_ok_iff.mp hrun
        obtain ⟨r, bs', xs', hr, hrdistinct, rfl, rfl⟩ := ih hright
        obtain ⟨u, hne, hrun⟩ := Outcome.bind_eq_ok_iff.mp hrun
        cases hrun
        rw [tree, ← hbs, ← hxs] at hr
        rw [tree] at hl
        refine ⟨.two l r, bs', xs', ?_,
          ⟨Outcome.ensure_eq_ok_iff.mp hne, hldistinct, hrdistinct⟩, rfl, advance_two st l r pos⟩
        rw [tree, hbits, PartialTree.read, hl]
        simp [hw, hr]
      · rw [if_neg hw] at hrun
        cases hrun
        rw [tree] at hl
        refine ⟨.one l, bs, xs, ?_, hldistinct, rfl, advance_one st l pos⟩
        rw [tree, hbits, PartialTree.read, hl]
        simp [hw]

theorem drop_of_drop_eq_append {α : Type} {xs ys zs : List α} {k : ℕ} (h : xs.drop k = ys ++ zs) :
    xs.drop (k + ys.length) = zs := by
  rw [← List.drop_drop, h, List.drop_left]

/-- A walk over a partial tree of the right shape without equal siblings succeeds. -/
theorem traverseAndExtract_of_tree {pmt : PartialMerkleTree}
    (hn : pmt.numTransactions.toNat < 2 ^ 31) (hbits : pmt.bits.length < 2 ^ 32)
    (hhashes : pmt.hashes.length < 2 ^ 32) {h pos : ℕ} (hh : h ≤ height pmt.numTransactions.toNat)
    (hpos : pos * 2 ^ h < pmt.numTransactions.toNat) {st : Extraction}
    {t : PartialTree TxMerkleNode h} (hshape : t.Shape pmt.numTransactions.toNat pos)
    (hdistinct : t.Distinct parentHash) {bs : List Bool} {xs : List TxMerkleNode}
    (hb : pmt.bits.drop st.bitsUsed = t.bits ++ bs)
    (hx : pmt.hashes.drop st.hashUsed = t.hashes ++ xs) :
    traverseAndExtract pmt h pos st = .ok (t.root parentHash, st.advance t pos) := by
  induction t generalizing pos st bs xs with
  | leaf x b =>
    rw [traverseAndExtract, useBit_of hbits hb, Outcome.ok_bind]
    dsimp only
    rw [useHash_of hhashes (by exact hx), Outcome.ok_bind]
    cases b with
    | false =>
      simp [Extraction.advance, PartialTree.found, PartialTree.bits, PartialTree.hashes,
        PartialTree.root]
    | true => rfl
  | pruned x =>
    rw [traverseAndExtract, useBit_of hbits hb, Outcome.ok_bind]
    dsimp only
    rw [if_pos (by decide), useHash_of hhashes (by exact hx)]
    simp [Extraction.advance, PartialTree.found, PartialTree.bits, PartialTree.hashes,
      PartialTree.root]
  | @one h t ih =>
    obtain ⟨hleft, hright⟩ := checkedU32_child (ε := MerkleBlockError) hn hpos
    obtain ⟨hbdrop, -⟩ := drop_succ_of_drop_eq_cons hb
    rw [traverseAndExtract, useBit_of hbits hb, Outcome.ok_bind]
    dsimp only
    rw [if_neg (by decide), hleft, Outcome.ok_bind,
      ih (by omega) (left_lt hpos) hshape.2 hdistinct (by exact hbdrop) (by exact hx),
      Outcome.ok_bind]
    dsimp only
    rw [hright, Outcome.ok_bind, calcTreeWidth_of_le hn (by omega), Outcome.ok_bind,
      if_neg hshape.1, advance_one]
    rfl
  | @two h l r ihl ihr =>
    obtain ⟨hleft, hright⟩ := checkedU32_child (ε := MerkleBlockError) hn hpos
    rw [PartialTree.bits, List.cons_append, List.append_assoc] at hb
    rw [PartialTree.hashes, List.append_assoc] at hx
    obtain ⟨hbdrop, -⟩ := drop_succ_of_drop_eq_cons hb
    rw [traverseAndExtract, useBit_of hbits hb, Outcome.ok_bind]
    dsimp only
    rw [if_neg (by decide), hleft, Outcome.ok_bind,
      ihl (by omega) (left_lt hpos) hshape.2.1 hdistinct.2.1 (by exact hbdrop) (by exact hx),
      Outcome.ok_bind]
    dsimp only
    rw [hright, Outcome.ok_bind, calcTreeWidth_of_le hn (by omega), Outcome.ok_bind,
      if_pos hshape.1, ihr (by omega) (lt_width_iff.mp hshape.1) hshape.2.2 hdistinct.2.2
        (by exact drop_of_drop_eq_append hbdrop) (by exact drop_of_drop_eq_append hx),
      Outcome.ok_bind]
    dsimp only
    rw [Outcome.ensure_of hdistinct.1, advance_two]
    rfl

/-- The pairs that are hashed when the proof is checked. -/
def hashedPairs (pmt : PartialMerkleTree) : List (TxMerkleNode × TxMerkleNode) :=
  ((pmt.tree (height pmt.numTransactions.toNat) 0 ⟨0, 0, [], []⟩).map
    fun r => r.1.pairs parentHash).getD []

theorem extractMatches_reads {pmt : PartialMerkleTree} {root : TxMerkleNode} {matched : List Txid}
    {indexes : List ℕ} (hrun : extractMatches pmt = .ok (root, matched, indexes)) :
    0 < pmt.numTransactions.toNat ∧ ∃ t : PartialTree TxMerkleNode (height pmt.numTransactions.toNat),
      t.Shape pmt.numTransactions.toNat 0 ∧ pmt.hashedPairs = t.pairs parentHash ∧
        root = t.root parentHash ∧ matched = (t.found 0).map Prod.snd ∧
          indexes = (t.found 0).map Prod.fst := by
  unfold extractMatches at hrun
  obtain ⟨u₁, hpos, h₁⟩ := Outcome.bind_eq_ok_iff.mp hrun
  obtain ⟨u₂, -, h₂⟩ := Outcome.bind_eq_ok_iff.mp h₁
  obtain ⟨u₃, -, h₃⟩ := Outcome.bind_eq_ok_iff.mp h₂
  obtain ⟨u₄, -, h₄⟩ := Outcome.bind_eq_ok_iff.mp h₃
  obtain ⟨top, htop, h₅⟩ := Outcome.bind_eq_ok_iff.mp h₄
  obtain ⟨⟨x, st⟩, hwalk, h₆⟩ := Outcome.bind_eq_ok_iff.mp h₅
  obtain ⟨used, -, h₇⟩ := Outcome.bind_eq_ok_iff.mp h₆
  obtain ⟨given, -, h₈⟩ := Outcome.bind_eq_ok_iff.mp h₇
  obtain ⟨u₅, -, h₉⟩ := Outcome.bind_eq_ok_iff.mp h₈
  obtain ⟨u₆, -, hret⟩ := Outcome.bind_eq_ok_iff.mp h₉
  obtain rfl := eq_height_of_calcTreeHeightLoop (Nat.zero_le _) htop
  obtain ⟨t, bs, xs, htree, -, rfl, rfl⟩ := traverseAndExtract_reads hwalk
  have hne : pmt.numTransactions.toNat ≠ 0 := by
    intro hzero
    exact Outcome.ensure_eq_ok_iff.mp hpos (UInt32.toNat_inj.mp hzero)
  cases hret
  refine ⟨Nat.pos_of_ne_zero hne, t, (PartialTree.read_spec htree).1, ?_, rfl, ?_, ?_⟩
  · rw [hashedPairs, htree]
    rfl
  · simp [Extraction.advance]
  · simp [Extraction.advance]

/-- A proof whose root is that of a list of txids of the announced length proves members of that
list, at increasing positions, as long as the pairs hashed on the way do not collide. -/
theorem extract_matches_is_sound {pmt : PartialMerkleTree} {txids : List Txid}
    (hlen : txids.length = pmt.numTransactions.toNat)
    (hinj : Set.InjOn (hashPair parentHash) {q | q ∈ pmt.hashedPairs ++
      treePairs parentHash txids.length (leafOf txids) (height txids.length)})
    {root : TxMerkleNode} {matched : List Txid} {indexes : List ℕ}
    (hrun : extractMatches pmt = .ok (root, matched, indexes))
    (hroot : calculateRoot parentHash txids = .ok (some root)) :
    indexes.Pairwise (· < ·) ∧ (∀ i ∈ indexes, i < txids.length) ∧
      List.Forall₂ (fun i txid => txids[i]? = some txid) indexes matched := by
  obtain ⟨hpos, t, hshape, hpairs, rfl, rfl, rfl⟩ := extractMatches_reads hrun
  have hnonempty : txids ≠ [] := by
    rintro rfl
    rw [List.length_nil] at hlen
    omega
  rw [calculateRoot_eq hnonempty, Outcome.ok.injEq, Option.some.injEq] at hroot
  rw [hpairs] at hinj
  rw [hlen] at hinj hroot
  have hzero : 0 * 2 ^ height pmt.numTransactions.toNat < pmt.numTransactions.toNat := by
    rwa [Nat.zero_mul]
  have hbelow : ∀ p ∈ t.found 0, p.1 < txids.length := by
    intro p hp
    rw [hlen]
    exact (mem_leaves.mp (PartialTree.found_mem hshape hzero hp)).2.2
  refine ⟨PartialTree.found_sorted hshape hzero, ?_, ?_⟩
  · intro i hi
    obtain ⟨p, hp, rfl⟩ := List.mem_map.mp hi
    exact hbelow p hp
  · rw [List.forall₂_map_left_iff, List.forall₂_map_right_iff, List.forall₂_same]
    intro p hp
    have hleaf := PartialTree.found_eq hinj le_rfl hshape hzero hroot.symm hp
    rw [hleaf]
    exact getElem?_leafOf (hbelow p hp)

/-! ## The codec -/

theorem length_packBits (k : ℕ) (bits : List Bool) : (packBits k bits).length = k := by
  induction k generalizing bits with
  | zero => rfl
  | succ k ih => rw [packBits, List.length_cons, ih]

theorem length_unpackByte (byte : UInt8) : (unpackByte byte).length = 8 := rfl

theorem packByte_unpackByte (byte : UInt8) : packByte (unpackByte byte) = byte := by
  have h : ∀ i : Fin 256, packByte (unpackByte (UInt8.ofNat i)) = UInt8.ofNat i := by decide +kernel
  have hbyte := h ⟨byte.toNat, byte.toNat_lt⟩
  rwa [UInt8.ofNat_toNat] at hbyte

theorem unpackByte_packByte {chunk : List Bool} (h : chunk.length = 8) :
    unpackByte (packByte chunk) = chunk := by
  have hall : ∀ b₀ b₁ b₂ b₃ b₄ b₅ b₆ b₇ : Bool,
      unpackByte (packByte [b₀, b₁, b₂, b₃, b₄, b₅, b₆, b₇]) = [b₀, b₁, b₂, b₃, b₄, b₅, b₆, b₇] := by
    decide +kernel
  rcases chunk with _ | ⟨b₀, _ | ⟨b₁, _ | ⟨b₂, _ | ⟨b₃, _ | ⟨b₄, _ | ⟨b₅, _ | ⟨b₆, _ | ⟨b₇, rest⟩⟩⟩⟩⟩⟩⟩⟩
  any_goals cases h
  have hnil : rest = [] := List.length_eq_zero_iff.mp (by simpa using h)
  subst hnil
  exact hall b₀ b₁ b₂ b₃ b₄ b₅ b₆ b₇

/-- Flags that are not set leave no trace. -/
theorem packByte_append_false (chunk : List Bool) (k : ℕ) :
    packByte (chunk ++ List.replicate k false) = packByte chunk := by
  induction k with
  | zero => simp
  | succ k ih =>
    have hzero : ∀ i : UInt8, Bool.toUInt8 false <<< i = 0 := by
      intro i
      exact UInt8.zero_shiftLeft
    rw [List.replicate_succ', ← List.append_assoc, packByte, List.zipIdx_append, List.foldl_append,
      List.zipIdx_singleton, List.foldl_cons, List.foldl_nil, hzero, UInt8.or_zero]
    exact ih

/-- The last byte is filled up with flags that are not set. -/
theorem unpack_packBits (k : ℕ) (bits : List Bool) (h : bits.length ≤ 8 * k) :
    (packBits k bits).flatMap unpackByte = bits ++ List.replicate (8 * k - bits.length) false := by
  induction k generalizing bits with
  | zero =>
    obtain rfl : bits = [] := List.length_eq_zero_iff.mp (by omega)
    rfl
  | succ k ih =>
    rw [packBits, List.flatMap_cons, ih _ (by rw [List.length_drop]; omega), List.length_drop]
    by_cases hlong : 8 ≤ bits.length
    · have hlen : (bits.take 8).length = 8 := by rw [List.length_take]; omega
      have hpad : 8 * k - (bits.length - 8) = 8 * (k + 1) - bits.length := by omega
      rw [unpackByte_packByte hlen, ← List.append_assoc, List.take_append_drop, hpad]
    · have hfill : (bits ++ List.replicate (8 - bits.length) false).length = 8 := by
        rw [List.length_append, List.length_replicate]
        omega
      have hpad : 8 * (k + 1) - bits.length = 8 - bits.length + (8 * k - (bits.length - 8)) := by
        omega
      rw [List.take_of_length_le (by omega), List.drop_of_length_le (by omega), List.nil_append,
        ← packByte_append_false bits (8 - bits.length), unpackByte_packByte hfill, hpad,
        List.replicate_add, List.append_assoc]

theorem packBits_unpack (bytes : Bytes) :
    packBits bytes.length (bytes.flatMap unpackByte) = bytes := by
  induction bytes with
  | nil => rfl
  | cons b bs ih =>
    rw [List.length_cons, packBits, List.flatMap_cons, List.take_left' (length_unpackByte b),
      List.drop_left' (length_unpackByte b), packByte_unpackByte, ih]

theorem length_unpack (bytes : Bytes) : (bytes.flatMap unpackByte).length = 8 * bytes.length := by
  induction bytes with
  | nil => rfl
  | cons b bs ih =>
    rw [List.flatMap_cons, List.length_append, length_unpackByte, ih, List.length_cons]
    omega

theorem toFields_ofFields (p : UInt32 × List TxMerkleNode × Bytes) : (ofFields p).toFields = p := by
  obtain ⟨num, hashes, bytes⟩ := p
  have hlen : ((bytes.flatMap unpackByte).length + 7) / 8 = bytes.length := by
    rw [length_unpack]
    omega
  simp only [toFields, ofFields, flagBytes, hlen, packBits_unpack]

/-- A proof comes back with its flags filled up to whole bytes. -/
theorem ofFields_toFields (pmt : PartialMerkleTree) :
    ofFields pmt.toFields = ⟨pmt.numTransactions,
      pmt.bits ++ List.replicate (8 * ((pmt.bits.length + 7) / 8) - pmt.bits.length) false,
      pmt.hashes⟩ := by
  simp only [toFields, ofFields, flagBytes]
  rw [unpack_packBits _ _ (by omega)]

theorem lawful_fields : Lawful encodeFields decodeFields fun p =>
    Fits (vec (u8Array 32)).consensusEncode MAX_VEC_SIZE p.2.1 ∧ p.2.2.length ≤ MAX_VEC_SIZE := by
  have hhashes := (lawful_vec (lawful_u8Array 32)).decode (Codec.bounded_ofFinite _ _)
  have hflags := (lawful_len.guard (· ≤ MAX_VEC_SIZE)
    fun n => EncodeError.oversizedVectorAllocation n MAX_VEC_SIZE).counted lawful_u8.finite
  exact (lawful_u32.finite.seq (hhashes.seq hflags)).congr fun p => by simp

theorem lawful : codec.IsLawful fun pmt =>
    Fits (vec (u8Array 32)).consensusEncode MAX_VEC_SIZE pmt.hashes ∧
      pmt.bits.length ≤ 8 * MAX_VEC_SIZE ∧ 8 ∣ pmt.bits.length := by
  refine .ofFinite ((lawful_fields.retract toFields ofFields
    fun p _ => toFields_ofFields p).congr fun pmt => ?_)
  have hlen : pmt.toFields.2.2.length = (pmt.bits.length + 7) / 8 := length_packBits _ _
  have hwhole : ofFields pmt.toFields = pmt ↔ 8 ∣ pmt.bits.length := by
    rw [ofFields_toFields]
    obtain ⟨num, bits, hashes⟩ := pmt
    simp only [mk.injEq, true_and, and_true, List.append_right_eq_self, List.replicate_eq_nil_iff]
    omega
  rw [hlen, hwhole]
  show (_ ∧ _) ∧ _ ↔ _
  simp only [toFields]
  constructor
  · rintro ⟨⟨hfit, hle⟩, hdvd⟩
    exact ⟨hfit, by omega, hdvd⟩
  · rintro ⟨hfit, hle, hdvd⟩
    exact ⟨⟨hfit, by omega⟩, hdvd⟩

/-! ## Proofs of the transactions of a block -/

/-- The positions of the flags that are set. -/
def positions (matched : List Bool) : List ℕ := (List.range matched.length).filter (leafOf matched)

section

variable {txids : List Txid} {matched : List Bool}

/-- The tree is built over the transactions that the counter of 32 bits counts. -/
theorem fromTxids_counted {n : ℕ} (hnum : (UInt32.ofNat txids.length).toNat = n) (hpos : 0 < n)
    (hn : n < 2 ^ 31) (hmatched : matched.length = txids.length) :
    fromTxids txids matched = .ok ⟨UInt32.ofNat txids.length,
      (PartialTree.prune parentHash n (leafOf txids) (leafOf matched) (height n) 0).bits,
      (PartialTree.prune parentHash n (leafOf txids) (leafOf matched) (height n) 0).hashes⟩ := by
  have hle : n ≤ txids.length := hnum ▸ Nat.mod_le _ _
  have hroot : 0 * 2 ^ height n < n := by rwa [Nat.zero_mul]
  unfold fromTxids
  rw [Outcome.require_of (by omega), Outcome.ok_bind, Outcome.require_of hmatched.symm,
    Outcome.ok_bind]
  dsimp only
  rw [hnum, calcTreeHeight_of hn, Outcome.ok_bind,
    traverseAndBuild_eq hn hle (hmatched.symm ▸ hle) le_rfl hroot hnum]
  simp

theorem fromTxids_eq (hpos : 0 < txids.length) (hn : txids.length < 2 ^ 31)
    (hmatched : matched.length = txids.length) :
    fromTxids txids matched = .ok ⟨UInt32.ofNat txids.length,
      (PartialTree.prune parentHash txids.length (leafOf txids) (leafOf matched)
        (height txids.length) 0).bits,
      (PartialTree.prune parentHash txids.length (leafOf txids) (leafOf matched)
        (height txids.length) 0).hashes⟩ :=
  fromTxids_counted (UInt32.toNat_ofNat_of_lt' (Nat.lt_trans hn (by decide))) hpos hn hmatched

theorem extractMatches_of_tree {pmt : PartialMerkleTree} {n : ℕ}
    (heq : pmt.numTransactions.toNat = n) (hpos : 0 < n) (hmax : n ≤ maxTransactions)
    {t : PartialTree TxMerkleNode (height n)} (hshape : t.Shape n 0)
    (hdistinct : t.Distinct parentHash) (hhashes : pmt.hashes = t.hashes) {pad : List Bool}
    (hbits : pmt.bits = t.bits ++ pad)
    (hpad : (t.bits.length + 7) / 8 = (pmt.bits.length + 7) / 8) (hnum : t.hashes.length ≤ n)
    (hlen : pmt.bits.length + 7 < 2 ^ 32) :
    extractMatches pmt =
      .ok (t.root parentHash, (t.found 0).map Prod.snd, (t.found 0).map Prod.fst) := by
  subst heq
  have hmaxval : maxTransactions = 16666 := rfl
  have hne : pmt.numTransactions ≠ 0 := by
    intro hzero
    rw [hzero] at hpos
    exact absurd hpos (by decide)
  have hle := t.length_hashes_le_bits
  have hblen : pmt.bits.length = t.bits.length + pad.length := by rw [hbits, List.length_append]
  have hrest : pmt.hashes.drop 0 = t.hashes ++ [] := by rw [hhashes, List.append_nil, List.drop_zero]
  have hwalk : traverseAndExtract pmt (height pmt.numTransactions.toNat) 0 ⟨0, 0, [], []⟩ =
      .ok (t.root parentHash, Extraction.advance ⟨0, 0, [], []⟩ t 0) :=
    traverseAndExtract_of_tree (lt_of_le_maxTransactions hmax) (by omega) (by rw [hhashes]; omega) le_rfl
      (by rwa [Nat.zero_mul]) hshape hdistinct hbits hrest
  unfold extractMatches
  rw [Outcome.ensure_of hne, Outcome.ok_bind, Outcome.ensure_of hmax, Outcome.ok_bind,
    Outcome.ensure_of (by rw [hhashes]; omega), Outcome.ok_bind,
    Outcome.ensure_of (by rw [hhashes]; omega), Outcome.ok_bind,
    calcTreeHeight_of (lt_of_le_maxTransactions hmax),
    Outcome.ok_bind, hwalk, Outcome.ok_bind]
  simp only [Extraction.advance, Nat.zero_add, List.nil_append]
  rw [checkedU32_of (by omega), Outcome.ok_bind, checkedU32_of (by omega), Outcome.ok_bind,
    Outcome.ensure_of (by omega), Outcome.ok_bind, Outcome.ensure_of (by rw [hhashes]; omega)]
  rfl

theorem fits_hashes {hashes : List TxMerkleNode} (h : hashes.length ≤ maxTransactions) :
    Fits (vec (u8Array 32)).consensusEncode MAX_VEC_SIZE hashes := by
  intro w hw
  obtain ⟨len, ws, hlen, hws, rfl⟩ := Encoder.counted_eq_ok_iff.1 hw
  have hvar := length_encodeLen_le hlen
  have hlist := length_list_u8Array hws
  have hmax : maxTransactions = 16666 := rfl
  have hvec : MAX_VEC_SIZE = 4000000 := rfl
  rw [Written.bytes_append, List.length_append]
  omega

theorem exists_encode {pmt : PartialMerkleTree} (hhashes : pmt.hashes.length < 2 ^ 64)
    (hbits : pmt.bits.length < 2 ^ 64) : ∃ w, codec.consensusEncode pmt = .ok w := by
  have hlen : pmt.toFields.2.2.length = (pmt.bits.length + 7) / 8 := length_packBits _ _
  show ∃ w, encodeFields pmt.toFields = .ok w
  refine Encoder.exists_seq ⟨_, rfl⟩ (Encoder.exists_seq ?_ ?_)
  · exact Encoder.exists_counted (exists_encodeLen hhashes) fun _ _ => ⟨_, rfl⟩
  · exact Encoder.exists_counted (exists_encodeLen (by omega)) fun _ _ => ⟨_, rfl⟩

/-- What a reader gets of a proof that was serialized. -/
theorem deserialize_encoded {pmt : PartialMerkleTree} {w : Written}
    (hhashes : pmt.hashes.length ≤ maxTransactions) (hbits : pmt.bits.length ≤ 8 * MAX_VEC_SIZE)
    (hw : codec.consensusEncode pmt = .ok w) :
    deserialize codec w.bytes = .ok ⟨pmt.numTransactions,
      pmt.bits ++ List.replicate (8 * ((pmt.bits.length + 7) / 8) - pmt.bits.length) false,
      pmt.hashes⟩ := by
  have hlen : pmt.toFields.2.2.length = (pmt.bits.length + 7) / 8 := length_packBits _ _
  have hdec := lawful_fields.roundTrips pmt.toFields w ⟨fits_hashes hhashes, by omega⟩ hw []
  rw [List.append_nil] at hdec
  have hrun : codec.consensusDecodeFromFiniteReader.run w.bytes = .ok (ofFields pmt.toFields, []) :=
    Decoder.run_map_eq_ok_iff.2 ⟨_, hdec, rfl⟩
  rw [deserialize, hrun, ← ofFields_toFields]
  rfl

theorem leafOf_injOn (h : txids.Nodup) : Set.InjOn (leafOf txids) {i | i < txids.length} := by
  intro i hi j hj hij
  apply (List.getElem?_inj hi h).mp
  rw [getElem?_leafOf hi, getElem?_leafOf hj, hij]

/-- The proof built for some transactions of a block, sent and read back, gives the merkle root and
exactly these transactions. -/
theorem partial_merkle_tree_is_complete (txids : List Txid) (matched : List Bool)
    (hpos : 1 ≤ txids.length) (hmax : txids.length ≤ 16666) (hnodup : txids.Nodup)
    (hmatched : matched.length = txids.length)
    (hinj : Set.InjOn (hashPair parentHash)
      {q | q ∈ treePairs parentHash txids.length (leafOf txids) (height txids.length)}) :
    ∃ pmt w pmt' root, fromTxids txids matched = .ok pmt ∧ codec.consensusEncode pmt = .ok w ∧
      deserialize codec w.bytes = .ok pmt' ∧ calculateRoot parentHash txids = .ok (some root) ∧
      extractMatches pmt' =
        .ok (root, (positions matched).map (leafOf txids), positions matched) := by
  have hlt : txids.length < 2 ^ 32 := by omega
  have hnum : (UInt32.ofNat txids.length).toNat = txids.length := UInt32.toNat_ofNat_of_lt' hlt
  have hzero : 0 * 2 ^ height txids.length < txids.length := by rw [Nat.zero_mul]; exact hpos
  have hheight : height txids.length ≤ 15 :=
    Nat.clog_le_of_le_pow (Nat.le_trans hmax (by decide))
  obtain ⟨hhashes, hbits⟩ := PartialTree.length_prune (H := parentHash) (f := leafOf txids)
    (m := leafOf matched) hzero
  rw [leaves_top (le_two_pow_height _), List.length_range] at hhashes hbits
  have hfound := PartialTree.found_prune (H := parentHash) (f := leafOf txids)
    (m := leafOf matched) hzero
  rw [leaves_top (le_two_pow_height _)] at hfound
  have hroot := PartialTree.root_prune (H := parentHash) (n := txids.length) (f := leafOf txids)
    (m := leafOf matched) (height txids.length) 0
  have hbuilt := fromTxids_eq hpos (by omega) hmatched
  set t := PartialTree.prune parentHash txids.length (leafOf txids) (leafOf matched)
    (height txids.length) 0 with ht
  have hsmall : t.bits.length ≤ 16 * 16666 :=
    Nat.le_trans hbits (Nat.mul_le_mul (by omega) hmax)
  have hvec : MAX_VEC_SIZE = 4000000 := rfl
  have hlen : t.hashes.length ≤ maxTransactions := Nat.le_trans hhashes hmax
  obtain ⟨w, hw⟩ : ∃ w, codec.consensusEncode ⟨UInt32.ofNat txids.length, t.bits, t.hashes⟩ = .ok w :=
    exists_encode (Nat.lt_of_le_of_lt hlen (by decide)) (Nat.lt_of_le_of_lt hsmall (by decide))
  have hread := deserialize_encoded hlen (by dsimp only; omega) hw
  refine ⟨_, w, _, _, hbuilt, hw, hread, calculateRoot_eq (List.ne_nil_of_length_pos hpos), ?_⟩
  refine (extractMatches_of_tree (t := t) hnum hpos hmax (PartialTree.shape_prune _ _)
    (PartialTree.distinct_prune hinj (leafOf_injOn hnodup) le_rfl hzero) rfl rfl ?_ hhashes ?_).trans ?_
  · dsimp only
    rw [List.length_append, List.length_replicate]
    omega
  · dsimp only
    rw [List.length_append, List.length_replicate]
    omega
  · rw [hroot, hfound, positions, hmatched, List.map_map, List.map_map]
    simp [Function.comp_def]

end

/-! ### A block of three transactions -/

def sampleTxids : List Txid := [.replicate 32 1, .replicate 32 2, .replicate 32 3]

/-- The proof of the second transaction. -/
def sampleProof : PartialMerkleTree :=
  ⟨3, [true, true, false, true, false],
    [.replicate 32 1, .replicate 32 2, parentHash (.replicate 32 3) (.replicate 32 3)]⟩

/-- The pairs of the tree: the first two txids, the third with itself, and their parents. -/
def samplePairs : List (TxMerkleNode × TxMerkleNode) :=
  [(.replicate 32 1, .replicate 32 2), (.replicate 32 3, .replicate 32 3),
    (parentHash (.replicate 32 1) (.replicate 32 2), parentHash (.replicate 32 3) (.replicate 32 3))]

theorem height_three : height 3 = 2 := by decide +kernel

theorem treePairs_sample : treePairs parentHash 3 (leafOf sampleTxids) (height 3) = samplePairs := by
  rw [height_three]
  rfl

theorem hashedPairs_sample : sampleProof.hashedPairs ⊆ samplePairs := by
  have hread : ∀ h, h = 2 → ((sampleProof.tree h 0 ⟨0, 0, [], []⟩).map
      fun r => r.1.pairs parentHash).getD [] =
        [(parentHash (.replicate 32 1) (.replicate 32 2),
          parentHash (.replicate 32 3) (.replicate 32 3)), (.replicate 32 1, .replicate 32 2)] := by
    rintro _ rfl
    rfl
  have heq : sampleProof.hashedPairs = _ := hread _ height_three
  rw [heq]
  refine List.cons_subset.mpr ⟨List.mem_cons_of_mem _ (List.mem_cons_of_mem _ List.mem_cons_self), ?_⟩
  exact List.cons_subset.mpr ⟨List.mem_cons_self, List.nil_subset _⟩

theorem samplePairs_injective : Set.InjOn (hashPair parentHash) {q | q ∈ samplePairs} := by
  have hnodup : (samplePairs.map (hashPair parentHash)).Nodup := by decide +kernel
  intro p hp q hq
  exact List.inj_on_of_nodup_map hnodup hp hq

/-- The root of the block. -/
def sampleRoot : TxMerkleNode :=
  parentHash (parentHash (.replicate 32 1) (.replicate 32 2))
    (parentHash (.replicate 32 3) (.replicate 32 3))

theorem partial_merkle_tree_is_complete_sample :
    ∃ pmt w pmt' root, fromTxids sampleTxids [false, true, false] = .ok pmt ∧
      codec.consensusEncode pmt = .ok w ∧ deserialize codec w.bytes = .ok pmt' ∧
      calculateRoot parentHash sampleTxids = .ok (some root) ∧
      extractMatches pmt' = .ok (root, [.replicate 32 2], [1]) := by
  have hinj : Set.InjOn (hashPair parentHash) {q | q ∈ treePairs parentHash sampleTxids.length
      (leafOf sampleTxids) (height sampleTxids.length)} := by
    have hsample := samplePairs_injective
    rw [← treePairs_sample] at hsample
    exact hsample
  exact partial_merkle_tree_is_complete sampleTxids [false, true, false] (by decide) (by decide)
    (by decide +kernel) rfl hinj

theorem extract_matches_is_sound_sample :
    extractMatches sampleProof = .ok (sampleRoot, [.replicate 32 2], [1]) ∧
      List.Forall₂ (fun i txid => sampleTxids[i]? = some txid) [1] [.replicate 32 2] := by
  have hrun : extractMatches sampleProof = .ok (sampleRoot, [.replicate 32 2], [1]) := by
    decide +kernel
  have hinj : Set.InjOn (hashPair parentHash) {q | q ∈ sampleProof.hashedPairs ++
      treePairs parentHash sampleTxids.length (leafOf sampleTxids) (height sampleTxids.length)} := by
    apply samplePairs_injective.mono
    intro q hq
    rcases List.mem_append.mp hq with hq | hq
    · exact hashedPairs_sample hq
    · rw [← treePairs_sample]
      exact hq
  exact ⟨hrun, (extract_matches_is_sound rfl hinj hrun rfl).2.2⟩

end PartialMerkleTree

/-! ## Merkle blocks -/

/-- Data structure that represents a block header paired to a partial merkle tree. -/
structure MerkleBlock where
  header : PureHeader
  txn : PartialMerkleTree
  deriving DecidableEq

def MerkleBlock.equiv : MerkleBlock ≃ PureHeader × PartialMerkleTree where
  toFun b := (b.header, b.txn)
  invFun p := ⟨p.1, p.2⟩
  left_inv _ := rfl
  right_inv _ := rfl

def MerkleBlock.codec : Codec MerkleBlock :=
  (Blockdata.Header.codec.tuple PartialMerkleTree.codec).wrap MerkleBlock.equiv

/-- The partial trees that `consensus_decode` can return. -/
def PartialMerkleTree.Decodable (pmt : PartialMerkleTree) : Prop :=
  (Fits (vec (u8Array 32)).consensusEncode MAX_VEC_SIZE pmt.hashes ∧
    pmt.bits.length ≤ 8 * MAX_VEC_SIZE ∧ 8 ∣ pmt.bits.length) ∧
  Fits PartialMerkleTree.codec.consensusEncode MAX_VEC_SIZE pmt

theorem MerkleBlock.lawful : MerkleBlock.codec.IsLawful fun b => b.txn.Decodable := by
  have hheader := Blockdata.Header.lawful.decode Blockdata.Header.bounded
  have htxn := PartialMerkleTree.lawful.decode (Codec.bounded_ofFinite _ _)
  apply ((Codec.IsLawful.tuple hheader htxn).wrap MerkleBlock.equiv).congr
  intro b
  have hfits : Fits Blockdata.Header.codec.consensusEncode MAX_VEC_SIZE b.header := by
    intro w e
    rw [Blockdata.Header.length_encode e]
    decide
  exact ⟨fun h => h.2, fun h => ⟨⟨trivial, hfits⟩, h⟩⟩

end RustDogecoin
