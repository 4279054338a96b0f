import RustDogecoin.Blockdata.Weight
import RustDogecoin.Lib.MerkleCount
import RustDogecoin.MerkleTree.TopHash

/-!
# The size of a partial merkle tree

The documentation bounds the serialized size by `10 + ceil (32.25 * n)` bytes, with `n` the number of
leaves of the partial tree or a bound on it.  The bound leaves room for three bytes for each of the two
counts and for `2 * n - 1` flags, which nodes with one child are not part of.  It can be missed only
where no transaction is cut off, and there the number of transactions and of open nodes with one
child decide.
-/

namespace RustDogecoin

open Merkle MerkleTree

namespace PartialMerkleTree

/-- The number of matched transactions. -/
def matchCount (matched : List Bool) : ℕ := matched.count true

/-- The bound on the number of leaves of the partial tree. -/
def leafBound (matched : List Bool) : ℕ :=
  min matched.length (1 + matchCount matched * height matched.length)

/-- `10 + ceil (32.25 * n)`. -/
def sizeBound (n : ℕ) : ℕ := 10 + (129 * n + 3) / 4

/-- The bytes of a tree with `hashes` hashes and `bits` flags. -/
def serializedSize (hashes bits : ℕ) : ℕ :=
  4 + (VarInt.sizeOfLen hashes + 32 * hashes) + (VarInt.sizeOfLen ((bits + 7) / 8) + (bits + 7) / 8)

theorem measures_fields : Measures encodeFields fun p =>
    4 + (VarInt.sizeOfLen p.2.1.length + 32 * p.2.1.length +
      (VarInt.sizeOfLen p.2.2.length + p.2.2.length)) := by
  have hhashes := measures_vec (measures_u8Array 32)
  have hflags := measures_len.counted measures_u8
  apply (measures_u32.seq (hhashes.seq hflags)).congr
  intro p
  simp [List.map_const', Nat.mul_comm]

theorem length_encoded {pmt : PartialMerkleTree} {w : Written}
    (hw : codec.consensusEncode pmt = .ok w) :
    w.bytes.length = serializedSize pmt.hashes.length pmt.bits.length := by
  have hflags : pmt.toFields.2.2.length = (pmt.bits.length + 7) / 8 := length_packBits _ _
  have hlen := measures_fields _ _ hw
  dsimp only at hlen
  rw [hlen, hflags, serializedSize, ← Nat.add_assoc]
  rfl

/-! ## The numbers -/

/-- The flags of a tree in which nothing is cut off, with `singles` open nodes with one child, fit
their share of the bound. -/
def FlagsFit (n singles : ℕ) : Prop :=
  n < 65536 ∧ 2 * n - 1 + singles ≤ max 2016 (8 * ((n + 3) / 4))

instance (n singles : ℕ) : Decidable (FlagsFit n singles) := inferInstanceAs (Decidable (_ ∧ _))

section

variable {hashes singles bits n : ℕ}

/-- A hash less than the bound allows for is room enough for everything else. -/
theorem size_le_of_lt (hlt : hashes < n) (hhashes : hashes < 2 ^ 31) (hsingles : singles ≤ 31)
    (hbits : bits + 1 = 2 * hashes + singles) : serializedSize hashes bits ≤ sizeBound n := by
  have hbound : sizeBound (hashes + 1) ≤ sizeBound n := by
    unfold sizeBound
    omega
  refine Nat.le_trans ?_ hbound
  rw [serializedSize, sizeBound, VarInt.sizeOfLen_eq (by omega), VarInt.sizeOfLen_eq (by omega)]
  split_ifs <;> omega

/-- A few hashes without single children. -/
theorem size_le_of_path (hhashes : hashes ≤ 32) (hbits : bits + 1 = 2 * hashes) :
    serializedSize hashes bits ≤ sizeBound hashes := by
  rw [serializedSize, sizeBound, VarInt.sizeOfLen_eq (by omega), VarInt.sizeOfLen_eq (by omega)]
  split_ifs <;> omega

/-- Where nothing is cut off, the flags decide. -/
theorem size_le_iff (hpos : 0 < n) (hn : n < 2 ^ 31) (hsingles : singles ≤ height n)
    (hbits : bits + 1 = 2 * n + singles) :
    serializedSize n bits ≤ sizeBound n ↔ FlagsFit n singles := by
  have hsmall : ∀ k, n ≤ 2 ^ k → singles ≤ k := fun k hk =>
    hsingles.trans (Nat.clog_le_of_le_pow hk)
  have h8 := hsmall 8
  have h10 := hsmall 10
  have h16 := hsmall 16
  have h31 := hsmall 31 hn.le
  rw [serializedSize, sizeBound, FlagsFit, VarInt.sizeOfLen_eq (by omega),
    VarInt.sizeOfLen_eq (by omega)]
  by_cases hbyte : n ≤ 0xFC
  · rw [if_pos hbyte]
    split_ifs <;> omega
  · rw [if_neg hbyte]
    by_cases hword : n ≤ 0xFFFF
    · rw [if_pos hword]
      split_ifs <;> omega
    · rw [if_neg hword]
      split_ifs <;> omega

end

/-! ## The trees that are built -/

/-- The partial merkle tree of the matched transactions is within the documented size. -/
def WithinBound (txids : List Txid) (matched : List Bool) : Prop :=
  ∃ pmt w, fromTxids txids matched = .ok pmt ∧ codec.consensusEncode pmt = .ok w ∧
    w.bytes.length ≤ sizeBound (leafBound matched)

/-- The number of transactions is counted without overflow, and either the counter is cut off, or
two neighbours are both not matched, or the flags fit. -/
def FitsBound (n : ℕ) (m : ℕ → Bool) : Prop :=
  2 ^ 32 ≤ n ∧ n % 2 ^ 32 < 2 ^ 31 ∨
    n < 2 ^ 31 ∧ (¬ PairsMarked n m ∨ FlagsFit n (openSingles n m (height n)))

section

variable {txids : List Txid} {matched : List Bool}

theorem withinBound_iff_size {pmt : PartialMerkleTree} (hbuilt : fromTxids txids matched = .ok pmt)
    (hhashes : pmt.hashes.length < 2 ^ 31) (hbits : pmt.bits.length < 2 ^ 33) :
    WithinBound txids matched ↔
      serializedSize pmt.hashes.length pmt.bits.length ≤ sizeBound (leafBound matched) := by
  constructor
  · rintro ⟨pmt', w, hbuilt', hw, hle⟩
    obtain rfl := Outcome.ok.inj (hbuilt'.symm.trans hbuilt)
    rwa [← length_encoded hw]
  · intro hle
    obtain ⟨w, hw⟩ : ∃ w, codec.consensusEncode pmt = .ok w := exists_encode (by omega) (by omega)
    exact ⟨pmt, w, hbuilt, hw, (length_encoded hw).symm ▸ hle⟩

theorem marked_top (n : ℕ) (m : ℕ → Bool) :
    marked n m (height n) 0 = ((List.range n).filter m).length := by
  rw [marked, leaves_top (le_two_pow_height n)]

theorem marked_eq_matchCount : marked matched.length (leafOf matched) (height matched.length) 0 =
    matchCount matched := by
  have hcount : matchCount ((List.range matched.length).map (leafOf matched)) =
      ((List.range matched.length).filter (leafOf matched)).length := by
    rw [matchCount, List.count, List.countP_map, List.countP_eq_length_filter]
    simp [Function.comp_def]
  rw [marked_top, ← hcount, map_leafOf_range]

theorem marked_le_matchCount {n : ℕ} (hn : n ≤ matched.length) :
    marked n (leafOf matched) (height n) 0 ≤ matchCount matched := by
  rw [← marked_eq_matchCount, marked_top, marked_top]
  exact ((List.range_sublist.mpr hn).filter _).length_le

/-- What is known of the tree over the first `n` transactions. -/
structure Counted (matched : List Bool) (n hashes singles : ℕ) : Prop where
  pos : 0 < hashes
  le : hashes ≤ n
  singles_le : singles ≤ height n
  paths : hashes + singles ≤ 1 + marked n (leafOf matched) (height n) 0 * height n
  paths' : 2 ≤ marked n (leafOf matched) (height n) 0 →
    hashes + singles ≤ marked n (leafOf matched) (height n) 0 * height n
  all_iff : hashes = n ↔ PairsMarked n (leafOf matched)

/-- The tree over the counted transactions, by its numbers of hashes and of open nodes with one
child. -/
theorem exists_counted {n : ℕ} (hnum : (UInt32.ofNat txids.length).toNat = n) (hpos : 0 < n)
    (hn : n < 2 ^ 31) (hmatched : matched.length = txids.length) :
    ∃ hashes bits, Counted matched n hashes (openSingles n (leafOf matched) (height n)) ∧
      bits + 1 = 2 * hashes + openSingles n (leafOf matched) (height n) ∧
      (WithinBound txids matched ↔ serializedSize hashes bits ≤ sizeBound (leafBound matched)) := by
  have hroot : 0 * 2 ^ height n < n := by rwa [Nat.zero_mul]
  have hheight := height_le hn
  have hbuilt := fromTxids_counted hnum hpos hn hmatched
  have hbits := PartialTree.length_bits_prune (H := parentHash) (f := leafOf txids)
    (m := leafOf matched) hpos
  have hpaths := PartialTree.hashes_le_paths (H := parentHash) (n := n) (f := leafOf txids)
    (m := leafOf matched) (height n) 0
  have hall := PartialTree.length_hashes_eq_iff (H := parentHash) (f := leafOf txids)
    (m := leafOf matched) hpos
  have hle := PartialTree.length_hashes_le (H := parentHash) (f := leafOf txids)
    (m := leafOf matched) hroot
  have hopen := openSingles_le n (leafOf matched) (height n)
  rw [leaves_top (le_two_pow_height n), List.length_range] at hle
  generalize PartialTree.prune parentHash n (leafOf txids) (leafOf matched) (height n) 0 = t
    at hbuilt hbits hpaths hall hle
  have hsingles : t.singles = openSingles n (leafOf matched) (height n) := by
    have := t.length_bits
    omega
  rw [hsingles] at hpaths
  refine ⟨t.hashes.length, t.bits.length,
    ⟨t.length_hashes_pos, hle, hopen, hpaths.1, hpaths.2, hall⟩, hbits, ?_⟩
  have hlen : t.bits.length < 2 ^ 33 := by omega
  have hiff := withinBound_iff_size hbuilt (Nat.lt_of_le_of_lt hle hn) hlen
  exact hiff

theorem sizeBound_mono {n n' : ℕ} (h : n ≤ n') : sizeBound n ≤ sizeBound n' := by
  unfold sizeBound
  omega

theorem withinBound_iff_of_lt (hpos : 0 < txids.length) (hn : txids.length < 2 ^ 31)
    (hmatched : matched.length = txids.length) : WithinBound txids matched ↔
      ¬ PairsMarked txids.length (leafOf matched) ∨
        FlagsFit txids.length (openSingles txids.length (leafOf matched) (height txids.length)) := by
  have hnum : (UInt32.ofNat txids.length).toNat = txids.length :=
    UInt32.toNat_ofNat_of_lt' (Nat.lt_trans hn (by decide))
  obtain ⟨hashes, bits, hc, hbits, hiff⟩ := exists_counted hnum hpos hn hmatched
  have hpaths := hc.paths
  have hpaths' := hc.paths'
  have hle := hc.le
  have hheight := height_le hn
  have hsingles := hc.singles_le
  have hcount : marked txids.length (leafOf matched) (height txids.length) 0 = matchCount matched := by
    rw [← hmatched]
    exact marked_eq_matchCount
  rw [hcount] at hpaths hpaths'
  rw [hiff, leafBound, hmatched]
  by_cases hall : hashes = txids.length
  · have hmin : min txids.length (1 + matchCount matched * height txids.length) = txids.length := by
      omega
    have hpairs := not_not.mpr (hc.all_iff.mp hall)
    rw [hmin, or_iff_right hpairs, hall]
    exact size_le_iff hpos hn hsingles (hall ▸ hbits)
  · have hpairs : ¬ PairsMarked txids.length (leafOf matched) := mt hc.all_iff.mpr hall
    refine iff_of_true ?_ (.inl hpairs)
    by_cases hlt : hashes < min txids.length (1 + matchCount matched * height txids.length)
    · exact size_le_of_lt hlt (by omega) (by omega) hbits
    · -- the bound is met exactly by a single path, which has a sibling at each of its levels
      have hone : matchCount matched ≤ 1 := by
        by_contra htwo
        have := hpaths' (by omega)
        omega
      have hpath : matchCount matched * height txids.length ≤ 31 :=
        (Nat.mul_le_mul_right _ hone).trans (by omega)
      have hmin : min txids.length (1 + matchCount matched * height txids.length) = hashes := by
        omega
      rw [hmin]
      exact size_le_of_path (by omega) (by omega)

theorem not_withinBound_of_overflow (hpos : 0 < txids.length)
    (hmatched : matched.length = txids.length) (hn : 2 ^ 31 ≤ txids.length % 2 ^ 32) :
    ¬ WithinBound txids matched := by
  have hpanic : fromTxids txids matched = .panic .overflow := by
    unfold fromTxids
    rw [Outcome.require_of (Nat.ne_of_gt hpos), Outcome.ok_bind, Outcome.require_of hmatched.symm,
      Outcome.ok_bind]
    dsimp only
    rw [calcTreeHeight, UInt32.toNat_ofNat', calcTreeHeightLoop_panics hn rfl]
    rfl
  rintro ⟨pmt, w, hbuilt, -⟩
  rw [hpanic] at hbuilt
  cases hbuilt

theorem leafBound_pos (hpos : 0 < matched.length) : 1 ≤ leafBound matched := by
  rw [leafBound]
  omega

/-- A counter that was cut off to zero makes a tree of one hash. -/
theorem withinBound_of_counted_zero (hpos : 0 < txids.length)
    (hmatched : matched.length = txids.length) (hzero : (UInt32.ofNat txids.length).toNat = 0) :
    WithinBound txids matched := by
  have hheight : height 0 = 0 := Nat.clog_zero_right 2
  have hleaf : txids[0]? = some (leafOf txids 0) := getElem?_leafOf hpos
  have hbuilt : fromTxids txids matched =
      .ok ⟨UInt32.ofNat txids.length, [false], [leafOf txids 0]⟩ := by
    unfold fromTxids
    rw [Outcome.require_of (Nat.ne_of_gt hpos), Outcome.ok_bind, Outcome.require_of hmatched.symm,
      Outcome.ok_bind]
    dsimp only
    rw [hzero, calcTreeHeight_of (by decide), hheight, Outcome.ok_bind, traverseAndBuild]
    dsimp only
    rw [hzero, parentOfMatch, Nat.zero_add, checkedU32_of (by decide), Outcome.ok_bind,
      parentOfMatchLoop, Outcome.pure_eq_ok, Outcome.ok_bind, storeHash, calcHash,
      indexSlice_of_getElem? hleaf]
    rfl
  have hhashes : [leafOf txids 0].length < 2 ^ 31 := Nat.one_lt_two_pow (by decide)
  have hbits : [false].length < 2 ^ 33 := Nat.one_lt_two_pow (by decide)
  have hbound := sizeBound_mono (leafBound_pos (hmatched.symm ▸ hpos))
  have hsize : serializedSize 1 1 ≤ sizeBound 1 := by decide
  exact (withinBound_iff_size hbuilt hhashes hbits).mpr (hsize.trans hbound)

/-- A counter that was cut off makes a tree that is small beside the bound. -/
theorem withinBound_of_counted (hn : 2 ^ 32 ≤ txids.length) (hmatched : matched.length = txids.length)
    (hcounted : txids.length % 2 ^ 32 < 2 ^ 31) : WithinBound txids matched := by
  have hnum : (UInt32.ofNat txids.length).toNat = txids.length % 2 ^ 32 := UInt32.toNat_ofNat'
  rcases Nat.eq_zero_or_pos (txids.length % 2 ^ 32) with hzero | hpos
  · exact withinBound_of_counted_zero (by omega) hmatched (hnum.trans hzero)
  · obtain ⟨hashes, bits, hc, hbits, hiff⟩ := exists_counted hnum hpos hcounted hmatched
    generalize txids.length % 2 ^ 32 = n at hcounted hpos hc hbits
    have hpaths := hc.paths
    have hle := hc.le
    have hheight := height_le hcounted
    have hsingles := hc.singles_le
    have hcount : marked n (leafOf matched) (height n) 0 ≤ matchCount matched :=
      marked_le_matchCount (by omega)
    have htop : 32 ≤ height txids.length := by
      by_contra hlt
      have hpow : 2 ^ height txids.length ≤ 2 ^ 31 := Nat.pow_le_pow_right (by decide) (by omega)
      have := le_two_pow_height txids.length
      omega
    have hleft : marked n (leafOf matched) (height n) 0 * height n ≤ matchCount matched * 31 :=
      Nat.mul_le_mul hcount hheight
    have hright : matchCount matched * 32 ≤ matchCount matched * height txids.length :=
      Nat.mul_le_mul_left _ htop
    rw [hiff, leafBound, hmatched]
    by_cases hnone : matchCount matched = 0
    · rw [hnone, Nat.zero_mul] at hleft
      have hone : min txids.length (1 + matchCount matched * height txids.length) = hashes := by
        rw [hnone, Nat.zero_mul]
        have := hc.pos
        omega
      rw [hone]
      exact size_le_of_path (by omega) (by omega)
    · exact size_le_of_lt (by omega) (by omega) (by omega) hbits

/-- The documented bound holds except where the number of transactions overflows the computation of
widths, and where nothing is cut off and there are too many transactions or too many open nodes with
one child. -/
theorem withinBound_iff (hpos : txids ≠ []) (hmatched : matched.length = txids.length) :
    WithinBound txids matched ↔ FitsBound txids.length (leafOf matched) := by
  have hlen := List.length_pos_iff.mpr hpos
  rw [FitsBound]
  by_cases hn : txids.length < 2 ^ 31
  · rw [withinBound_iff_of_lt hlen hn hmatched]
    have hno : ¬ (2 ^ 32 ≤ txids.length ∧ txids.length % 2 ^ 32 < 2 ^ 31) := by omega
    rw [or_iff_right hno, and_iff_right hn]
  · by_cases hover : 2 ^ 31 ≤ txids.length % 2 ^ 32
    · apply iff_of_false (not_withinBound_of_overflow hlen hmatched hover)
      omega
    · have hlarge : 2 ^ 32 ≤ txids.length := by omega
      have hcounted := Nat.lt_of_not_le hover
      exact iff_of_true (withinBound_of_counted hlarge hmatched hcounted) (.inl ⟨hlarge, hcounted⟩)

/-- Three transactions of which the second one is matched. -/
theorem withinBound_iff_three : WithinBound sampleTxids [false, true, false] ↔
    FitsBound sampleTxids.length (leafOf [false, true, false]) :=
  withinBound_iff (by decide) rfl

end

/-- With 1025 transactions that are all matched, ten levels have an odd number of nodes. -/
theorem not_withinBound_1025 :
    ¬ WithinBound (List.replicate 1025 (.replicate 32 0)) (List.replicate 1025 true) := by
  have hleaf : ∀ i < 1025, leafOf (List.replicate 1025 true) i = true := by
    intro i hi
    rw [leafOf, List.getD_eq_getElem?_getD, List.getElem?_replicate_of_lt hi, Option.getD_some]
  have hmarked : PairsMarked 1025 (leafOf (List.replicate 1025 true)) :=
    fun i hi => .inl (hleaf _ (by omega))
  have hflags : ¬ FlagsFit 1025
      (openSingles 1025 (leafOf (List.replicate 1025 true)) (height 1025)) := by
    decide +kernel
  rw [withinBound_iff_of_lt (by rw [List.length_replicate]; decide)
    (by rw [List.length_replicate]; decide) (by rw [List.length_replicate, List.length_replicate])]
  rw [List.length_replicate]
  exact fun h => h.elim (fun hno => hno hmarked) hflags

end PartialMerkleTree

end RustDogecoin
