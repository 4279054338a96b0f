import RustDogecoin.Hashes.Sha256t
import RustDogecoin.Lib.Blocks
import RustDogecoin.Lib.Outcome

/-!
# The padding of SHA256

`fipsPad` is the padding of FIPS 180-4 and `sha256` the hash over its blocks.  The engine reaches it
by taking in the padding as further pieces, `const_hash` by deciding for each of its blocks what it
holds; both end in `sha256`.
-/

namespace RustDogecoin

namespace BlockEngine

variable {σ : Type} {blockSize : ℕ} {processBlock : σ → Bytes → σ}

theorem overwrite_all {buf piece : Bytes} (h : buf.length = piece.length) :
    overwrite buf 0 piece = piece := by
  have hover := overwrite_append [] buf [] piece h
  rw [List.nil_append, List.append_nil] at hover
  exact hover.trans (List.append_nil _)

/-- From a block boundary on, an engine that is fed whole blocks processes them one by one. -/
theorem input_blocks (processBlock : σ → Bytes → σ) (hpos : 0 < blockSize) (e : BlockEngine σ)
    (m : Bytes)
    (hbuf : e.buffer.length = blockSize) (he : e.length % blockSize = 0)
    (hm : m.length % blockSize = 0) :
    (input blockSize processBlock e m).h = (blocks blockSize m).foldl processBlock e.h := by
  obtain ⟨k, hk⟩ := Nat.dvd_of_mod_eq_zero hm
  induction k generalizing e m with
  | zero =>
    obtain rfl := List.length_eq_zero_iff.mp hk
    rw [input_eq_foldl hpos e [] hbuf, blocks_of_length_lt (by simpa using hpos)]
    rfl
  | succ k ih =>
    have hfirst : (m.take blockSize).length = blockSize := by
      rw [List.length_take, hk, Nat.mul_succ]
      omega
    have hrest : (m.drop blockSize).length = blockSize * k := by
      rw [List.length_drop, hk, Nat.mul_succ]
      omega
    have hne : m.take blockSize ≠ [] := by
      intro h
      rw [h, List.length_nil] at hfirst
      omega
    have hover : overwrite e.buffer 0 (m.take blockSize) = m.take blockSize :=
      overwrite_all (by rw [hbuf, hfirst])
    have hturn : (m.take blockSize).foldl (inputByte blockSize processBlock) e =
        ⟨processBlock e.h (m.take blockSize), e.length + blockSize, m.take blockSize⟩ := by
      rw [foldl_inputByte_of_eq e (m.take blockSize) hne hbuf (by rw [he, hfirst, Nat.zero_add]), he,
        hover, hfirst]
    have hnext : (e.length + blockSize) % blockSize = 0 := by
      rw [Nat.add_mod_right, he]
    have hsplit : input blockSize processBlock e m = input blockSize processBlock
        (input blockSize processBlock e (m.take blockSize)) (m.drop blockSize) := by
      rw [← input_append hpos e _ _ hbuf, List.take_append_drop]
    have hblocks : blocks blockSize m =
        blocks blockSize (m.take blockSize) ++ blocks blockSize (m.drop blockSize) := by
      rw [← blocks_append (by rw [hfirst, Nat.mod_self]), List.take_append_drop]
    rw [hsplit, hblocks, blocks_of_length_eq hpos hfirst, List.foldl_append,
      input_eq_foldl hpos e _ hbuf, hturn]
    exact ih _ _ hfirst hnext (by rw [hrest, Nat.mul_mod_right]) hrest

/-- Pieces are taken in as their concatenation. -/
theorem foldl_input (processBlock : σ → Bytes → σ) (hpos : 0 < blockSize) (e : BlockEngine σ)
    (pieces : List Bytes) (hbuf : e.buffer.length = blockSize) :
    pieces.foldl (input blockSize processBlock) e = input blockSize processBlock e pieces.flatten := by
  induction pieces generalizing e with
  | nil => rfl
  | cons piece pieces ih =>
    rw [List.foldl_cons, ih _ (length_buffer_input hpos e piece hbuf), List.flatten_cons,
      input_append hpos e _ _ hbuf]

end BlockEngine

namespace Sha256

/-! ## The standard -/

/-- A one bit, zeros up to the last eight bytes of a block, the length in bits.  The standard defines
it for lengths below `2 ^ 64` bits. -/
def fipsPad (m : Bytes) : Bytes :=
  m ++ [0x80] ++ List.replicate ((119 - m.length % 64) % 64) 0 ++ beBytes 8 (8 * m.length)

/-- The hash of FIPS 180-4. -/
def sha256 (m : Bytes) : U8Array 32 :=
  HashEngine.midstate ⟨(blocks 64 (fipsPad m)).foldl processBlock HashEngine.default.h, 0, []⟩

/-- The number of zeros is the least one that leaves eight bytes of a block. -/
theorem fipsPad_zeros_least (n : ℕ) :
    (n + 1 + (119 - n % 64) % 64) % 64 = 56 ∧
      ∀ k, (n + 1 + k) % 64 = 56 → (119 - n % 64) % 64 ≤ k := by
  constructor
  · omega
  · intro k hk
    omega

theorem length_fipsPad (m : Bytes) : (fipsPad m).length = (m.length + 9 + 63) / 64 * 64 := by
  simp only [fipsPad, List.length_append, List.length_singleton, List.length_replicate,
    length_beBytes]
  omega

/-! ## The engine -/

theorem length_buffer_input (e : HashEngine) (inp : Bytes) (hbuf : e.buffer.length = BLOCK_SIZE) :
    (HashEngine.input e inp).buffer.length = BLOCK_SIZE :=
  BlockEngine.length_buffer_input (by decide) e inp hbuf

theorem length_input (e : HashEngine) (inp : Bytes) (hbuf : e.buffer.length = BLOCK_SIZE) :
    (HashEngine.input e inp).length = e.length + inp.length :=
  BlockEngine.length_input processBlock (by decide) e inp hbuf

theorem foldl_input (e : HashEngine) (pieces : List Bytes) (hbuf : e.buffer.length = BLOCK_SIZE) :
    pieces.foldl HashEngine.input e = HashEngine.input e pieces.flatten :=
  BlockEngine.foldl_input processBlock (by decide) e pieces hbuf

/-- What `from_engine` feeds the engine is the padding of what it has taken in. -/
theorem fromEngine_input (m : Bytes) :
    fromEngine (HashEngine.input .default m) =
      HashEngine.midstate (HashEngine.input .default (fipsPad m)) := by
  have hbuf : HashEngine.default.buffer.length = BLOCK_SIZE := by decide
  have hlen (x : Bytes) : (HashEngine.input .default x).length = x.length := by
    rw [length_input _ _ hbuf]
    exact Nat.zero_add _
  have hzeros : (List.replicate (BLOCK_SIZE - 8) (0 : UInt8)).length = 56 := by decide
  have htake (k : ℕ) (h : k ≤ 56) :
      (List.replicate (BLOCK_SIZE - 8) (0 : UInt8)).take k = List.replicate k 0 := by
    rw [List.take_replicate]
    exact congrArg (List.replicate · 0) (Nat.min_eq_left h)
  have hmark : (m ++ [0x80]).length = m.length + 1 := by simp
  unfold fromEngine
  dsimp only
  rw [hlen, ← input_append _ m [0x80] hbuf, hlen, hzeros, hmark, fipsPad]
  by_cases hlong : 56 < (m.length + 1) % BLOCK_SIZE
  · have hpad : (119 - m.length % 64) % 64 = 56 + (56 - (m.length + 1 + 56) % 64) := by
      change 56 < (m.length + 1) % 64 at hlong
      omega
    rw [if_pos hlong, ← input_append _ (m ++ [0x80]) _ hbuf, hlen, List.length_append, hzeros, hmark,
      htake _ (Nat.sub_le _ _), ← input_append _ _ (List.replicate _ 0) hbuf,
      ← input_append _ _ (beBytes 8 _) hbuf, hpad, List.replicate_add, ← List.append_assoc]
    rfl
  · have hpad : (119 - m.length % 64) % 64 = 56 - (m.length + 1) % 64 := by
      change ¬ 56 < (m.length + 1) % 64 at hlong
      omega
    rw [if_neg hlong, hlen, hmark, htake _ (Nat.sub_le _ _), ← input_append _ _ _ hbuf,
      ← input_append _ _ (beBytes 8 _) hbuf, hpad]
    rfl

theorem fromEngine_eq_sha256 (m : Bytes) : fromEngine (HashEngine.input .default m) = sha256 m := by
  have hblocks := BlockEngine.input_blocks processBlock (show 0 < 64 by decide) HashEngine.default
    (fipsPad m) (by decide) (by decide) (by rw [length_fipsPad, Nat.mul_mod_left])
  rw [fromEngine_input, sha256, ← hblocks]
  rfl

/-! ## The hash at compile time -/

theorem overwrite_zeros (x : Bytes) (n : ℕ) :
    overwrite (List.replicate n 0) 0 x = x ++ List.replicate (n - x.length) 0 := by
  unfold overwrite
  rw [List.take_zero, List.nil_append, Nat.zero_add, List.drop_replicate]

/-- The marker behind the end of the message. -/
theorem overwrite_marker {x : Bytes} {n : ℕ} :
    overwrite (x ++ List.replicate (n + 1) 0) x.length [0x80] =
      x ++ [0x80] ++ List.replicate n 0 := by
  have hover := overwrite_append x [0] (List.replicate n 0) [0x80] rfl
  rw [List.append_assoc x [0]] at hover
  exact hover

/-- The length in the last eight bytes of a block. -/
theorem overwrite_length {x : Bytes} {n v : ℕ} (h : x.length + n = 64 - 8) :
    overwrite (x ++ List.replicate (n + 8) 0) (64 - 8) (beBytes 8 v) =
      x ++ List.replicate n 0 ++ beBytes 8 v := by
  have hpre : (x ++ List.replicate n (0 : UInt8)).length = 64 - 8 := by
    rw [List.length_append, List.length_replicate, h]
  have hover := overwrite_append (x ++ List.replicate n 0) (List.replicate 8 0) [] (beBytes 8 v)
    (by rw [length_beBytes, List.length_replicate])
  rw [List.append_nil, List.append_nil, hpre, List.append_assoc x, ← List.replicate_add] at hover
  exact hover

/-- The block in which the message ends holds the marker. -/
theorem constBlock_end {front tail : Bytes} {i : ℕ} (hfront : front.length = 64 * i)
    (htail : tail.length < 64) :
    constBlock (front ++ tail) (((front ++ tail).length + 9 + 63) / 64) i =
      ((fipsPad (front ++ tail)).drop (64 * i)).take 64 := by
  have hlen : (front ++ tail).length = 64 * i + tail.length := by rw [List.length_append, hfront]
  have hmod : (front ++ tail).length % 64 = tail.length := by omega
  have hdrop : (front ++ tail).drop (i * 64) = tail := by
    rw [Nat.mul_comm, ← hfront, List.drop_left]
  have hpad : (fipsPad (front ++ tail)).drop (64 * i) =
      tail ++ [0x80] ++ List.replicate ((119 - tail.length) % 64) 0 ++
        beBytes 8 (8 * (front ++ tail).length) := by
    rw [fipsPad, hmod, ← hfront, List.append_assoc, List.append_assoc, List.append_assoc,
      List.drop_left, List.append_assoc, List.append_assoc]
  have hcond : (front ++ tail).length % 64 ≤ 64 - 9 ∨
      i + 2 = ((front ++ tail).length + 9 + 63) / 64 := by omega
  obtain ⟨n, hn⟩ : ∃ n, 64 - tail.length = n + 1 := ⟨63 - tail.length, by omega⟩
  unfold constBlock
  dsimp only
  rw [if_neg (by omega), hdrop, overwrite_zeros, if_pos hcond, hn, overwrite_marker, hpad,
    hlen]
  by_cases hlast : tail.length ≤ 55
  · obtain ⟨k, rfl⟩ : ∃ k, n = k + 8 := ⟨n - 8, by omega⟩
    have hmark : (tail ++ [0x80]).length + k = 64 - 8 := by
      rw [List.length_append, List.length_singleton]
      omega
    have hzeros : (119 - tail.length) % 64 = k := by omega
    rw [if_pos (by omega), overwrite_length hmark, hzeros, Nat.mul_comm, List.take_of_length_le]
    rw [List.length_append, List.length_append, List.length_replicate, length_beBytes]
    omega
  · have hzeros : (119 - tail.length) % 64 = n + 56 := by omega
    have hfull : (tail ++ [0x80] ++ List.replicate n 0).length = 64 := by
      rw [List.length_append, List.length_append, List.length_singleton, List.length_replicate]
      omega
    rw [if_neg (by omega), hzeros, List.replicate_add, ← List.append_assoc, List.append_assoc _ _ (beBytes 8 _),
      List.take_append_of_le_length (by omega), List.take_of_length_le (by omega)]

/-- A block behind the one in which the message ends holds no marker any more. -/
theorem constBlock_behind {m : Bytes} {i : ℕ} (hi : m.length < 64 * i)
    (hlt : i < (m.length + 9 + 63) / 64) :
    constBlock m ((m.length + 9 + 63) / 64) i = ((fipsPad m).drop (64 * i)).take 64 := by
  have hmod : 55 < m.length % 64 := by omega
  have hlast : i + 1 = (m.length + 9 + 63) / 64 := by omega
  have hnone : m.drop (i * 64) = [] := List.drop_eq_nil_of_le (by omega)
  obtain ⟨n, hn⟩ : ∃ n, n = 64 * i - m.length - 1 := ⟨_, rfl⟩
  have hzeros : (119 - m.length % 64) % 64 = n + 56 := by omega
  have hfront : (m ++ [0x80] ++ List.replicate n 0).length = 64 * i := by
    rw [List.length_append, List.length_append, List.length_singleton, List.length_replicate]
    omega
  have hpad : (fipsPad m).drop (64 * i) =
      [] ++ List.replicate 56 0 ++ beBytes 8 (8 * m.length) := by
    rw [fipsPad, hzeros, List.replicate_add, ← List.append_assoc, List.append_assoc _ _ (beBytes 8 _),
      ← hfront, List.drop_left, List.nil_append]
  have hcond : ¬ (m.length % 64 ≤ 64 - 9 ∨ i + 2 = (m.length + 9 + 63) / 64) := by omega
  unfold constBlock
  dsimp only
  rw [if_neg (by omega), hnone, overwrite_zeros, if_neg hcond, if_pos hlast, hpad]
  have hover := overwrite_length (x := []) (n := 56) (v := m.length * 8) rfl
  rw [Nat.mul_comm 8]
  exact hover.trans (List.take_of_length_le (by simp)).symm

/-- Every block of `const_hash` is the block of the padded message. -/
theorem constBlock_eq {m : Bytes} {i : ℕ} (hi : i < (m.length + 9 + 63) / 64) :
    constBlock m ((m.length + 9 + 63) / 64) i = ((fipsPad m).drop (64 * i)).take 64 := by
  by_cases hwhole : i * 64 + 64 ≤ m.length
  · unfold constBlock
    rw [if_pos hwhole, Nat.mul_comm, fipsPad, List.append_assoc, List.append_assoc,
      List.drop_append_of_le_length (by omega), List.take_append_of_le_length]
    rw [List.length_drop]
    omega
  by_cases hend : 64 * i ≤ m.length
  · have hfront : (m.take (64 * i)).length = 64 * i := by
      rw [List.length_take, Nat.min_eq_left hend]
    have htail : (m.drop (64 * i)).length < 64 := by
      rw [List.length_drop]
      omega
    have hblock := constBlock_end hfront htail
    rw [List.take_append_drop] at hblock
    exact hblock
  · exact constBlock_behind (by omega) hi

theorem constHash_eq_sha256 (m : Bytes) : constHash m true = sha256 m := by
  have hfold : ∀ h : State, (List.range ((m.length + 9 + 63) / 64)).foldl
      (fun h chunk => processBlock h (constBlock m ((m.length + 9 + 63) / 64) chunk)) h =
        (blocks 64 (fipsPad m)).foldl processBlock h := by
    intro h
    rw [blocks, length_fipsPad, Nat.mul_div_cancel _ (by decide), List.foldl_map]
    apply List.foldl_ext
    intro h chunk hchunk
    rw [constBlock_eq (List.mem_range.mp hchunk)]
  unfold constHash sha256
  dsimp only
  rw [if_pos rfl, hfold]

/-! ## Engines from a midstate -/

/-- `HashEngine::from_midstate` with its assertion. -/
def HashEngine.fromMidstateAsserted {ε : Type} (midstate : U8Array 32) (length : ℕ) :
    Outcome ε HashEngine := do
  .require (length % BLOCK_SIZE = 0) .assertion
  return HashEngine.fromMidstate midstate length

/-- The engine that has been fed the digest of the tag twice. -/
def tagEngine (tag : Bytes) : HashEngine :=
  HashEngine.input (HashEngine.input .default (hash tag).toList) (hash tag).toList

theorem length_tagEngine (tag : Bytes) :
    (tagEngine tag).length = 64 ∧ (tagEngine tag).buffer.length = BLOCK_SIZE := by
  have hbuf := length_buffer_input .default (hash tag).toList (by decide)
  constructor
  · rw [tagEngine, length_input _ _ hbuf, length_input _ _ (by decide), (hash tag).length_eq]
    rfl
  · exact length_buffer_input _ _ hbuf

theorem hashTag_eq_midstate (tag : Bytes) : hashTag tag = HashEngine.midstate (tagEngine tag) := by
  have hdigest : constHash tag true = hash tag := by
    rw [constHash_eq_sha256, ← fromEngine_eq_sha256, hash]
  have htwice : ((hash tag).toList ++ (hash tag).toList).length = 64 := by
    rw [List.length_append, (hash tag).length_eq]
  unfold hashTag tagEngine
  dsimp only
  rw [hdigest, ← input_append _ _ _ (by decide)]
  generalize (hash tag).toList ++ (hash tag).toList = twice at *
  have hblock : constBlock twice 2 0 = twice := by
    unfold constBlock
    rw [if_pos (by omega), Nat.zero_mul, List.drop_zero, List.take_of_length_le htwice.le]
  have hone : blocks 64 twice = [twice] := blocks_of_length_eq (by decide) htwice
  have hstate := BlockEngine.input_blocks processBlock (show 0 < 64 by decide) HashEngine.default
    twice (by decide) (by decide) (by rw [htwice])
  rw [hone] at hstate
  unfold constHash
  rw [htwice]
  show HashEngine.midstate ⟨processBlock _ (constBlock twice 2 0), 0, []⟩ = _
  rw [hblock]
  show HashEngine.midstate ⟨[twice].foldl processBlock HashEngine.default.h, 0, []⟩ = _
  rw [← hstate]
  rfl

/-- Engines that are alike stay so and give the same digest. -/
theorem foldl_input_alike {e e' : HashEngine} (h : BlockEngine.Alike BLOCK_SIZE e e')
    (pieces : List Bytes) :
    BlockEngine.Alike BLOCK_SIZE (pieces.foldl HashEngine.input e)
      (pieces.foldl HashEngine.input e') := by
  induction pieces generalizing e e' with
  | nil => exact h
  | cons piece pieces ih => exact ih (h.input (by decide) piece)

/-- A digest does not depend on how the message was cut into pieces: it is that of `const_hash`, and
both pad as the standard says.  An engine from the midstate of a tag cannot be told from one that has
taken in the digest of the tag twice. -/
theorem digest_of_pieces (pieces : List Bytes) (tag : Bytes) :
    fromEngine (pieces.foldl HashEngine.input .default) = constHash pieces.flatten true ∧
      constHash pieces.flatten true = sha256 pieces.flatten ∧
      ∃ e, HashEngine.fromMidstateAsserted (hashTag tag) 64 = (.ok e : Outcome Empty HashEngine) ∧
        ∀ more : List Bytes,
          fromEngine (more.foldl HashEngine.input e) =
              fromEngine (more.foldl HashEngine.input (tagEngine tag)) ∧
            HashEngine.midstate (more.foldl HashEngine.input e) =
              HashEngine.midstate (more.foldl HashEngine.input (tagEngine tag)) ∧
            (more.foldl HashEngine.input e).length =
              (more.foldl HashEngine.input (tagEngine tag)).length := by
  obtain ⟨hlen, hbuf⟩ := length_tagEngine tag
  have halike := HashEngine.fromMidstate_alike (tagEngine tag) hbuf (by rw [hlen]; rfl)
  rw [hlen, ← hashTag_eq_midstate] at halike
  refine ⟨?_, constHash_eq_sha256 _, HashEngine.fromMidstate (hashTag tag) 64, rfl, fun more => ?_⟩
  · rw [foldl_input _ _ (by decide), fromEngine_eq_sha256, constHash_eq_sha256]
  · have hmore := foldl_input_alike halike more
    refine ⟨fromEngine_congr hmore, ?_, hmore.length_eq⟩
    simp only [HashEngine.midstate, hmore.h_eq]

end Sha256

end RustDogecoin
