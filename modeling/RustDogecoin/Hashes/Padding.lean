import RustDogecoin.Hashes.Sha256Pad
import RustDogecoin.Hashes.Sha512
import RustDogecoin.Hashes.Ripemd160
import RustDogecoin.Hashes.Sha1
import Mathlib.Data.Nat.ModEq

/-!
# Padding by the engines

The functions `from_engine` of the hashes differ in the size of a block and in the form of the length.
`Padding.pad` is what they have in common, with its overflow checks and assertions, and `Padding.padded` is the
padding of the standards.  The length in bits is computed on 64 bits, so that a message of `2 ^ 61` bytes has no
digest.
-/

namespace RustDogecoin

/-- How a hash pads: the last `lengthSize` bytes of a block are for the length in bits, which the standard has as
`encodeLength` and the engine is fed as `lengthPieces`. -/
structure Padding where
  blockSize : ℕ
  lengthSize : ℕ
  encodeLength : ℕ → Bytes
  lengthPieces : ℕ → List Bytes
  pos : 0 < lengthSize
  le : 2 * lengthSize ≤ blockSize
  length_encodeLength : ∀ n, (encodeLength n).length = lengthSize
  flatten_lengthPieces : ∀ n < 2 ^ 64, (lengthPieces n).flatten = encodeLength n

namespace Padding

/-- The number of zeros behind a message of `n` bytes. -/
def zeros (P : Padding) (n : ℕ) : ℕ := (2 * P.blockSize - P.lengthSize - 1 - n % P.blockSize) % P.blockSize

/-- A one bit, zeros up to the bytes for the length, the length in bits. -/
def padded (P : Padding) (m : Bytes) : Bytes :=
  m ++ [0x80] ++ List.replicate (P.zeros m.length) 0 ++ P.encodeLength (8 * m.length)

variable {σ : Type}

/-- `HashEngine::input` of a hash with this size of blocks. -/
abbrev input (P : Padding) (processBlock : σ → Bytes → σ) (e : BlockEngine σ) (inp : Bytes) : BlockEngine σ :=
  BlockEngine.input P.blockSize processBlock e inp

/-- What `from_engine` does before it takes the state. -/
def pad (P : Padding) (processBlock : σ → Bytes → σ) (e : BlockEngine σ) : Outcome Empty (BlockEngine σ) := do
  let dataLen := e.length
  let zeroes : Bytes := List.replicate (P.blockSize - P.lengthSize) 0
  let e := P.input processBlock e [0x80]
  let e := if zeroes.length < e.length % P.blockSize then P.input processBlock e zeroes else e
  .require (e.length % P.blockSize ≤ zeroes.length) .overflow
  let padLength := zeroes.length - e.length % P.blockSize
  let e := P.input processBlock e (zeroes.take padLength)
  .require (e.length % P.blockSize = zeroes.length) .assertion
  -- the product of two numbers of 64 bits
  .require (8 * dataLen < 2 ^ 64) .overflow
  let e := (P.lengthPieces (8 * dataLen)).foldl (P.input processBlock) e
  .require (e.length % P.blockSize = 0) .assertion
  return e

/-! ## The number of zeros -/

variable (P : Padding)

theorem blockSize_pos : 0 < P.blockSize := by
  have := P.pos
  have := P.le
  omega

/-- The zeros of the standard end where the length begins. -/
theorem zeros_mod (n : ℕ) : (n + 1 + P.zeros n) % P.blockSize = P.blockSize - P.lengthSize := by
  have hpos := P.pos
  have hle := P.le
  have hmod := Nat.mod_lt n P.blockSize_pos
  have hdiv := Nat.mod_add_div n P.blockSize
  have hsum : n + 1 + (2 * P.blockSize - P.lengthSize - 1 - n % P.blockSize) =
      P.blockSize - P.lengthSize + P.blockSize * (n / P.blockSize + 1) := by
    rw [Nat.mul_add, Nat.mul_one]
    omega
  rw [zeros, Nat.add_mod_mod, hsum, Nat.add_mul_mod_self_left, Nat.mod_eq_of_lt (by omega)]

variable {P}

/-- Any number of zeros that ends there is at least the standard's, and less than a block of them is just that. -/
theorem zeros_unique {n k : ℕ} (hk : k < P.blockSize) (h : (n + 1 + k) % P.blockSize = P.blockSize - P.lengthSize) :
    k = P.zeros n := by
  have hcong : Nat.ModEq P.blockSize (n + 1 + k) (n + 1 + P.zeros n) := h.trans (P.zeros_mod n).symm
  exact (Nat.ModEq.add_left_cancel' _ hcong).eq_of_lt_of_lt hk (Nat.mod_lt _ P.blockSize_pos)

/-- What is left up to a position in the block leads there. -/
theorem add_sub_mod {x t : ℕ} (ht : t < P.blockSize) (hx : x % P.blockSize ≤ t) :
    (x + (t - x % P.blockSize)) % P.blockSize = t := by
  rw [← Nat.mod_add_mod, Nat.add_sub_cancel' hx, Nat.mod_eq_of_lt ht]

/-- The zeros of an engine, in one piece or in two, are those of the standard. -/
theorem zeros_fed {y : Bytes} {n : ℕ} (hy : y.length = n + 1) :
    ∃ x, (if P.blockSize - P.lengthSize < (n + 1) % P.blockSize then
        y ++ List.replicate (P.blockSize - P.lengthSize) 0 else y) = x ∧
      x.length % P.blockSize ≤ P.blockSize - P.lengthSize ∧
      x ++ List.replicate (P.blockSize - P.lengthSize - x.length % P.blockSize) 0 =
        y ++ List.replicate (P.zeros n) 0 := by
  have hpos := P.pos
  have hle := P.le
  have hmod := Nat.mod_lt (n + 1) P.blockSize_pos
  have ht : P.blockSize - P.lengthSize < P.blockSize := by omega
  refine ⟨_, rfl, ?_⟩
  split_ifs with hlong
  · have hlen : (y ++ List.replicate (P.blockSize - P.lengthSize) (0 : UInt8)).length =
        n + 1 + (P.blockSize - P.lengthSize) := by rw [List.length_append, hy, List.length_replicate]
    have hnext : (n + 1 + (P.blockSize - P.lengthSize)) % P.blockSize =
        (n + 1) % P.blockSize - P.lengthSize := by
      have hsum : (n + 1) % P.blockSize + (P.blockSize - P.lengthSize) =
          P.blockSize + ((n + 1) % P.blockSize - P.lengthSize) := by omega
      rw [← Nat.mod_add_mod, hsum, Nat.add_mod_left, Nat.mod_eq_of_lt (by omega)]
    have hend := add_sub_mod ht (by omega : (n + 1 + (P.blockSize - P.lengthSize)) % P.blockSize ≤ _)
    rw [Nat.add_assoc (n + 1)] at hend
    rw [hlen, List.append_assoc, ← List.replicate_add, zeros_unique (by omega) hend]
    exact ⟨by omega, rfl⟩
  · have hend := add_sub_mod ht (by omega : (n + 1) % P.blockSize ≤ P.blockSize - P.lengthSize)
    rw [hy, zeros_unique (by omega) hend]
    exact ⟨by omega, rfl⟩

/-- A padded message is made of whole blocks. -/
theorem length_padded_mod (m : Bytes) : (P.padded m).length % P.blockSize = 0 := by
  have := P.le
  rw [padded, List.length_append, P.length_encodeLength, ← Nat.mod_add_mod, List.length_append, List.length_append,
    List.length_singleton, List.length_replicate, zeros_mod, Nat.sub_add_cancel (by omega), Nat.mod_self]

/-! ## The run -/

section Pad

variable {processBlock : σ → Bytes → σ} {e : BlockEngine σ}

theorem foldl_input (hbuf : e.buffer.length = P.blockSize) (pieces : List Bytes) :
    pieces.foldl (P.input processBlock) e = P.input processBlock e pieces.flatten :=
  BlockEngine.foldl_input processBlock P.blockSize_pos e pieces hbuf

/-- The engine is fed the padding of the standard, unless the length in bits does not fit. -/
theorem pad_input (hbuf : e.buffer.length = P.blockSize) (he : e.length = 0) (m : Bytes) :
    P.pad processBlock (P.input processBlock e m) =
      if m.length < 2 ^ 61 then .ok (P.input processBlock e (P.padded m)) else .panic .overflow := by
  have hblock := P.blockSize_pos
  have hlen (x : Bytes) : (P.input processBlock e x).length = x.length := by
    rw [BlockEngine.length_input processBlock hblock e x hbuf, he, Nat.zero_add]
  have happend (x y : Bytes) : P.input processBlock (P.input processBlock e x) y =
      P.input processBlock e (x ++ y) := (BlockEngine.input_append hblock e x y hbuf).symm
  have hmark : (m ++ [0x80]).length = m.length + 1 := by simp
  obtain ⟨x, hx, hmod, hzeros⟩ := zeros_fed (P := P) hmark
  have hfed : (if P.blockSize - P.lengthSize < (m.length + 1) % P.blockSize then
        P.input processBlock e (m ++ [0x80] ++ List.replicate (P.blockSize - P.lengthSize) 0)
      else P.input processBlock e (m ++ [0x80])) = P.input processBlock e x := by
    rw [← hx, apply_ite (P.input processBlock e)]
  have hend : (m ++ [0x80] ++ List.replicate (P.zeros m.length) 0).length % P.blockSize =
      P.blockSize - P.lengthSize := by
    rw [List.length_append, hmark, List.length_replicate, zeros_mod]
  have htake : (List.replicate (P.blockSize - P.lengthSize) (0 : UInt8)).take
      (P.blockSize - P.lengthSize - x.length % P.blockSize) =
        List.replicate (P.blockSize - P.lengthSize - x.length % P.blockSize) 0 := by
    rw [List.take_replicate, Nat.min_eq_left (Nat.sub_le _ _)]
  simp only [pad, List.length_replicate, happend, hlen, hmark, hfed, Outcome.require_of hmod, Outcome.ok_bind, htake,
    hzeros, Outcome.require_of hend]
  split_ifs with hfit
  · have hbits : 8 * m.length < 2 ^ 64 := by omega
    have hbuf' : (BlockEngine.input P.blockSize processBlock e
        (m ++ [0x80] ++ List.replicate (P.zeros m.length) 0)).buffer.length = P.blockSize :=
      BlockEngine.length_buffer_input hblock e _ hbuf
    have hwhole := length_padded_mod (P := P) m
    rw [Outcome.require_of hbits, Outcome.ok_bind, foldl_input hbuf', happend, P.flatten_lengthPieces _ hbits]
    rw [padded] at hwhole ⊢
    rw [hlen, Outcome.require_of hwhole]
    rfl
  · rw [Outcome.require, if_neg (by omega)]
    rfl

/-- The state over the blocks of the padded message, one after the other. -/
def iterated (P : Padding) (processBlock : σ → Bytes → σ) (h : σ) (m : Bytes) : σ :=
  (blocks P.blockSize (P.padded m)).foldl processBlock h

/-- What is made of the state after any pieces is made of the blocks of the padded message. -/
theorem map_pad_pieces {τ : Type} {digest : BlockEngine σ → τ}
    (hdigest : ∀ e e', e.h = e'.h → digest e = digest e') (hbuf : e.buffer.length = P.blockSize)
    (he : e.length = 0) (pieces : List Bytes) :
    digest <$> P.pad processBlock (pieces.foldl (P.input processBlock) e) =
      if pieces.flatten.length < 2 ^ 61 then .ok (digest ⟨P.iterated processBlock e.h pieces.flatten, 0, []⟩)
      else .panic .overflow := by
  have hblock := P.blockSize_pos
  rw [foldl_input hbuf, pad_input hbuf he]
  split_ifs
  · have hstate := BlockEngine.input_blocks processBlock hblock e (P.padded pieces.flatten) hbuf
      (by rw [he, Nat.zero_mod]) (length_padded_mod _)
    rw [Outcome.map_ok]
    exact congrArg _ (hdigest _ _ hstate)
  · rfl

end Pad

/-! ## The hashes -/

/-- A number that needs fewer bytes has zeros in front. -/
theorem beBytes_add_of_lt {j n : ℕ} (k : ℕ) (h : n < 256 ^ j) :
    beBytes (j + k) n = List.replicate k 0 ++ beBytes j n := by
  have hle : leBytes (j + k) n = leBytes j n ++ List.replicate k 0 := by
    induction k with
    | zero => simp
    | succ k ih =>
      have hbig : n / 256 ^ (j + k) = 0 :=
        Nat.div_eq_of_lt (h.trans_le (Nat.pow_le_pow_right (by decide) (Nat.le_add_right j k)))
      rw [← Nat.add_assoc, leBytes_succ_eq_append, ih, hbig, List.replicate_succ', List.append_assoc]
      rfl
  rw [beBytes, hle, List.reverse_append, List.reverse_replicate, beBytes]

/-- The length on eight bytes, the least significant first. -/
def le64 : Padding where
  blockSize := 64
  lengthSize := 8
  encodeLength := leBytes 8
  lengthPieces n := [leBytes 8 n]
  pos := Nat.zero_lt_succ 7
  le := by decide
  length_encodeLength := length_leBytes 8
  flatten_lengthPieces _ _ := List.append_nil _

/-- The length on eight bytes, the most significant first. -/
def be64 : Padding where
  blockSize := 64
  lengthSize := 8
  encodeLength := beBytes 8
  lengthPieces n := [beBytes 8 n]
  pos := Nat.zero_lt_succ 7
  le := by decide
  length_encodeLength := length_beBytes 8
  flatten_lengthPieces _ _ := List.append_nil _

/-- The length on sixteen bytes, in two pieces, the first of which is zero. -/
def be128 : Padding where
  blockSize := 128
  lengthSize := 16
  encodeLength := beBytes 16
  lengthPieces n := [List.replicate 8 0, beBytes 8 n]
  pos := by decide
  le := by decide
  length_encodeLength := length_beBytes 16
  flatten_lengthPieces n h := by
    rw [beBytes_add_of_lt 8 (show n < 256 ^ 8 from h), List.flatten_cons, List.flatten_singleton]

end Padding

namespace Ripemd160

/-- `from_engine` with its overflow checks and assertions. -/
def fromEngineChecked (e : HashEngine) : Outcome Empty (U8Array 20) :=
  HashEngine.midstate <$> Padding.le64.pad processBlock e

/-- The hash over the blocks of the padded message. -/
def ripemd160 (m : Bytes) : U8Array 20 :=
  HashEngine.midstate ⟨Padding.le64.iterated processBlock HashEngine.default.h m, 0, []⟩

theorem fromEngineChecked_pieces (pieces : List Bytes) :
    fromEngineChecked (pieces.foldl HashEngine.input .default) =
      if pieces.flatten.length < 2 ^ 61 then .ok (ripemd160 pieces.flatten) else .panic .overflow :=
  Padding.map_pad_pieces (P := .le64) (fun _ _ h => by simp only [HashEngine.midstate, h])
    List.length_replicate rfl pieces

theorem fromEngine_of_checked {e : HashEngine} {d : U8Array 20} (h : fromEngineChecked e = .ok d) :
    fromEngine e = d := by
  simp only [fromEngineChecked, Padding.pad, Outcome.map_eq_ok_iff, Outcome.require_bind_eq_ok_iff,
    Outcome.pure_eq_ok, Outcome.ok.injEq] at h
  obtain ⟨_, ⟨-, -, -, -, rfl⟩, rfl⟩ := h
  simp only [fromEngine, HashEngine.input, Padding.input, Padding.le64, List.foldl_cons, List.foldl_nil, BLOCK_SIZE]
  rfl

end Ripemd160

namespace Sha1

/-- `from_engine` with its overflow checks and assertions. -/
def fromEngineChecked (e : HashEngine) : Outcome Empty (U8Array 20) :=
  HashEngine.midstate <$> Padding.be64.pad processBlock e

/-- The hash over the blocks of the padded message. -/
def sha1 (m : Bytes) : U8Array 20 :=
  HashEngine.midstate ⟨Padding.be64.iterated processBlock HashEngine.default.h m, 0, []⟩

theorem fromEngineChecked_pieces (pieces : List Bytes) :
    fromEngineChecked (pieces.foldl HashEngine.input .default) =
      if pieces.flatten.length < 2 ^ 61 then .ok (sha1 pieces.flatten) else .panic .overflow :=
  Padding.map_pad_pieces (P := .be64) (fun _ _ h => by simp only [HashEngine.midstate, h])
    List.length_replicate rfl pieces

example : (sha1 []).toList =
    [0xda, 0x39, 0xa3, 0xee, 0x5e, 0x6b, 0x4b, 0x0d, 0x32, 0x55, 0xbf, 0xef, 0x95, 0x60, 0x18, 0x90, 0xaf, 0xd8,
      0x07, 0x09] := by decide +kernel

end Sha1

namespace Sha256

/-- `from_engine` with its overflow checks and assertions. -/
def fromEngineChecked (e : HashEngine) : Outcome Empty (U8Array 32) :=
  HashEngine.midstate <$> Padding.be64.pad processBlock e

theorem fromEngineChecked_pieces (pieces : List Bytes) :
    fromEngineChecked (pieces.foldl HashEngine.input .default) =
      if pieces.flatten.length < 2 ^ 61 then .ok (sha256 pieces.flatten) else .panic .overflow :=
  Padding.map_pad_pieces (P := .be64) (fun _ _ h => by simp only [HashEngine.midstate, h])
    List.length_replicate rfl pieces

end Sha256

namespace Sha512

/-- `from_engine` with its overflow checks and assertions. -/
def fromEngineChecked (e : HashEngine) : Outcome Empty (U8Array 64) :=
  HashEngine.midstate <$> Padding.be128.pad processBlock e

/-- The hash over the blocks of the padded message. -/
def sha512 (m : Bytes) : U8Array 64 :=
  HashEngine.midstate ⟨Padding.be128.iterated processBlock HashEngine.default.h m, 0, []⟩

theorem fromEngineChecked_pieces (pieces : List Bytes) :
    fromEngineChecked (pieces.foldl HashEngine.input .default) =
      if pieces.flatten.length < 2 ^ 61 then .ok (sha512 pieces.flatten) else .panic .overflow :=
  Padding.map_pad_pieces (P := .be128) (fun _ _ h => by simp only [HashEngine.midstate, h])
    List.length_replicate rfl pieces

theorem fromEngine_of_checked {e : HashEngine} {d : U8Array 64} (h : fromEngineChecked e = .ok d) :
    fromEngine e = d := by
  simp only [fromEngineChecked, Padding.pad, Outcome.map_eq_ok_iff, Outcome.require_bind_eq_ok_iff,
    Outcome.pure_eq_ok, Outcome.ok.injEq] at h
  obtain ⟨_, ⟨-, -, -, -, rfl⟩, rfl⟩ := h
  simp only [fromEngine, HashEngine.input, Padding.input, Padding.be128, List.foldl_cons, List.foldl_nil, BLOCK_SIZE]
  rfl

end Sha512

end RustDogecoin
