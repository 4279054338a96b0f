import Mathlib.Data.List.Induction
import RustDogecoin.Hashes.Sha256

/-!
# Tagged SHA256

`hashes/sha256t.rs`: the engine of a tagged hash starts from a midstate that `Midstate::hash_tag`
computes at compile time.  `taggedHash` is what the tag is for: the hash of the message behind two
copies of the hash of the tag.  The two agree (`fromEngine_engine`) because an engine only depends on
the bytes it has taken in, not on how they were cut into pieces, and not on what its buffer holds
behind the bytes of the open block.
-/

namespace RustDogecoin

namespace BlockEngine

variable {σ : Type} {blockSize : ℕ} {processBlock : σ → Bytes → σ}

/-! ## Engines byte by byte -/

/-- One byte more. -/
def inputByte (blockSize : ℕ) (processBlock : σ → Bytes → σ) (e : BlockEngine σ) (b : UInt8) :
    BlockEngine σ :=
  let buffer := overwrite e.buffer (e.length % blockSize) [b]
  let length := e.length + 1
  ⟨if length % blockSize = 0 then processBlock e.h buffer else e.h, length, buffer⟩

theorem overwrite_overwrite (buf : Bytes) (i : ℕ) (piece : Bytes) (b : UInt8)
    (h : i + piece.length < buf.length) :
    overwrite (overwrite buf i piece) (i + piece.length) [b] = overwrite buf i (piece ++ [b]) := by
  have hi : (buf.take i).length = i := by simp; omega
  have hpre : (buf.take i ++ piece).length = i + piece.length := by simp [hi]
  obtain ⟨c, post, hpost⟩ : ∃ c post, buf.drop (i + piece.length) = c :: post := by
    cases hd : buf.drop (i + piece.length) with
    | nil => simp at hd; omega
    | cons c post => exact ⟨c, post, rfl⟩
  have hafter : buf.drop (i + (piece ++ [b]).length) = post := by
    have hdrop : buf.drop (i + piece.length + 1) = (buf.drop (i + piece.length)).drop 1 := by
      rw [List.drop_drop]
    simpa [Nat.add_assoc, hpost] using hdrop
  calc overwrite (overwrite buf i piece) (i + piece.length) [b]
      = overwrite ((buf.take i ++ piece) ++ [c] ++ post) (buf.take i ++ piece).length [b] := by
        simp [overwrite, hpost, hpre]
    _ = buf.take i ++ piece ++ [b] ++ post := overwrite_append _ _ _ _ rfl
    _ = overwrite buf i (piece ++ [b]) := by
        unfold overwrite
        rw [hafter]
        simp

/-- A piece that ends inside the open block only fills the buffer. -/
theorem foldl_inputByte_of_lt (e : BlockEngine σ) (piece : Bytes)
    (hbuf : e.buffer.length = blockSize)
    (h : e.length % blockSize + piece.length < blockSize) :
    piece.foldl (inputByte blockSize processBlock) e =
      ⟨e.h, e.length + piece.length, overwrite e.buffer (e.length % blockSize) piece⟩ := by
  induction piece using List.reverseRecOn with
  | nil => simp [overwrite]
  | append_singleton piece b ih =>
    rw [List.length_append, List.length_singleton] at h
    have hmod : (e.length + piece.length) % blockSize = e.length % blockSize + piece.length := by
      rw [Nat.add_mod, Nat.mod_eq_of_lt (show piece.length < blockSize by omega)]
      exact Nat.mod_eq_of_lt (by omega)
    have hopen : ¬(e.length + piece.length + 1) % blockSize = 0 := by
      rw [Nat.add_mod, hmod, Nat.mod_eq_of_lt (show 1 < blockSize by omega),
        Nat.mod_eq_of_lt (by omega)]
      omega
    rw [List.foldl_append, List.foldl_cons, List.foldl_nil, ih (by omega), inputByte]
    simp only [hmod, if_neg hopen, mk.injEq, true_and]
    refine ⟨by simp [Nat.add_assoc], overwrite_overwrite _ _ _ _ (by omega)⟩

/-- A piece that ends with the open block has it processed. -/
theorem foldl_inputByte_of_eq (e : BlockEngine σ) (piece : Bytes) (hpos : piece ≠ [])
    (hbuf : e.buffer.length = blockSize)
    (h : e.length % blockSize + piece.length = blockSize) :
    piece.foldl (inputByte blockSize processBlock) e =
      ⟨processBlock e.h (overwrite e.buffer (e.length % blockSize) piece), e.length + piece.length,
        overwrite e.buffer (e.length % blockSize) piece⟩ := by
  obtain ⟨front, b, rfl⟩ : ∃ front b, piece = front ++ [b] :=
    ⟨piece.dropLast, piece.getLast hpos, (List.dropLast_concat_getLast hpos).symm⟩
  rw [List.length_append, List.length_singleton] at h
  have hmod : (e.length + front.length) % blockSize = e.length % blockSize + front.length := by
    rw [Nat.add_mod, Nat.mod_eq_of_lt (show front.length < blockSize by omega)]
    exact Nat.mod_eq_of_lt (by omega)
  have hfull : (e.length + front.length + 1) % blockSize = 0 := by
    rw [← Nat.mod_add_mod, hmod, Nat.add_assoc, h, Nat.mod_self]
  rw [List.foldl_append, List.foldl_cons, List.foldl_nil, foldl_inputByte_of_lt e front hbuf (by omega), inputByte]
  simp only [hmod, if_pos hfull, mk.injEq]
  have hover := overwrite_overwrite e.buffer (e.length % blockSize) front b (by omega)
  exact ⟨by rw [hover], by simp [Nat.add_assoc], hover⟩

theorem length_buffer_inputByte (processBlock : σ → Bytes → σ) (e : BlockEngine σ) (b : UInt8) (hpos : 0 < blockSize)
    (hbuf : e.buffer.length = blockSize) :
    (inputByte blockSize processBlock e b).buffer.length = blockSize := by
  have := Nat.mod_lt e.length hpos
  simp [inputByte, overwrite]
  omega

theorem length_buffer_foldl (processBlock : σ → Bytes → σ) (e : BlockEngine σ) (inp : Bytes) (hpos : 0 < blockSize)
    (hbuf : e.buffer.length = blockSize) :
    (inp.foldl (inputByte blockSize processBlock) e).buffer.length = blockSize := by
  induction inp generalizing e with
  | nil => exact hbuf
  | cons b inp ih => exact ih _ (length_buffer_inputByte processBlock e b hpos hbuf)

theorem inputLoop_eq_foldl (hpos : 0 < blockSize) (fuel : ℕ) (e : BlockEngine σ) (inp : Bytes)
    (hbuf : e.buffer.length = blockSize) (hf : inp.length ≤ fuel) :
    inputLoop blockSize processBlock fuel e inp = inp.foldl (inputByte blockSize processBlock) e := by
  induction fuel generalizing e inp with
  | zero =>
    rw [List.length_eq_zero_iff.1 (Nat.le_zero.1 hf)]
    rfl
  | succ fuel ih =>
    cases inp with
    | nil => rfl
    | cons b bs =>
      have hidx := Nat.mod_lt e.length hpos
      set n := min (blockSize - e.length % blockSize) (b :: bs).length with hn
      have hlen : ((b :: bs).take n).length = n := by
        rw [List.length_take]
        omega
      have hne : (b :: bs).take n ≠ [] := by
        intro h
        rw [h, List.length_nil] at hlen
        simp only [List.length_cons] at hn
        omega
      -- the turn takes in what is left of the block, or of the input
      have hturn : ((b :: bs).take n).foldl (inputByte blockSize processBlock) e =
          ⟨if (e.length + n) % blockSize = 0 then
              processBlock e.h (overwrite e.buffer (e.length % blockSize) ((b :: bs).take n))
            else e.h, e.length + n,
            overwrite e.buffer (e.length % blockSize) ((b :: bs).take n)⟩ := by
        by_cases hfull : e.length % blockSize + n = blockSize
        · have hzero : (e.length + n) % blockSize = 0 := by
            rw [← Nat.mod_add_mod, hfull, Nat.mod_self]
          rw [foldl_inputByte_of_eq e _ hne hbuf (by omega), hlen, if_pos hzero]
        · have hlt : e.length % blockSize + n < blockSize := by omega
          have hopen : ¬(e.length + n) % blockSize = 0 := by
            rw [← Nat.mod_add_mod, Nat.mod_eq_of_lt hlt]
            have : 0 < n := by rw [← hlen]; exact List.length_pos_iff.2 hne
            omega
          rw [foldl_inputByte_of_lt e _ hbuf (by omega), hlen, if_neg hopen]
      have hbuf' := length_buffer_foldl processBlock e ((b :: bs).take n) hpos hbuf
      rw [inputLoop]
      simp only [← hn]
      rw [← hturn, ih _ _ hbuf' (by rw [List.length_drop]; simp only [List.length_cons] at hn hf ⊢; omega),
        ← List.foldl_append, List.take_append_drop]

theorem input_eq_foldl (hpos : 0 < blockSize) (e : BlockEngine σ) (inp : Bytes)
    (hbuf : e.buffer.length = blockSize) :
    input blockSize processBlock e inp = inp.foldl (inputByte blockSize processBlock) e :=
  inputLoop_eq_foldl hpos _ e inp hbuf le_rfl

theorem length_buffer_input (hpos : 0 < blockSize) (e : BlockEngine σ) (inp : Bytes)
    (hbuf : e.buffer.length = blockSize) :
    (input blockSize processBlock e inp).buffer.length = blockSize := by
  rw [input_eq_foldl hpos e inp hbuf]
  exact length_buffer_foldl processBlock e inp hpos hbuf

theorem length_input (processBlock : σ → Bytes → σ) (hpos : 0 < blockSize) (e : BlockEngine σ)
    (inp : Bytes) (hbuf : e.buffer.length = blockSize) :
    (input blockSize processBlock e inp).length = e.length + inp.length := by
  rw [input_eq_foldl hpos e inp hbuf]
  clear hbuf
  induction inp generalizing e with
  | nil => rfl
  | cons b inp ih =>
    rw [List.foldl_cons, ih, List.length_cons]
    simp only [inputByte]
    omega

theorem input_append (hpos : 0 < blockSize) (e : BlockEngine σ) (xs ys : Bytes)
    (hbuf : e.buffer.length = blockSize) :
    input blockSize processBlock e (xs ++ ys) =
      input blockSize processBlock (input blockSize processBlock e xs) ys := by
  rw [input_eq_foldl hpos _ ys (length_buffer_input hpos e xs hbuf), input_eq_foldl hpos e xs hbuf,
    input_eq_foldl hpos e _ hbuf, List.foldl_append]

/-! ## What an engine depends on -/

/-- Two engines that differ at most in the part of the buffer behind the open block. -/
structure Alike (blockSize : ℕ) (e e' : BlockEngine σ) : Prop where
  h_eq : e.h = e'.h
  length_eq : e.length = e'.length
  length_buffer : e.buffer.length = blockSize
  length_buffer' : e'.buffer.length = blockSize
  buffer_eq : e.buffer.take (e.length % blockSize) = e'.buffer.take (e.length % blockSize)

theorem Alike.inputByte (hpos : 0 < blockSize) {e e' : BlockEngine σ} (h : Alike blockSize e e')
    (b : UInt8) :
    Alike blockSize (inputByte blockSize processBlock e b) (inputByte blockSize processBlock e' b) := by
  obtain ⟨hh, hlen, hbuf, hbuf', hopen⟩ := h
  have hidx := Nat.mod_lt e.length hpos
  -- the two buffers agree up to the new byte
  have htake : ∀ buf : Bytes, buf.length = blockSize →
      (overwrite buf (e.length % blockSize) [b]).take (e.length % blockSize + 1) =
        buf.take (e.length % blockSize) ++ [b] := by
    intro buf hb
    have hpre : (buf.take (e.length % blockSize) ++ [b]).length = e.length % blockSize + 1 := by
      simp
      omega
    rw [overwrite, ← hpre, List.take_left]
  have heq : (overwrite e.buffer (e.length % blockSize) [b]).take (e.length % blockSize + 1) =
      (overwrite e'.buffer (e.length % blockSize) [b]).take (e.length % blockSize + 1) := by
    rw [htake _ hbuf, htake _ hbuf', hopen]
  have hnext : (e.length + 1) % blockSize = 0 ∧ e.length % blockSize + 1 = blockSize ∨
      (e.length + 1) % blockSize = e.length % blockSize + 1 := by
    rcases Nat.lt_or_ge (e.length % blockSize + 1) blockSize with hlt | hge
    · right
      rw [← Nat.mod_add_mod, Nat.mod_eq_of_lt hlt]
    · left
      have hfull : e.length % blockSize + 1 = blockSize := by omega
      rw [← Nat.mod_add_mod, hfull, Nat.mod_self]
      exact ⟨rfl, rfl⟩
  refine ⟨?_, by simp [BlockEngine.inputByte, hlen], length_buffer_inputByte _ e b hpos hbuf,
    length_buffer_inputByte _ e' b hpos hbuf', ?_⟩
  · simp only [BlockEngine.inputByte, ← hh, ← hlen]
    split_ifs with hfull
    · -- a full block is the same in both
      have hsize : e.length % blockSize + 1 = blockSize := by
        rcases hnext with ⟨-, hs⟩ | hs
        · exact hs
        · omega
      have hl := length_buffer_inputByte processBlock e b hpos hbuf
      have hl' := length_buffer_inputByte processBlock e' b hpos hbuf'
      simp only [BlockEngine.inputByte, ← hlen] at hl hl'
      rw [hsize, List.take_of_length_le hl.le, List.take_of_length_le hl'.le] at heq
      rw [heq]
    · rfl
  · simp only [BlockEngine.inputByte, ← hlen]
    rcases hnext with ⟨hz, -⟩ | hs
    · rw [hz, List.take_zero, List.take_zero]
    · rw [hs, heq]

theorem Alike.input (hpos : 0 < blockSize) {e e' : BlockEngine σ} (h : Alike blockSize e e')
    (inp : Bytes) :
    Alike blockSize (input blockSize processBlock e inp) (input blockSize processBlock e' inp) := by
  rw [input_eq_foldl hpos e inp h.length_buffer, input_eq_foldl hpos e' inp h.length_buffer']
  induction inp generalizing e e' with
  | nil => exact h
  | cons b inp ih => exact ih (h.inputByte hpos b)

end BlockEngine

namespace Sha256

/-! ## Midstates -/

/-- The block of number `chunk` that `Midstate::const_hash` processes: bytes of the message, or its
end with the padding. -/
def constBlock (bytes : Bytes) (numChunks chunk : ℕ) : Bytes :=
  if chunk * 64 + 64 ≤ bytes.length then (bytes.drop (chunk * 64)).take 64
  else
    let tail := bytes.drop (chunk * 64)
    let buf := overwrite (List.replicate 64 0) 0 tail
    let buf :=
      if bytes.length % 64 ≤ 64 - 9 ∨ chunk + 2 = numChunks then overwrite buf tail.length [0x80]
      else buf
    if chunk + 1 = numChunks then overwrite buf (64 - 8) (beBytes 8 (bytes.length * 8)) else buf

/-- `Midstate::const_hash`.  Without `finalize` the last block is left out. -/
def constHash (bytes : Bytes) (finalize : Bool) : U8Array 32 :=
  let numChunks := (bytes.length + 9 + 63) / 64
  let chunks := if finalize then numChunks else numChunks - 1
  let h := (List.range chunks).foldl
    (fun h chunk => processBlock h (constBlock bytes numChunks chunk)) HashEngine.default.h
  HashEngine.midstate ⟨h, 0, []⟩

/-- `Midstate::hash_tag`. -/
def hashTag (tag : Bytes) : U8Array 32 :=
  let hash := (constHash tag true).toList
  constHash (hash ++ hash) false

/-- The state with the given words. -/
def State.ofWords (w : List UInt32) : State :=
  ⟨w.getD 0 0, w.getD 1 0, w.getD 2 0, w.getD 3 0, w.getD 4 0, w.getD 5 0, w.getD 6 0, w.getD 7 0⟩

/-- `HashEngine::from_midstate`, for the lengths that pass its assertion: multiples of the block
size. -/
def HashEngine.fromMidstate (midstate : U8Array 32) (length : ℕ) : HashEngine :=
  ⟨.ofWords (readWords midstate.toList), length, List.replicate BLOCK_SIZE 0⟩

theorem readWords_beBytes (w : UInt32) (bs : Bytes) :
    readWords (beBytes 4 w.toNat ++ bs) = w :: readWords bs := by
  have hlen := length_beBytes 4 w.toNat
  have hval := beNat_beBytes_of_lt (n := 4) (v := w.toNat) w.toNat_lt
  match beBytes 4 w.toNat, hlen, hval with
  | [b₀, b₁, b₂, b₃], _, hval => simp [readWords, hval]

theorem readWords_midstate (e : HashEngine) : readWords (HashEngine.midstate e).toList = e.h.words := by
  have h : ∀ ws : List UInt32, readWords (ws.flatMap fun w => beBytes 4 w.toNat) = ws := by
    intro ws
    induction ws with
    | nil => rfl
    | cons w ws ih => rw [List.flatMap_cons, readWords_beBytes, ih]
  exact h _

theorem HashEngine.fromMidstate_alike (e : HashEngine) (hbuf : e.buffer.length = BLOCK_SIZE)
    (hlen : e.length % BLOCK_SIZE = 0) :
    BlockEngine.Alike BLOCK_SIZE (fromMidstate (midstate e) e.length) e where
  h_eq := by rw [fromMidstate, readWords_midstate]; rfl
  length_eq := rfl
  length_buffer := by simp [fromMidstate]
  length_buffer' := hbuf
  buffer_eq := by simp [fromMidstate, hlen]

theorem input_append (e : HashEngine) (xs ys : Bytes) (hbuf : e.buffer.length = BLOCK_SIZE) :
    HashEngine.input e (xs ++ ys) = HashEngine.input (HashEngine.input e xs) ys :=
  BlockEngine.input_append (by decide) e xs ys hbuf

/-- The digest does not depend on what the buffer holds behind the open block. -/
theorem fromEngine_congr {e e' : HashEngine} (h : BlockEngine.Alike BLOCK_SIZE e e') :
    fromEngine e = fromEngine e' := by
  have hpos : 0 < BLOCK_SIZE := by decide
  have hinput : ∀ {e e' : HashEngine}, BlockEngine.Alike BLOCK_SIZE e e' → ∀ inp,
      BlockEngine.Alike BLOCK_SIZE (HashEngine.input e inp) (HashEngine.input e' inp) :=
    fun h inp => h.input hpos inp
  have hmid : ∀ {e e' : HashEngine}, BlockEngine.Alike BLOCK_SIZE e e' →
      HashEngine.midstate e = HashEngine.midstate e' := by
    intro e e' h
    simp only [HashEngine.midstate, h.h_eq]
  have h₁ := hinput h [0x80]
  simp only [fromEngine, ← h.length_eq, ← h₁.length_eq]
  apply hmid
  split_ifs
  · have h₂ := hinput h₁ (List.replicate (BLOCK_SIZE - 8) 0)
    rw [← h₂.length_eq]
    exact hinput (hinput h₂ _) _
  · rw [← h₁.length_eq]
    exact hinput (hinput h₁ _) _

end Sha256

namespace Sha256t

open Sha256

/-! ## Tagged hashes -/

/-- The hash of a message under a tag. -/
def taggedHash (tag message : Bytes) : U8Array 32 :=
  Sha256.hash ((Sha256.hash tag).toList ++ (Sha256.hash tag).toList ++ message)

/-- `Tag::engine`. -/
def engine (tag : Bytes) : HashEngine := HashEngine.fromMidstate (hashTag tag) 64

/-- The engine of a tag hashes what the tag asks for, whenever `hash_tag` has computed the state of
an engine that took in the hash of the tag twice. -/
theorem fromEngine_engine (tag message : Bytes)
    (htag : hashTag tag = HashEngine.midstate
      (HashEngine.input .default ((Sha256.hash tag).toList ++ (Sha256.hash tag).toList))) :
    fromEngine (HashEngine.input (engine tag) message) = taggedHash tag message := by
  have hpos : 0 < BLOCK_SIZE := by decide
  set twice := (Sha256.hash tag).toList ++ (Sha256.hash tag).toList with htwice
  have hbuf : (HashEngine.input .default twice).buffer.length = BLOCK_SIZE :=
    BlockEngine.length_buffer_input hpos _ _ (by decide)
  have hlen : (HashEngine.input .default twice).length = 64 := by
    calc (HashEngine.input .default twice).length
        = HashEngine.default.length + twice.length :=
          BlockEngine.length_input processBlock hpos HashEngine.default twice (by decide)
      _ = 64 := by rw [htwice, List.length_append, (Sha256.hash tag).length_eq]; rfl
  have halike := HashEngine.fromMidstate_alike (HashEngine.input .default twice) hbuf (by rw [hlen]; rfl)
  rw [hlen, ← htag] at halike
  calc fromEngine (HashEngine.input (engine tag) message)
      = fromEngine (HashEngine.input (HashEngine.input .default twice) message) :=
        fromEngine_congr (halike.input hpos message)
    _ = taggedHash tag message := by
        rw [taggedHash, ← htwice, Sha256.hash, input_append _ twice message (by decide)]

end Sha256t

end RustDogecoin
