import RustDogecoin.Consensus.Encode

/-!
# SHA256 and SHA256d

The engine of `hashes/sha256.rs`: a state of eight words, the number of bytes taken in and a buffer
of one block.  `input` is `engine_input_impl!`, `fromEngine` pads, and the compression function is
`software_process_block`.  `Sha256d.hash` is the double hash that every identifier and every Merkle
node of the chain is made with.
-/

namespace RustDogecoin

/-- A hash engine with state `σ` and a buffer of one block. -/
structure BlockEngine (σ : Type) where
  h : σ
  length : ℕ
  buffer : Bytes

namespace BlockEngine

variable {σ : Type}

/-- The loop of `engine_input_impl!`; every turn takes at least one byte off the input. -/
def inputLoop (blockSize : ℕ) (processBlock : σ → Bytes → σ) :
    ℕ → BlockEngine σ → Bytes → BlockEngine σ
  | 0, e, _ => e
  | _ + 1, e, [] => e
  | fuel + 1, e, inp@(_ :: _) =>
    let bufIdx := e.length % blockSize
    let writeLen := min (blockSize - bufIdx) inp.length
    let buffer := overwrite e.buffer bufIdx (inp.take writeLen)
    let length := e.length + writeLen
    let h := if length % blockSize = 0 then processBlock e.h buffer else e.h
    inputLoop blockSize processBlock fuel ⟨h, length, buffer⟩ (inp.drop writeLen)

/-- `HashEngine::input`. -/
def input (blockSize : ℕ) (processBlock : σ → Bytes → σ) (e : BlockEngine σ) (inp : Bytes) :
    BlockEngine σ :=
  inputLoop blockSize processBlock inp.length e inp

end BlockEngine

/-- `u32::rotate_left`. -/
def rotateLeft (x n : UInt32) : UInt32 := (x <<< n) ||| (x >>> (32 - n))

namespace Sha256

def BLOCK_SIZE : ℕ := 64

/-- The eight words of the state. -/
structure State where
  a : UInt32
  b : UInt32
  c : UInt32
  d : UInt32
  e : UInt32
  f : UInt32
  g : UInt32
  h : UInt32
  deriving DecidableEq, Repr

def State.words (s : State) : List UInt32 := [s.a, s.b, s.c, s.d, s.e, s.f, s.g, s.h]

def State.wrappingAdd (s t : State) : State :=
  ⟨s.a + t.a, s.b + t.b, s.c + t.c, s.d + t.d, s.e + t.e, s.f + t.f, s.g + t.g, s.h + t.h⟩

def Ch (x y z : UInt32) : UInt32 := z ^^^ (x &&& (y ^^^ z))

def Maj (x y z : UInt32) : UInt32 := (x &&& y) ||| (z &&& (x ||| y))

def Sigma0 (x : UInt32) : UInt32 := rotateLeft x 30 ^^^ rotateLeft x 19 ^^^ rotateLeft x 10

def Sigma1 (x : UInt32) : UInt32 := rotateLeft x 26 ^^^ rotateLeft x 21 ^^^ rotateLeft x 7

def sigma0 (x : UInt32) : UInt32 := rotateLeft x 25 ^^^ rotateLeft x 14 ^^^ (x >>> 3)

def sigma1 (x : UInt32) : UInt32 := rotateLeft x 15 ^^^ rotateLeft x 13 ^^^ (x >>> 10)

/-- The constants of the first sixteen rounds. -/
def firstConstants : List UInt32 :=
  [0x428a2f98, 0x71374491, 0xb5c0fbcf, 0xe9b5dba5, 0x3956c25b, 0x59f111f1, 0x923f82a4, 0xab1c5ed5,
   0xd807aa98, 0x12835b01, 0x243185be, 0x550c7dc3, 0x72be5d74, 0x80deb1fe, 0x9bdc06a7, 0xc19bf174]

/-- The constants of the later rounds. -/
def laterConstants : List UInt32 :=
  [0xe49b69c1, 0xefbe4786, 0x0fc19dc6, 0x240ca1cc, 0x2de92c6f, 0x4a7484aa, 0x5cb0a9dc, 0x76f988da,
   0x983e5152, 0xa831c66d, 0xb00327c8, 0xbf597fc7, 0xc6e00bf3, 0xd5a79147, 0x06ca6351, 0x14292967,
   0x27b70a85, 0x2e1b2138, 0x4d2c6dfc, 0x53380d13, 0x650a7354, 0x766a0abb, 0x81c2c92e, 0x92722c85,
   0xa2bfe8a1, 0xa81a664b, 0xc24b8b70, 0xc76c51a3, 0xd192e819, 0xd6990624, 0xf40e3585, 0x106aa070,
   0x19a4c116, 0x1e376c08, 0x2748774c, 0x34b0bcb5, 0x391c0cb3, 0x4ed8aa4a, 0x5b9cca4f, 0x682e6ff3,
   0x748f82ee, 0x78a5636f, 0x84c87814, 0x8cc70208, 0x90befffa, 0xa4506ceb, 0xbef9a3f7, 0xc67178f2]

/-- `round!`.  The source renames its eight variables from one round to the next; here the state
is turned instead, and sixty-four rounds bring it back to its place. -/
def round (s : State) (k w : UInt32) : State :=
  let t1 := s.h + Sigma1 s.e + Ch s.e s.f s.g + k + w
  let t2 := Sigma0 s.a + Maj s.a s.b s.c
  ⟨t1 + t2, s.a, s.b, s.c, s.d + t1, s.e, s.f, s.g⟩

def firstRounds : State → List UInt32 → List UInt32 → State
  | s, k :: ks, w :: ws => firstRounds (round s k w) ks ws
  | s, _, _ => s

/-- The later rounds replace the oldest of the last sixteen words before they use it. -/
def laterRounds : State → List UInt32 → List UInt32 → State
  | s, k :: ks, w =>
    let w' := w.getD 0 0 + sigma1 (w.getD 14 0) + w.getD 9 0 + sigma0 (w.getD 1 0)
    laterRounds (round s k w') ks (w.tail ++ [w'])
  | s, [], _ => s

/-- The big-endian words of a block. -/
def readWords : Bytes → List UInt32
  | b₀ :: b₁ :: b₂ :: b₃ :: bs => UInt32.ofNat (beNat [b₀, b₁, b₂, b₃]) :: readWords bs
  | _ => []

/-- `software_process_block`. -/
def processBlock (h : State) (block : Bytes) : State :=
  let w := readWords block
  h.wrappingAdd (laterRounds (firstRounds h firstConstants w) laterConstants w)

abbrev HashEngine := BlockEngine State

/-- `HashEngine::default`. -/
def HashEngine.default : HashEngine where
  h := ⟨0x6a09e667, 0xbb67ae85, 0x3c6ef372, 0xa54ff53a, 0x510e527f, 0x9b05688c, 0x1f83d9ab, 0x5be0cd19⟩
  length := 0
  buffer := List.replicate BLOCK_SIZE 0

def HashEngine.input (e : HashEngine) (inp : Bytes) : HashEngine :=
  BlockEngine.input BLOCK_SIZE processBlock e inp

/-- `HashEngine::midstate`. -/
def HashEngine.midstate (e : HashEngine) : U8Array 32 :=
  ⟨e.h.words.flatMap fun w => beBytes 4 w.toNat, by simp [State.words]⟩

/-- `from_engine`: a single one bit, zeros up to the last eight bytes of a block, the bit length.  The bit length
`8 * length` wraps here, as it does without overflow checks; with them, `fromEngineChecked` panics from `2^61` bytes
on, here and in the other hashes. -/
def fromEngine (e : HashEngine) : U8Array 32 :=
  let dataLen := e.length
  let zeroes : Bytes := List.replicate (BLOCK_SIZE - 8) 0
  let e := HashEngine.input e [0x80]
  let e := if zeroes.length < e.length % BLOCK_SIZE then HashEngine.input e zeroes else e
  let padLength := zeroes.length - e.length % BLOCK_SIZE
  let e := HashEngine.input e (zeroes.take padLength)
  let e := HashEngine.input e (beBytes 8 (8 * dataLen))
  HashEngine.midstate e

/-- `sha256::Hash::hash`. -/
def hash (data : Bytes) : U8Array 32 := fromEngine (HashEngine.input .default data)

end Sha256

namespace Sha256d

/-- `sha256d::Hash::from_engine`. -/
def fromEngine (e : Sha256.HashEngine) : U8Array 32 := Sha256.hash (Sha256.fromEngine e).toList

/-- `sha256d::Hash::hash`. -/
def hash (data : Bytes) : U8Array 32 := fromEngine (Sha256.HashEngine.input .default data)

end Sha256d

end RustDogecoin
