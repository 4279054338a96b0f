import RustDogecoin.Hashes.Sha256

/-!
# SHA1

The engine of `hashes/sha1.rs`, the "basic unoptimized algorithm": eighty rounds over the sixteen words of a
block and the sixty-four words that are made from them.
-/

namespace RustDogecoin

namespace Sha1

def BLOCK_SIZE : ℕ := 64

/-- The five words of the state. -/
structure State where
  a : UInt32
  b : UInt32
  c : UInt32
  d : UInt32
  e : UInt32
  deriving DecidableEq, Repr

def State.words (s : State) : List UInt32 := [s.a, s.b, s.c, s.d, s.e]

def State.wrappingAdd (s t : State) : State := ⟨s.a + t.a, s.b + t.b, s.c + t.c, s.d + t.d, s.e + t.e⟩

/-- The words of the rounds: those of the block, then each from four words before it. -/
def schedule (block : Bytes) : List UInt32 :=
  (List.range' 16 64).foldl
    (fun w i => w ++
      [rotateLeft (w.getD (i - 3) 0 ^^^ w.getD (i - 8) 0 ^^^ w.getD (i - 14) 0 ^^^ w.getD (i - 16) 0) 1])
    (Sha256.readWords block)

/-- The function of a round on three words, and its constant. -/
def roundFunction (i : ℕ) (b c d : UInt32) : UInt32 × UInt32 :=
  if i < 20 then ((b &&& c) ||| (~~~b &&& d), 0x5a827999)
  else if i < 40 then (b ^^^ c ^^^ d, 0x6ed9eba1)
  else if i < 60 then ((b &&& c) ||| (b &&& d) ||| (c &&& d), 0x8f1bbcdc)
  else (b ^^^ c ^^^ d, 0xca62c1d6)

def round (s : State) (wi : UInt32 × ℕ) : State :=
  let (f, k) := roundFunction wi.2 s.b s.c s.d
  let newA := rotateLeft s.a 5 + f + s.e + k + wi.1
  ⟨newA, s.a, rotateLeft s.b 30, s.c, s.d⟩

/-- `HashEngine::process_block`. -/
def processBlock (h : State) (block : Bytes) : State :=
  h.wrappingAdd ((schedule block).zipIdx.foldl round h)

abbrev HashEngine := BlockEngine State

/-- `HashEngine::default`. -/
def HashEngine.default : HashEngine where
  h := ⟨0x67452301, 0xefcdab89, 0x98badcfe, 0x10325476, 0xc3d2e1f0⟩
  length := 0
  buffer := List.replicate BLOCK_SIZE 0

def HashEngine.input (e : HashEngine) (inp : Bytes) : HashEngine :=
  BlockEngine.input BLOCK_SIZE processBlock e inp

/-- `HashEngine::midstate`. -/
def HashEngine.midstate (e : HashEngine) : U8Array 20 :=
  ⟨e.h.words.flatMap fun w => beBytes 4 w.toNat, by simp [State.words]⟩

end Sha1

end RustDogecoin
