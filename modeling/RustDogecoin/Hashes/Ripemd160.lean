import RustDogecoin.Hashes.Sha256

/-!
# RIPEMD160 and HASH160

The engine of `hashes/ripemd160.rs`: two lines of eighty rounds over the same block, joined at the end.
A step of a round is the index of a word of the block and the number of bits to turn by.  `Hash160.hash`
is RIPEMD160 of SHA256.
-/

namespace RustDogecoin

namespace Ripemd160

def BLOCK_SIZE : ℕ := 64

/-- The five words of the state. -/
structure State where
  a : UInt32
  b : UInt32
  c : UInt32
  d : UInt32
  e : UInt32
  deriving DecidableEq, Repr

def State.words (s : State) : List UInt32 := [s.a, s.b, s.c, s.d, s.e]

def firstSteps : List (ℕ × UInt32) :=
  [(0, 11), (1, 14), (2, 15), (3, 12), (4, 5), (5, 8), (6, 7), (7, 9),
   (8, 11), (9, 13), (10, 14), (11, 15), (12, 6), (13, 7), (14, 9), (15, 8)]

def secondSteps : List (ℕ × UInt32) :=
  [(7, 7), (4, 6), (13, 8), (1, 13), (10, 11), (6, 9), (15, 7), (3, 15),
   (12, 7), (0, 12), (9, 15), (5, 9), (2, 11), (14, 7), (11, 13), (8, 12)]

def thirdSteps : List (ℕ × UInt32) :=
  [(3, 11), (10, 13), (14, 6), (4, 7), (9, 14), (15, 9), (8, 13), (1, 15),
   (2, 14), (7, 8), (0, 13), (6, 6), (13, 5), (11, 12), (5, 7), (12, 5)]

def fourthSteps : List (ℕ × UInt32) :=
  [(1, 11), (9, 12), (11, 14), (10, 15), (0, 14), (8, 15), (12, 9), (4, 8),
   (13, 9), (3, 14), (7, 5), (15, 6), (14, 8), (5, 6), (6, 5), (2, 12)]

def fifthSteps : List (ℕ × UInt32) :=
  [(4, 9), (0, 15), (5, 5), (9, 11), (7, 6), (12, 8), (2, 13), (10, 12),
   (14, 5), (1, 12), (3, 13), (8, 14), (11, 11), (6, 8), (15, 5), (13, 6)]

def firstParallelSteps : List (ℕ × UInt32) :=
  [(5, 8), (14, 9), (7, 9), (0, 11), (9, 13), (2, 15), (11, 15), (4, 5),
   (13, 7), (6, 7), (15, 8), (8, 11), (1, 14), (10, 14), (3, 12), (12, 6)]

def secondParallelSteps : List (ℕ × UInt32) :=
  [(6, 9), (11, 13), (3, 15), (7, 7), (0, 12), (13, 8), (5, 9), (10, 11),
   (14, 7), (15, 7), (8, 12), (12, 7), (4, 6), (9, 15), (1, 13), (2, 11)]

def thirdParallelSteps : List (ℕ × UInt32) :=
  [(15, 9), (5, 7), (1, 15), (3, 11), (7, 8), (14, 6), (6, 6), (9, 14),
   (11, 12), (8, 13), (12, 5), (2, 14), (10, 13), (0, 13), (4, 7), (13, 5)]

def fourthParallelSteps : List (ℕ × UInt32) :=
  [(8, 15), (6, 5), (4, 8), (1, 11), (3, 14), (11, 14), (15, 6), (0, 14),
   (5, 6), (12, 9), (2, 12), (13, 9), (9, 12), (7, 5), (10, 15), (14, 8)]

def fifthParallelSteps : List (ℕ × UInt32) :=
  [(12, 8), (15, 5), (10, 12), (4, 9), (1, 12), (5, 5), (8, 14), (7, 6),
   (6, 8), (2, 13), (13, 6), (14, 5), (0, 15), (3, 13), (9, 11), (11, 11)]

/-- `round!`, with the state turned from one step to the next; eighty steps bring it back. -/
def round (f : UInt32 → UInt32 → UInt32 → UInt32) (add : UInt32) (w : List UInt32) (s : State)
    (step : ℕ × UInt32) : State :=
  let a := s.a + f s.b s.c s.d + w.getD step.1 0 + add
  ⟨s.e, rotateLeft a step.2 + s.e, s.b, rotateLeft s.c 10, s.d⟩

/-- The functions of the five rounds; the parallel line takes them in reverse order. -/
def f₁ (x y z : UInt32) : UInt32 := x ^^^ y ^^^ z

def f₂ (x y z : UInt32) : UInt32 := (x &&& y) ||| (~~~x &&& z)

def f₃ (x y z : UInt32) : UInt32 := (x ||| ~~~y) ^^^ z

def f₄ (x y z : UInt32) : UInt32 := (x &&& z) ||| (y &&& ~~~z)

def f₅ (x y z : UInt32) : UInt32 := x ^^^ (y ||| ~~~z)

def line (w : List UInt32) (h : State) : State :=
  let s := firstSteps.foldl (round f₁ 0x00000000 w) h
  let s := secondSteps.foldl (round f₂ 0x5a827999 w) s
  let s := thirdSteps.foldl (round f₃ 0x6ed9eba1 w) s
  let s := fourthSteps.foldl (round f₄ 0x8f1bbcdc w) s
  fifthSteps.foldl (round f₅ 0xa953fd4e w) s

def parallelLine (w : List UInt32) (h : State) : State :=
  let s := firstParallelSteps.foldl (round f₅ 0x50a28be6 w) h
  let s := secondParallelSteps.foldl (round f₄ 0x5c4dd124 w) s
  let s := thirdParallelSteps.foldl (round f₃ 0x6d703ef3 w) s
  let s := fourthParallelSteps.foldl (round f₂ 0x7a6d76e9 w) s
  fifthParallelSteps.foldl (round f₁ 0x00000000 w) s

/-- The little-endian words of a block. -/
def readWords (block : Bytes) : List UInt32 :=
  (List.range 16).map fun i => UInt32.ofNat (leNat ((block.drop (4 * i)).take 4))

/-- `HashEngine::process_block`. -/
def processBlock (h : State) (block : Bytes) : State :=
  let w := readWords block
  let bb := line w h
  let bbb := parallelLine w h
  ⟨bbb.d + h.b + bb.c, h.c + bb.d + bbb.e, h.d + bb.e + bbb.a, h.e + bb.a + bbb.b, h.a + bb.b + bbb.c⟩

abbrev HashEngine := BlockEngine State

/-- `HashEngine::default`. -/
def HashEngine.default : HashEngine where
  h := ⟨0x67452301, 0xefcdab89, 0x98badcfe, 0x10325476, 0xc3d2e1f0⟩
  length := 0
  buffer := List.replicate BLOCK_SIZE 0

def HashEngine.input (e : HashEngine) (inp : Bytes) : HashEngine :=
  BlockEngine.input BLOCK_SIZE processBlock e inp

/-- `HashEngine::midstate`. -/
def HashEngine.midstate (e : HashEngine) : U8Array 20 :=
  ⟨e.h.words.flatMap fun w => leBytes 4 w.toNat, by simp [State.words]⟩

/-- `from_engine`: a single one bit, zeros up to the last eight bytes of a block, the bit length. -/
def fromEngine (e : HashEngine) : U8Array 20 :=
  let dataLen := e.length
  let zeroes : Bytes := List.replicate (BLOCK_SIZE - 8) 0
  let e := HashEngine.input e [0x80]
  let e := if zeroes.length < e.length % BLOCK_SIZE then HashEngine.input e zeroes else e
  let padLength := zeroes.length - e.length % BLOCK_SIZE
  let e := HashEngine.input e (zeroes.take padLength)
  let e := HashEngine.input e (leBytes 8 (8 * dataLen))
  HashEngine.midstate e

/-- `ripemd160::Hash::hash`. -/
def hash (data : Bytes) : U8Array 20 := fromEngine (HashEngine.input .default data)

end Ripemd160

namespace Hash160

/-- `hash160::Hash::from_engine`. -/
def fromEngine (e : Sha256.HashEngine) : U8Array 20 := Ripemd160.hash (Sha256.fromEngine e).toList

/-- `hash160::Hash::hash`. -/
def hash (data : Bytes) : U8Array 20 := fromEngine (Sha256.HashEngine.input .default data)

end Hash160

end RustDogecoin
