import RustDogecoin.Hashes.Sha256

/-!
# SHA512 and HMAC

The engine of `hashes/sha512.rs`, which is that of SHA256 on words of 64 bits and blocks of 128 bytes,
and the keyed hash of `hashes/hmac.rs` over it.
-/

namespace RustDogecoin

namespace Sha512

def BLOCK_SIZE : ℕ := 128

/-- The eight words of the state. -/
structure State where
  a : UInt64
  b : UInt64
  c : UInt64
  d : UInt64
  e : UInt64
  f : UInt64
  g : UInt64
  h : UInt64
  deriving DecidableEq, Repr

def State.words (s : State) : List UInt64 := [s.a, s.b, s.c, s.d, s.e, s.f, s.g, s.h]

def State.wrappingAdd (s t : State) : State :=
  ⟨s.a + t.a, s.b + t.b, s.c + t.c, s.d + t.d, s.e + t.e, s.f + t.f, s.g + t.g, s.h + t.h⟩

/-- `u64::rotate_left`. -/
def rotateLeft (x n : UInt64) : UInt64 := (x <<< n) ||| (x >>> (64 - n))

def Ch (x y z : UInt64) : UInt64 := z ^^^ (x &&& (y ^^^ z))

def Maj (x y z : UInt64) : UInt64 := (x &&& y) ||| (z &&& (x ||| y))

def Sigma0 (x : UInt64) : UInt64 := rotateLeft x 36 ^^^ rotateLeft x 30 ^^^ rotateLeft x 25

def Sigma1 (x : UInt64) : UInt64 := rotateLeft x 50 ^^^ rotateLeft x 46 ^^^ rotateLeft x 23

def sigma0 (x : UInt64) : UInt64 := rotateLeft x 63 ^^^ rotateLeft x 56 ^^^ (x >>> 7)

def sigma1 (x : UInt64) : UInt64 := rotateLeft x 45 ^^^ rotateLeft x 3 ^^^ (x >>> 6)

/-- The constants of the first sixteen rounds. -/
def firstConstants : List UInt64 :=
  [0x428a2f98d728ae22, 0x7137449123ef65cd, 0xb5c0fbcfec4d3b2f, 0xe9b5dba58189dbbc,
   0x3956c25bf348b538, 0x59f111f1b605d019, 0x923f82a4af194f9b, 0xab1c5ed5da6d8118,
   0xd807aa98a3030242, 0x12835b0145706fbe, 0x243185be4ee4b28c, 0x550c7dc3d5ffb4e2,
   0x72be5d74f27b896f, 0x80deb1fe3b1696b1, 0x9bdc06a725c71235, 0xc19bf174cf692694]

/-- The constants of the later rounds. -/
def laterConstants : List UInt64 :=
  [0xe49b69c19ef14ad2, 0xefbe4786384f25e3, 0x0fc19dc68b8cd5b5, 0x240ca1cc77ac9c65,
   0x2de92c6f592b0275, 0x4a7484aa6ea6e483, 0x5cb0a9dcbd41fbd4, 0x76f988da831153b5,
   0x983e5152ee66dfab, 0xa831c66d2db43210, 0xb00327c898fb213f, 0xbf597fc7beef0ee4,
   0xc6e00bf33da88fc2, 0xd5a79147930aa725, 0x06ca6351e003826f, 0x142929670a0e6e70,
   0x27b70a8546d22ffc, 0x2e1b21385c26c926, 0x4d2c6dfc5ac42aed, 0x53380d139d95b3df,
   0x650a73548baf63de, 0x766a0abb3c77b2a8, 0x81c2c92e47edaee6, 0x92722c851482353b,
   0xa2bfe8a14cf10364, 0xa81a664bbc423001, 0xc24b8b70d0f89791, 0xc76c51a30654be30,
   0xd192e819d6ef5218, 0xd69906245565a910, 0xf40e35855771202a, 0x106aa07032bbd1b8,
   0x19a4c116b8d2d0c8, 0x1e376c085141ab53, 0x2748774cdf8eeb99, 0x34b0bcb5e19b48a8,
   0x391c0cb3c5c95a63, 0x4ed8aa4ae3418acb, 0x5b9cca4f7763e373, 0x682e6ff3d6b2b8a3,
   0x748f82ee5defb2fc, 0x78a5636f43172f60, 0x84c87814a1f0ab72, 0x8cc702081a6439ec,
   0x90befffa23631e28, 0xa4506cebde82bde9, 0xbef9a3f7b2c67915, 0xc67178f2e372532b,
   0xca273eceea26619c, 0xd186b8c721c0c207, 0xeada7dd6cde0eb1e, 0xf57d4f7fee6ed178,
   0x06f067aa72176fba, 0x0a637dc5a2c898a6, 0x113f9804bef90dae, 0x1b710b35131c471b,
   0x28db77f523047d84, 0x32caab7b40c72493, 0x3c9ebe0a15c9bebc, 0x431d67c49c100d4c,
   0x4cc5d4becb3e42b6, 0x597f299cfc657e2a, 0x5fcb6fab3ad6faec, 0x6c44198c4a475817]

/-- `round!`, with the state turned from one round to the next; eighty rounds bring it back. -/
def round (s : State) (k w : UInt64) : State :=
  let t1 := s.h + Sigma1 s.e + Ch s.e s.f s.g + k + w
  let t2 := Sigma0 s.a + Maj s.a s.b s.c
  ⟨t1 + t2, s.a, s.b, s.c, s.d + t1, s.e, s.f, s.g⟩

def firstRounds : State → List UInt64 → List UInt64 → State
  | s, k :: ks, w :: ws => firstRounds (round s k w) ks ws
  | s, _, _ => s

/-- The later rounds replace the oldest of the last sixteen words before they use it. -/
def laterRounds : State → List UInt64 → List UInt64 → State
  | s, k :: ks, w =>
    let w' := w.getD 0 0 + sigma1 (w.getD 14 0) + w.getD 9 0 + sigma0 (w.getD 1 0)
    laterRounds (round s k w') ks (w.tail ++ [w'])
  | s, [], _ => s

/-- The big-endian words of a block. -/
def readWords (block : Bytes) : List UInt64 :=
  (List.range 16).map fun i => UInt64.ofNat (beNat ((block.drop (8 * i)).take 8))

/-- `HashEngine::process_block`. -/
def processBlock (h : State) (block : Bytes) : State :=
  let w := readWords block
  h.wrappingAdd (laterRounds (firstRounds h firstConstants w) laterConstants w)

abbrev HashEngine := BlockEngine State

/-- `HashEngine::default`. -/
def HashEngine.default : HashEngine where
  h := ⟨0x6a09e667f3bcc908, 0xbb67ae8584caa73b, 0x3c6ef372fe94f82b, 0xa54ff53a5f1d36f1,
    0x510e527fade682d1, 0x9b05688c2b3e6c1f, 0x1f83d9abfb41bd6b, 0x5be0cd19137e2179⟩
  length := 0
  buffer := List.replicate BLOCK_SIZE 0

def HashEngine.input (e : HashEngine) (inp : Bytes) : HashEngine :=
  BlockEngine.input BLOCK_SIZE processBlock e inp

/-- `HashEngine::midstate`. -/
def HashEngine.midstate (e : HashEngine) : U8Array 64 :=
  ⟨e.h.words.flatMap fun w => beBytes 8 w.toNat, by simp [State.words]⟩

/-- `from_engine`: a single one bit, zeros up to the last sixteen bytes of a block, the bit length. -/
def fromEngine (e : HashEngine) : U8Array 64 :=
  let dataLen := e.length
  let zeroes : Bytes := List.replicate (BLOCK_SIZE - 16) 0
  let e := HashEngine.input e [0x80]
  let e := if zeroes.length < e.length % BLOCK_SIZE then HashEngine.input e zeroes else e
  let padLength := zeroes.length - e.length % BLOCK_SIZE
  let e := HashEngine.input e (zeroes.take padLength)
  let e := HashEngine.input e (List.replicate 8 0)
  let e := HashEngine.input e (beBytes 8 (8 * dataLen))
  HashEngine.midstate e

/-- `sha512::Hash::hash`. -/
def hash (data : Bytes) : U8Array 64 := fromEngine (HashEngine.input .default data)

end Sha512

namespace Hmac

/-- `HmacEngine<sha512::Hash>`: the engines of the inner and of the outer hash. -/
structure HmacEngine where
  iengine : Sha512.HashEngine
  oengine : Sha512.HashEngine

/-- A pad with the key over its beginning. -/
def padKey (pad : UInt8) (key : Bytes) : Bytes :=
  let buf := List.replicate 128 pad
  List.zipWith (· ^^^ ·) buf key ++ buf.drop key.length

/-- `HmacEngine::new`. -/
def HmacEngine.new (key : Bytes) : HmacEngine :=
  let key := if Sha512.BLOCK_SIZE < key.length then (Sha512.hash key).toList else key
  { iengine := Sha512.HashEngine.input .default ((padKey 0x36 key).take Sha512.BLOCK_SIZE)
    oengine := Sha512.HashEngine.input .default ((padKey 0x5c key).take Sha512.BLOCK_SIZE) }

/-- `HmacEngine::input`. -/
def HmacEngine.input (e : HmacEngine) (buf : Bytes) : HmacEngine :=
  { e with iengine := Sha512.HashEngine.input e.iengine buf }

/-- `Hmac::from_engine`. -/
def fromEngine (e : HmacEngine) : U8Array 64 :=
  let ihash := Sha512.fromEngine e.iengine
  Sha512.fromEngine (Sha512.HashEngine.input e.oengine ihash.toList)

end Hmac

end RustDogecoin
