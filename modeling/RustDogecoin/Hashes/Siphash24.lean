import RustDogecoin.Lib.Bytes

/-!
# SipHash 2-4

The engine of `hashes/siphash24.rs`: four words of state and a tail of up to seven bytes that do not
fill a word yet.
-/

namespace RustDogecoin

namespace Siphash24

/-- `u64::rotate_left`. -/
def rotateLeft (x n : UInt64) : UInt64 := (x <<< n) ||| (x >>> (64 - n))

/-- Internal state of the engine. -/
structure State where
  v0 : UInt64
  v1 : UInt64
  v2 : UInt64
  v3 : UInt64
  deriving DecidableEq, Repr

/-- `compress!`. -/
def compress (s : State) : State :=
  let v0 := s.v0 + s.v1
  let v1 := rotateLeft s.v1 13
  let v1 := v1 ^^^ v0
  let v0 := rotateLeft v0 32
  let v2 := s.v2 + s.v3
  let v3 := rotateLeft s.v3 16
  let v3 := v3 ^^^ v2
  let v0 := v0 + v3
  let v3 := rotateLeft v3 21
  let v3 := v3 ^^^ v0
  let v2 := v2 + v1
  let v1 := rotateLeft v1 17
  let v1 := v1 ^^^ v2
  let v2 := rotateLeft v2 32
  ⟨v0, v1, v2, v3⟩

def cRounds (s : State) : State := compress (compress s)

def dRounds (s : State) : State := compress (compress (compress (compress s)))

/-- Engine to compute the SipHash24 hash function. -/
structure HashEngine where
  k0 : UInt64
  k1 : UInt64
  length : ℕ
  state : State
  tail : UInt64
  ntail : ℕ
  deriving DecidableEq, Repr

/-- Creates a new SipHash24 engine with keys. -/
def HashEngine.withKeys (k0 k1 : UInt64) : HashEngine where
  k0 := k0
  k1 := k1
  length := 0
  state := {
    v0 := k0 ^^^ 0x736f6d6570736575
    v1 := k1 ^^^ 0x646f72616e646f6d
    v2 := k0 ^^^ 0x6c7967656e657261
    v3 := k1 ^^^ 0x7465646279746573 }
  tail := 0
  ntail := 0

/-- `load_int_le!`, and `u8to64_le` with it: the source reads the same bytes in pieces of four, two
and one. -/
def u8to64Le (buf : Bytes) (start len : ℕ) : UInt64 := UInt64.ofNat (leNat ((buf.drop start).take len))

/-- A word taken into the state. -/
def absorb (s : State) (mi : UInt64) : State :=
  let s := cRounds { s with v3 := s.v3 ^^^ mi }
  { s with v0 := s.v0 ^^^ mi }

/-- The loop over the whole words of the input from position `i` on. -/
def inputLoop (msg : Bytes) (stop : ℕ) : ℕ → ℕ → State → ℕ × State
  | 0, i, s => (i, s)
  | fuel + 1, i, s =>
    if i < stop then inputLoop msg stop fuel (i + 8) (absorb s (u8to64Le msg i 8)) else (i, s)

/-- `HashEngine::input`. -/
def HashEngine.input (e : HashEngine) (msg : Bytes) : HashEngine :=
  let length := msg.length
  let total := e.length + length
  let needed := if e.ntail ≠ 0 then 8 - e.ntail else 0
  let tail := if e.ntail ≠ 0 then
    e.tail ||| (u8to64Le msg 0 (min length needed) <<< UInt64.ofNat (8 * e.ntail)) else e.tail
  if e.ntail ≠ 0 ∧ length < needed then
    { e with length := total, tail := tail, ntail := e.ntail + length }
  else
    let state := if e.ntail ≠ 0 then absorb e.state tail else e.state
    let len := length - needed
    let left := len % 8
    let (i, state) := inputLoop msg (len - left) length needed state
    { e with length := total, state := state, tail := u8to64Le msg i left, ntail := left }

/-- Produces a hash as `u64` from the current state of a given engine. -/
def fromEngineToU64 (e : HashEngine) : UInt64 :=
  let b := (UInt64.ofNat (e.length % 256) <<< 56) ||| e.tail
  let s := absorb e.state b
  let s := dRounds { s with v2 := s.v2 ^^^ 0xff }
  s.v0 ^^^ s.v1 ^^^ s.v2 ^^^ s.v3

/-- Hashes the given data directly to u64 with an engine with the provided keys. -/
def hashToU64WithKeys (k0 k1 : UInt64) (data : Bytes) : UInt64 :=
  fromEngineToU64 ((HashEngine.withKeys k0 k1).input data)

end Siphash24

end RustDogecoin
