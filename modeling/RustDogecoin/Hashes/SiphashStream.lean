import RustDogecoin.Hashes.Siphash24
import RustDogecoin.Lib.Blocks
import RustDogecoin.Lib.Outcome

/-!
# SipHash 2-4 piece by piece

`siphash24` is the definition of the hash: little-endian words, the last one with the length in its
top byte.  An engine that took in a message in any pieces finishes with that hash
(`fromEngine_pieces`), because it always stands for the words taken in and fewer than eight bytes
behind them.  The same is proved of the engine with every read checked against the piece.
-/

namespace RustDogecoin

namespace Siphash24

/-! ## The definition -/

/-- One round of SipHash, its two halves side by side. -/
def sipRound (s : State) : State :=
  let v0 := s.v0 + s.v1
  let v2 := s.v2 + s.v3
  let v1 := rotateLeft s.v1 13 ^^^ v0
  let v3 := rotateLeft s.v3 16 ^^^ v2
  let v0 := rotateLeft v0 32
  let v2 := v2 + v1
  let v0 := v0 + v3
  let v1 := rotateLeft v1 17 ^^^ v2
  let v3 := rotateLeft v3 21 ^^^ v0
  ⟨v0, v1, rotateLeft v2 32, v3⟩

/-- Two rounds for each word. -/
def sipWord (s : State) (m : UInt64) : State :=
  let s := sipRound (sipRound { s with v3 := s.v3 ^^^ m })
  { s with v0 := s.v0 ^^^ m }

/-- Four rounds at the end. -/
def sipFinish (s : State) : UInt64 :=
  let s := sipRound (sipRound (sipRound (sipRound { s with v2 := s.v2 ^^^ 0xff })))
  s.v0 ^^^ s.v1 ^^^ s.v2 ^^^ s.v3

/-- The whole little-endian words of a string. -/
def wholeWords (m : Bytes) : List UInt64 := (blocks 8 m).map fun b => UInt64.ofNat (leNat b)

/-- The message filled up with zeros, its length modulo 256 in the last byte. -/
def sipPad (m : Bytes) : Bytes :=
  m ++ List.replicate (7 - m.length % 8) 0 ++ [UInt8.ofNat (m.length % 256)]

/-- SipHash 2-4. -/
def siphash24 (k0 k1 : UInt64) (m : Bytes) : UInt64 :=
  sipFinish ((wholeWords (sipPad m)).foldl sipWord
    ⟨k0 ^^^ 0x736f6d6570736575, k1 ^^^ 0x646f72616e646f6d, k0 ^^^ 0x6c7967656e657261,
      k1 ^^^ 0x7465646279746573⟩)

theorem absorb_eq_sipWord (s : State) (m : UInt64) : absorb s m = sipWord s m := rfl

theorem wholeWords_of_length_lt {m : Bytes} (h : m.length < 8) : wholeWords m = [] := by
  rw [wholeWords, blocks_of_length_lt h, List.map_nil]

theorem wholeWords_of_length_eq {m : Bytes} (h : m.length = 8) :
    wholeWords m = [UInt64.ofNat (leNat m)] := by
  rw [wholeWords, blocks_of_length_eq (by decide) h, List.map_singleton]

theorem wholeWords_append {x : Bytes} (hx : x.length % 8 = 0) (y : Bytes) :
    wholeWords (x ++ y) = wholeWords x ++ wholeWords y := by
  rw [wholeWords, blocks_append hx, List.map_append, ← wholeWords, ← wholeWords]

/-! ## Bytes joined in a word -/

/-- Bytes or-ed in above those that are there. -/
theorem ofNat_or_shiftLeft {x y : Bytes} (hx : x.length < 8) (h : x.length + y.length ≤ 8) :
    UInt64.ofNat (leNat x) ||| (UInt64.ofNat (leNat y) <<< UInt64.ofNat (8 * x.length)) =
      UInt64.ofNat (leNat (x ++ y)) := by
  have hlow : leNat x < 2 ^ (8 * x.length) := leNat_lt_two_pow le_rfl
  have hx64 : leNat x < 2 ^ 64 := leNat_lt_two_pow (n := 8) (by omega)
  have hy64 : leNat y < 2 ^ 64 := leNat_lt_two_pow (n := 8) (by omega)
  have hall : leNat (x ++ y) < 2 ^ 64 :=
    leNat_lt_two_pow (n := 8) (by rw [List.length_append]; omega)
  have hsum : leNat (x ++ y) = 2 ^ (8 * x.length) * leNat y + leNat x := by
    rw [leNat_append, Nat.pow_mul, Nat.add_comm]
  apply UInt64.toNat_inj.mp
  rw [UInt64.toNat_or, UInt64.toNat_shiftLeft, UInt64.toNat_ofNat', UInt64.toNat_ofNat',
    UInt64.toNat_ofNat', UInt64.toNat_ofNat', Nat.mod_eq_of_lt hx64, Nat.mod_eq_of_lt hy64,
    Nat.mod_eq_of_lt hall, Nat.mod_eq_of_lt (a := 8 * x.length) (by omega),
    Nat.mod_eq_of_lt (a := 8 * x.length) (by omega), Nat.shiftLeft_eq, Nat.mul_comm (leNat y),
    Nat.mod_eq_of_lt (by omega), Nat.or_comm, ← Nat.two_pow_add_eq_or_of_lt hlow, hsum]

/-! ## What an engine stands for -/

/-- The engine has taken in the whole words of `whole` and keeps the bytes of `rest`. -/
structure HashEngine.Represents (k0 k1 : UInt64) (e : HashEngine) (whole rest : Bytes) : Prop where
  whole_mod : whole.length % 8 = 0
  rest_lt : rest.length < 8
  length_eq : e.length = whole.length + rest.length
  ntail_eq : e.ntail = rest.length
  tail_eq : e.tail = UInt64.ofNat (leNat rest)
  state_eq : e.state = (wholeWords whole).foldl absorb (HashEngine.withKeys k0 k1).state

theorem HashEngine.withKeys_represents (k0 k1 : UInt64) :
    (HashEngine.withKeys k0 k1).Represents k0 k1 [] [] :=
  ⟨rfl, by decide, rfl, rfl, rfl, rfl⟩

/-- The loop takes the words from `i` on, as many as start before its end. -/
theorem inputLoop_eq {msg : Bytes} {stop : ℕ} (k : ℕ) {fuel i : ℕ} (s : State) (hfuel : k ≤ fuel)
    (hbefore : ∀ j < k, i + 8 * j < stop) (hafter : stop ≤ i + 8 * k) :
    inputLoop msg stop fuel i s =
      (i + 8 * k, ((List.range k).map fun j => u8to64Le msg (i + 8 * j) 8).foldl absorb s) := by
  induction k generalizing fuel i s with
  | zero =>
    cases fuel with
    | zero => rfl
    | succ fuel =>
      rw [inputLoop, if_neg (by omega)]
      rfl
  | succ k ih =>
    obtain ⟨fuel, rfl⟩ : ∃ n, fuel = n + 1 := ⟨fuel - 1, by omega⟩
    have hfirst := hbefore 0 (Nat.succ_pos k)
    rw [inputLoop, if_pos (by omega), ih _ (by omega) (fun j hj => ?_) (by omega)]
    · have hnext (j : ℕ) : i + 8 + 8 * j = i + 8 * (j + 1) := by omega
      rw [List.range_succ_eq_map, List.map_cons, List.map_map, List.foldl_cons, hnext k]
      simp only [hnext]
      rfl
    · have := hbefore (j + 1) (by omega)
      omega

/-- The bound of the loop leaves out the bytes that completed the tail while its index starts behind
them.  As these are fewer than eight, it takes in every whole word all the same. -/
theorem inputLoop_words (msg : Bytes) {needed : ℕ} (hneeded : needed < 8)
    (hle : needed ≤ msg.length) (s : State) :
    inputLoop msg (msg.length - needed - (msg.length - needed) % 8) msg.length needed s =
      (needed + 8 * ((msg.length - needed) / 8),
        (wholeWords (msg.drop needed)).foldl absorb s) := by
  rw [inputLoop_eq ((msg.length - needed) / 8) s (by omega) (fun j hj => by omega) (by omega)]
  unfold wholeWords blocks
  rw [List.length_drop, List.map_map]
  simp only [u8to64Le, List.drop_drop, Function.comp_def]

/-- An engine without a tail takes in the whole words and keeps the rest. -/
theorem represents_of_words {k0 k1 : UInt64} {whole piece : Bytes} (needed : ℕ) {s : State}
    {e : HashEngine} (hwhole : whole.length % 8 = 0)
    (hs : s = (wholeWords whole).foldl absorb (HashEngine.withKeys k0 k1).state)
    (hlength : e.length = whole.length + (piece.length - needed))
    (hstate : e.state = (wholeWords (piece.drop needed)).foldl absorb s)
    (htail : e.tail = u8to64Le piece (needed + 8 * ((piece.length - needed) / 8))
      ((piece.length - needed) % 8))
    (hntail : e.ntail = (piece.length - needed) % 8) :
    ∃ whole' rest', whole ++ piece.drop needed = whole' ++ rest' ∧
      e.Represents k0 k1 whole' rest' := by
  obtain ⟨front, rest, hsplit, hfront, hrest, htake⟩ := blocks_rest 8 (piece.drop needed)
  rw [List.length_drop] at hfront hrest htake
  have hwords : wholeWords (piece.drop needed) = wholeWords front := by
    rw [hsplit, wholeWords_append (by omega), wholeWords_of_length_lt (m := rest) (by omega),
      List.append_nil]
  refine ⟨whole ++ front, rest, ?_, ?_⟩
  · rw [List.append_assoc, ← hsplit]
  · constructor
    · rw [List.length_append]
      omega
    · omega
    · rw [List.length_append]
      omega
    · omega
    · rw [htail, u8to64Le, ← List.drop_drop, ← htake]
    · rw [hstate, hwords, hs, ← List.foldl_append, wholeWords_append hwhole]

/-- Bytes or-ed into the tail follow those that the engine keeps. -/
theorem HashEngine.Represents.tail_or {k0 k1 : UInt64} {e : HashEngine} {whole rest : Bytes}
    (he : e.Represents k0 k1 whole rest) {low : Bytes} (h : rest.length + low.length ≤ 8) :
    e.tail ||| (UInt64.ofNat (leNat low) <<< UInt64.ofNat (8 * e.ntail)) =
      UInt64.ofNat (leNat (rest ++ low)) := by
  rw [he.tail_eq, he.ntail_eq]
  exact ofNat_or_shiftLeft he.rest_lt h

/-- A piece taken in without a tail. -/
theorem HashEngine.Represents.input_of_nil {k0 k1 : UInt64} {e : HashEngine} {whole : Bytes}
    (he : e.Represents k0 k1 whole []) (piece : Bytes) :
    ∃ whole' rest', whole ++ piece = whole' ++ rest' ∧
      (e.input piece).Represents k0 k1 whole' rest' := by
  have hn : ¬ e.ntail ≠ 0 := by
    rw [he.ntail_eq]
    decide
  have hloop := inputLoop_words piece (by decide) (Nat.zero_le _) e.state
  apply represents_of_words 0 he.whole_mod he.state_eq
  all_goals
    unfold HashEngine.input
    simp only [if_neg hn, if_neg (show ¬ (e.ntail ≠ 0 ∧ piece.length < 0) by omega), hloop]
  rw [he.length_eq]
  rfl

/-- A piece that does not fill the tail up. -/
theorem HashEngine.Represents.input_of_short {k0 k1 : UInt64} {e : HashEngine} {whole rest : Bytes}
    (he : e.Represents k0 k1 whole rest) (hn : e.ntail ≠ 0) {piece : Bytes}
    (hshort : piece.length < 8 - e.ntail) :
    (e.input piece).Represents k0 k1 whole (rest ++ piece) := by
  have hntail := he.ntail_eq
  have hlength := he.length_eq
  have hall : (piece.drop 0).take piece.length = piece := by
    rw [List.drop_zero, List.take_of_length_le le_rfl]
  unfold HashEngine.input
  simp only [if_pos hn, if_pos (show e.ntail ≠ 0 ∧ piece.length < 8 - e.ntail from ⟨hn, hshort⟩),
    Nat.min_eq_left hshort.le, u8to64Le, hall]
  constructor
  · exact he.whole_mod
  · rw [List.length_append]
    omega
  · rw [List.length_append]
    show e.length + piece.length = _
    omega
  · rw [List.length_append]
    show e.ntail + piece.length = _
    omega
  · exact he.tail_or (by omega)
  · exact he.state_eq

/-- A piece that fills the tail up: one word is completed, and the rest is taken in without a tail. -/
theorem HashEngine.Represents.input_of_long {k0 k1 : UInt64} {e : HashEngine} {whole rest : Bytes}
    (he : e.Represents k0 k1 whole rest) (hn : e.ntail ≠ 0) {piece : Bytes}
    (hlong : ¬ piece.length < 8 - e.ntail) :
    ∃ whole' rest', whole ++ rest ++ piece = whole' ++ rest' ∧
      (e.input piece).Represents k0 k1 whole' rest' := by
  have hwhole := he.whole_mod
  have hntail := he.ntail_eq
  have hlength := he.length_eq
  have hfirst : (piece.take (8 - e.ntail)).length = 8 - e.ntail := by
    rw [List.length_take]
    omega
  have hword : (rest ++ piece.take (8 - e.ntail)).length = 8 := by
    have hrest := he.rest_lt
    rw [List.length_append]
    omega
  have hfull : rest.length + (piece.take (8 - e.ntail)).length ≤ 8 := by
    rw [← List.length_append, hword]
  have hsplit : whole ++ rest ++ piece =
      whole ++ (rest ++ piece.take (8 - e.ntail)) ++ piece.drop (8 - e.ntail) := by
    rw [List.append_assoc, List.append_assoc, List.append_assoc, List.take_append_drop]
  have hloop := inputLoop_words piece (show 8 - e.ntail < 8 by omega) (by omega)
    (absorb e.state (UInt64.ofNat (leNat (rest ++ piece.take (8 - e.ntail)))))
  rw [hsplit]
  apply represents_of_words (8 - e.ntail)
    (s := absorb e.state (UInt64.ofNat (leNat (rest ++ piece.take (8 - e.ntail)))))
  · rw [List.length_append]
    omega
  · rw [wholeWords_append hwhole, wholeWords_of_length_eq hword, List.foldl_append, ← he.state_eq]
    rfl
  all_goals
    unfold HashEngine.input
    simp only [if_pos hn,
      if_neg (show ¬ (e.ntail ≠ 0 ∧ piece.length < 8 - e.ntail) from fun h => hlong h.2),
      Nat.min_eq_right (Nat.le_of_not_lt hlong), u8to64Le, List.drop_zero, he.tail_or hfull, hloop]
  rw [List.length_append]
  omega

/-- Taking in a piece adds it to what the engine stands for. -/
theorem HashEngine.Represents.input {k0 k1 : UInt64} {e : HashEngine} {whole rest : Bytes}
    (he : e.Represents k0 k1 whole rest) (piece : Bytes) :
    ∃ whole' rest', whole ++ rest ++ piece = whole' ++ rest' ∧
      (e.input piece).Represents k0 k1 whole' rest' := by
  by_cases hzero : rest = []
  · subst hzero
    rw [List.append_nil]
    exact he.input_of_nil piece
  · have hn : e.ntail ≠ 0 := by
      rw [he.ntail_eq]
      exact fun h => hzero (List.length_eq_zero_iff.mp h)
    by_cases hshort : piece.length < 8 - e.ntail
    · exact ⟨whole, rest ++ piece, List.append_assoc _ _ _, he.input_of_short hn hshort⟩
    · exact he.input_of_long hn hshort

/-- An engine takes in its pieces as it would their concatenation. -/
theorem HashEngine.Represents.foldl {k0 k1 : UInt64} {e : HashEngine} {whole rest : Bytes}
    (he : e.Represents k0 k1 whole rest) (pieces : List Bytes) :
    ∃ whole' rest', whole ++ rest ++ pieces.flatten = whole' ++ rest' ∧
      (pieces.foldl HashEngine.input e).Represents k0 k1 whole' rest' := by
  induction pieces generalizing e whole rest with
  | nil => exact ⟨whole, rest, by simp, he⟩
  | cons piece pieces ih =>
    obtain ⟨whole₁, rest₁, h₁, he₁⟩ := he.input piece
    obtain ⟨whole', rest', h', he'⟩ := ih he₁
    refine ⟨whole', rest', ?_, he'⟩
    rw [List.flatten_cons, ← List.append_assoc, h₁, h']

/-- What is left and the length make up the last word of the padded message. -/
theorem sipPad_append {whole rest : Bytes} (hwhole : whole.length % 8 = 0) (hrest : rest.length < 8) :
    wholeWords (sipPad (whole ++ rest)) =
      wholeWords whole ++ [(UInt64.ofNat ((whole.length + rest.length) % 256) <<< 56) |||
        UInt64.ofNat (leNat rest)] := by
  have hmod : (whole ++ rest).length % 8 = rest.length := by
    rw [List.length_append]
    omega
  have hzeros (n : ℕ) : leNat (List.replicate n 0) = 0 := by
    induction n with
    | zero => rfl
    | succ n ih =>
      rw [List.replicate_succ, leNat, ih]
      rfl
  have hlast : (rest ++ List.replicate (7 - rest.length) 0 ++
      [UInt8.ofNat ((whole ++ rest).length % 256)]).length = 8 := by
    simp only [List.length_append, List.length_replicate, List.length_singleton]
    omega
  have hseven : (rest ++ List.replicate (7 - rest.length) 0).length = 7 := by
    rw [List.length_append, List.length_replicate]
    omega
  have hbyte : leNat [UInt8.ofNat ((whole ++ rest).length % 256)] =
      (whole.length + rest.length) % 256 := by
    rw [leNat, leNat, UInt8.toNat_ofNat', List.length_append]
    omega
  have hvalue : leNat (rest ++ List.replicate (7 - rest.length) 0) = leNat rest := by
    rw [leNat_append, hzeros, Nat.mul_zero, Nat.add_zero]
  have hjoin := ofNat_or_shiftLeft (y := [UInt8.ofNat ((whole ++ rest).length % 256)])
    (by rw [hseven]; decide) (by rw [hseven, List.length_singleton])
  rw [hseven, hbyte, hvalue] at hjoin
  rw [sipPad, hmod, List.append_assoc, List.append_assoc, wholeWords_append hwhole,
    ← List.append_assoc, wholeWords_of_length_eq hlast, ← hjoin, UInt64.or_comm]
  rfl

theorem HashEngine.Represents.finish {k0 k1 : UInt64} {e : HashEngine} {whole rest : Bytes}
    (he : e.Represents k0 k1 whole rest) : fromEngineToU64 e = siphash24 k0 k1 (whole ++ rest) := by
  have hfinish : fromEngineToU64 e =
      sipFinish (absorb e.state ((UInt64.ofNat (e.length % 256) <<< 56) ||| e.tail)) := rfl
  have hinit : (HashEngine.withKeys k0 k1).state =
      ⟨k0 ^^^ 0x736f6d6570736575, k1 ^^^ 0x646f72616e646f6d, k0 ^^^ 0x6c7967656e657261,
        k1 ^^^ 0x7465646279746573⟩ := rfl
  have hword : absorb = sipWord := funext₂ absorb_eq_sipWord
  rw [hfinish, he.length_eq, he.tail_eq, he.state_eq, hinit, hword, siphash24,
    sipPad_append he.whole_mod he.rest_lt, List.foldl_append, List.foldl_cons, List.foldl_nil]

/-! ## Every read checked -/

variable {ε : Type}

/-- `load_int_le!` with its assertion: a read of `size` bytes may not leave the buffer. -/
def loadIntLe (buf : Bytes) (i size : ℕ) : Outcome ε UInt64 := do
  .require (i + size ≤ buf.length) .outOfBounds
  return UInt64.ofNat (leNat ((buf.drop i).take size))

/-- One of the three reads of `u8to64_le`, made if `size` bytes are left. -/
def readInto (buf : Bytes) (start len size : ℕ) (s : ℕ × UInt64) : Outcome ε (ℕ × UInt64) := do
  if s.1 + (size - 1) < len then
    let x ← loadIntLe buf (start + s.1) size
    return (s.1 + size, s.2 ||| (x <<< UInt64.ofNat (8 * s.1)))
  else return s

/-- `u8to64_le`, which reads four, two and one bytes. -/
def u8to64LeReads (buf : Bytes) (start len : ℕ) : Outcome ε UInt64 := do
  .require (len < 8) .assertion
  let s ← readInto buf start len 4 (0, 0)
  let s ← readInto buf start len 2 s
  let s ← readInto buf start len 1 s
  .require (s.1 = len) .assertion
  return s.2

def inputLoopReads (msg : Bytes) (stop : ℕ) : ℕ → ℕ → State → Outcome ε (ℕ × State)
  | 0, i, s => return (i, s)
  | fuel + 1, i, s => do
    if i < stop then
      let mi ← loadIntLe msg i 8
      inputLoopReads msg stop fuel (i + 8) (absorb s mi)
    else return (i, s)

/-- `HashEngine::input` behind the flushed tail. -/
def HashEngine.inputWordsReads (e : HashEngine) (msg : Bytes) (needed : ℕ) :
    Outcome ε HashEngine := do
  .require (needed ≤ msg.length) .overflow
  let len := msg.length - needed
  let left := len % 8
  let s ← inputLoopReads msg (len - left) msg.length needed e.state
  let tail ← u8to64LeReads msg s.1 left
  return { e with state := s.2, tail := tail, ntail := left }

/-- `HashEngine::input`, every read checked. -/
def HashEngine.inputReads (e : HashEngine) (msg : Bytes) : Outcome ε HashEngine := do
  let length := msg.length
  let total := e.length + length
  if e.ntail ≠ 0 then
    .require (e.ntail ≤ 8) .overflow
    let needed := 8 - e.ntail
    let low ← u8to64LeReads msg 0 (min length needed)
    let tail := e.tail ||| (low <<< UInt64.ofNat (8 * e.ntail))
    if length < needed then
      return { e with length := total, tail := tail, ntail := e.ntail + length }
    else
      HashEngine.inputWordsReads { e with
        length := total, state := absorb e.state tail, tail := tail, ntail := 0 } msg needed
  else HashEngine.inputWordsReads { e with length := total } msg 0

theorem loadIntLe_of {buf : Bytes} {i size : ℕ} (h : i + size ≤ buf.length) :
    (loadIntLe buf i size : Outcome ε UInt64) = .ok (u8to64Le buf i size) := by
  unfold loadIntLe
  rw [Outcome.require_of h]
  rfl

/-- Where a read of `size` bytes from position `i` on ends, if it is made. -/
def readEnd (len size i : ℕ) : ℕ := if i + (size - 1) < len then i + size else i

/-- A read adds its bytes to those read before it. -/
theorem readInto_eq {buf : Bytes} {start len : ℕ} (hlen : len < 8) (h : start + len ≤ buf.length)
    {size : ℕ} (hpos : 0 < size) (i : ℕ) :
    (readInto buf start len size (i, u8to64Le buf start i) : Outcome ε (ℕ × UInt64)) =
      .ok (readEnd len size i, u8to64Le buf start (readEnd len size i)) := by
  unfold readInto readEnd
  by_cases hread : i + (size - 1) < len
  · have hlow : ((buf.drop start).take i).length = i := by
      rw [List.length_take, List.length_drop]
      omega
    have hhigh : ((buf.drop (start + i)).take size).length ≤ size := List.length_take_le _ _
    have hjoin := ofNat_or_shiftLeft (x := (buf.drop start).take i)
      (y := (buf.drop (start + i)).take size) (by omega) (by omega)
    rw [hlow, ← List.drop_drop, ← List.take_add] at hjoin
    rw [if_pos hread, if_pos hread, loadIntLe_of (by omega), Outcome.ok_bind, u8to64Le, u8to64Le,
      ← List.drop_drop, hjoin]
    rfl
  · rw [if_neg hread, if_neg hread]
    rfl

/-- Four, two and one bytes, each if there are as many left, make up any length below eight. -/
theorem readEnd_readEnd {len : ℕ} (hlen : len < 8) :
    readEnd len 1 (readEnd len 2 (readEnd len 4 0)) = len := by
  unfold readEnd
  split_ifs <;> omega

theorem u8to64LeReads_eq {buf : Bytes} {start len : ℕ} (hlen : len < 8)
    (h : start + len ≤ buf.length) :
    (u8to64LeReads buf start len : Outcome ε UInt64) = .ok (u8to64Le buf start len) := by
  have hstart : (0 : UInt64) = u8to64Le buf start 0 := rfl
  unfold u8to64LeReads
  rw [Outcome.require_of hlen, Outcome.ok_bind, hstart, readInto_eq hlen h (by decide),
    Outcome.ok_bind, readInto_eq hlen h (by decide), Outcome.ok_bind,
    readInto_eq hlen h (by decide), Outcome.ok_bind, readEnd_readEnd hlen, Outcome.require_of rfl]
  rfl

/-- The loop reads inside the piece as long as its words end there. -/
theorem inputLoopReads_eq {msg : Bytes} {stop fuel i : ℕ} (s : State)
    (hread : ∀ j, i + 8 * j < stop → i + 8 * j + 8 ≤ msg.length) :
    (inputLoopReads msg stop fuel i s : Outcome ε (ℕ × State)) =
      .ok (inputLoop msg stop fuel i s) := by
  induction fuel generalizing i s with
  | zero => rfl
  | succ fuel ih =>
    unfold inputLoopReads inputLoop
    by_cases hstop : i < stop
    · have hfirst : i + 8 ≤ msg.length := hread 0 hstop
      rw [if_pos hstop, if_pos hstop, loadIntLe_of hfirst, Outcome.ok_bind]
      apply ih
      intro j hj
      have := hread (j + 1) (by omega)
      omega
    · rw [if_neg hstop, if_neg hstop]
      rfl

theorem HashEngine.inputWordsReads_eq (e : HashEngine) {msg : Bytes} {needed : ℕ}
    (hneeded : needed < 8) (hle : needed ≤ msg.length) :
    (e.inputWordsReads msg needed : Outcome ε HashEngine) = .ok { e with
      state := (wholeWords (msg.drop needed)).foldl absorb e.state
      tail := u8to64Le msg (needed + 8 * ((msg.length - needed) / 8)) ((msg.length - needed) % 8)
      ntail := (msg.length - needed) % 8 } := by
  unfold HashEngine.inputWordsReads
  rw [Outcome.require_of hle, Outcome.ok_bind]
  dsimp only
  rw [inputLoopReads_eq e.state (fun j hj => by omega), inputLoop_words msg hneeded hle,
    Outcome.ok_bind]
  dsimp only
  rw [u8to64LeReads_eq (Nat.mod_lt _ (by decide)) (by omega)]
  rfl

/-- No read of `input` leaves the piece, whatever the engine has taken in before. -/
theorem HashEngine.inputReads_eq {e : HashEngine} (he : e.ntail < 8) (msg : Bytes) :
    (e.inputReads msg : Outcome ε HashEngine) = .ok (e.input msg) := by
  unfold HashEngine.inputReads HashEngine.input
  by_cases hn : e.ntail ≠ 0
  · have hlow : min msg.length (8 - e.ntail) < 8 := by omega
    have hread : 0 + min msg.length (8 - e.ntail) ≤ msg.length := by omega
    simp only [if_pos hn]
    rw [Outcome.require_of (by omega), Outcome.ok_bind, u8to64LeReads_eq hlow hread, Outcome.ok_bind]
    by_cases hshort : msg.length < 8 - e.ntail
    · rw [if_pos hshort, if_pos ⟨hn, hshort⟩]
      rfl
    · rw [if_neg hshort, if_neg fun h => hshort h.2,
        HashEngine.inputWordsReads_eq _ (by omega) (by omega),
        inputLoop_words msg (by omega) (by omega)]
  · simp only [if_neg hn]
    rw [HashEngine.inputWordsReads_eq _ (by decide) (Nat.zero_le _), if_neg fun h => hn h.1,
      inputLoop_words msg (by decide) (Nat.zero_le _)]

theorem HashEngine.Represents.foldlM {k0 k1 : UInt64} {e : HashEngine} {whole rest : Bytes}
    (he : e.Represents k0 k1 whole rest) (pieces : List Bytes) :
    (pieces.foldlM HashEngine.inputReads e : Outcome ε HashEngine) =
      .ok (pieces.foldl HashEngine.input e) := by
  induction pieces generalizing e whole rest with
  | nil => rfl
  | cons piece pieces ih =>
    have hntail : e.ntail < 8 := by
      rw [he.ntail_eq]
      exact he.rest_lt
    obtain ⟨whole', rest', -, he'⟩ := he.input piece
    rw [List.foldlM_cons, HashEngine.inputReads_eq hntail, Outcome.ok_bind, ih he', List.foldl_cons]

theorem fromEngine_foldl (k0 k1 : UInt64) (pieces : List Bytes) :
    fromEngineToU64 (pieces.foldl HashEngine.input (.withKeys k0 k1)) =
      siphash24 k0 k1 pieces.flatten := by
  obtain ⟨whole, rest, hsplit, he⟩ := (HashEngine.withKeys_represents k0 k1).foldl pieces
  rw [he.finish, ← hsplit]
  rfl

/-- An engine that takes in a message piece by piece hashes it as in one piece, which is SipHash 2-4
of it, and reads nothing outside a piece on the way. -/
theorem fromEngine_pieces (k0 k1 : UInt64) (pieces : List Bytes) :
    fromEngineToU64 (pieces.foldl HashEngine.input (.withKeys k0 k1)) =
        hashToU64WithKeys k0 k1 pieces.flatten ∧
      hashToU64WithKeys k0 k1 pieces.flatten = siphash24 k0 k1 pieces.flatten ∧
      pieces.foldlM (m := Outcome Empty) HashEngine.inputReads (.withKeys k0 k1) =
        .ok (pieces.foldl HashEngine.input (.withKeys k0 k1)) := by
  have hwhole : hashToU64WithKeys k0 k1 pieces.flatten = siphash24 k0 k1 pieces.flatten := by
    have h := fromEngine_foldl k0 k1 [pieces.flatten]
    rw [List.flatten_singleton] at h
    exact h
  refine ⟨?_, hwhole, (HashEngine.withKeys_represents k0 k1).foldlM pieces⟩
  rw [hwhole, fromEngine_foldl]

/-- The first test vector, of the empty string under the keys of the reference implementation. -/
example : siphash24 0x0706050403020100 0x0f0e0d0c0b0a0908 [] = 0x726fdb47dd0e0e31 := by decide

end Siphash24

end RustDogecoin
