import RustDogecoin.Lib.BitString
import RustDogecoin.Lib.SortedScan
import RustDogecoin.Consensus.Encode
import RustDogecoin.Hashes.Siphash24
import Mathlib.Data.Finset.Card
import Mathlib.Data.List.Sort
import Mathlib.Data.Finset.Image

/-!
# Compact block filters

The Golomb-Rice coded sets of `bip158.rs`.  The writer maps the hashes of its elements to a range,
sorts them and writes their differences to a stream of bits; the reader decodes the stream while it
looks up the sorted hashes of a query.  Bit streams hold one byte that is partly written or read;
`BitStreamWriter.Holds` and `BitStreamReader.bits` say which bits that makes.
-/

namespace RustDogecoin

namespace Bip158

inductive IoError where
  | unexpectedEof
  | other (msg : String)
  deriving DecidableEq, Repr

/-- Errors for blockfilter. -/
inductive Error where
  | io (e : IoError)
  deriving DecidableEq, Repr

/-! ## Bit streams -/

/-- Bitwise stream writer, with what it has written. -/
structure BitStreamWriter where
  buffer : UInt8
  offset : ℕ
  writer : Bytes
  deriving DecidableEq, Repr

namespace BitStreamWriter

/-- Creates a new writer that writes bitwise to a given `writer`. -/
def new (writer : Bytes) : BitStreamWriter := ⟨0, 0, writer⟩

/-- Flush bits not yet written. -/
def flush (w : BitStreamWriter) : ℕ × BitStreamWriter :=
  if 0 < w.offset then (1, ⟨0, 0, w.writer ++ [w.buffer]⟩) else (0, w)

/-- The loop of `write`; every turn takes at least one bit off `nbits`. -/
def writeLoop (data : UInt64) : ℕ → ℕ → BitStreamWriter → ℕ × BitStreamWriter
  | 0, _, w => (0, w)
  | fuel + 1, nbits, w =>
    if 0 < nbits then
      let bits := min (8 - w.offset) nbits
      let piece := (data <<< UInt64.ofNat (64 - nbits)) >>> UInt64.ofNat (64 - 8 + w.offset)
      let w : BitStreamWriter := ⟨w.buffer ||| piece.toUInt8, w.offset + bits, w.writer⟩
      let (wrote, w) := if w.offset = 8 then w.flush else (0, w)
      let (more, w) := writeLoop data fuel (nbits - bits) w
      (wrote + more, w)
    else (0, w)

/-- Writes nbits bits from data. -/
def write (w : BitStreamWriter) (data : UInt64) (nbits : ℕ) : Outcome IoError (ℕ × BitStreamWriter) := do
  .ensure (nbits ≤ 64) (.other "can not write more than 64 bits at once")
  return writeLoop data nbits nbits w

end BitStreamWriter

/-- Bitwise stream reader, with what is left to read. -/
structure BitStreamReader where
  buffer : UInt8
  offset : ℕ
  reader : Bytes
  deriving DecidableEq, Repr

namespace BitStreamReader

/-- Creates a new reader that reads bitwise from a given `reader`. -/
def new (reader : Bytes) : BitStreamReader := ⟨0, 8, reader⟩

/-- The next byte goes into the buffer when the last one is used up. -/
def refill (r : BitStreamReader) : Outcome IoError BitStreamReader :=
  if r.offset = 8 then
    match r.reader with
    | [] => .err .unexpectedEof
    | b :: rest => return ⟨b, 0, rest⟩
  else return r

/-- The loop of `read`; every turn takes at least one bit off `nbits`. -/
def readLoop : ℕ → ℕ → UInt64 → BitStreamReader → Outcome IoError (UInt64 × BitStreamReader)
  | 0, _, data, r => return (data, r)
  | fuel + 1, nbits, data, r =>
    if 0 < nbits then do
      let r ← r.refill
      let bits := min (8 - r.offset) nbits
      let piece := (r.buffer <<< UInt8.ofNat r.offset) >>> UInt8.ofNat (8 - bits)
      let data := (data <<< UInt64.ofNat bits) ||| piece.toUInt64
      readLoop fuel (nbits - bits) data { r with offset := r.offset + bits }
    else return (data, r)

/-- Reads nbit bits, returning the bits in a `u64` starting with the rightmost bit. -/
def read (r : BitStreamReader) (nbits : ℕ) : Outcome IoError (UInt64 × BitStreamReader) := do
  .ensure (nbits ≤ 64) (.other "can not read more than 64 bits at once")
  readLoop nbits nbits 0 r

end BitStreamReader

/-! ## Golomb-Rice codes -/

/-- Golomb Coded Set Filter. -/
structure GcsFilter where
  k0 : UInt64
  k1 : UInt64
  p : ℕ

namespace GcsFilter

/-- Hashes an arbitrary slice with siphash using parameters of this filter. -/
def hash (f : GcsFilter) (element : Bytes) : UInt64 := Siphash24.hashToU64WithKeys f.k0 f.k1 element

/-- The loop that writes `q` ones, at most 64 at once. -/
def writeOnes : ℕ → ℕ → BitStreamWriter → Outcome IoError (ℕ × BitStreamWriter)
  | 0, _, w => return (0, w)
  | fuel + 1, q, w =>
    if 0 < q then do
      let nbits := min q 64
      let (wrote, w) ← w.write (~~~0) nbits
      let (more, w) ← writeOnes fuel (q - nbits) w
      return (wrote + more, w)
    else return (0, w)

/-- Golomb-Rice encodes a number `n` to a bit stream (parameter 2^k). -/
def golombRiceEncode (f : GcsFilter) (writer : BitStreamWriter) (n : ℕ) :
    Outcome IoError (ℕ × BitStreamWriter) := do
  .require (f.p < 64) .overflow
  let q := n / 2 ^ f.p
  let (ones, writer) ← writeOnes q q writer
  let (stop, writer) ← writer.write 0 1
  let (low, writer) ← writer.write (UInt64.ofNat n) f.p
  return (ones + stop + low, writer)

/-- The loop that counts ones; every turn reads a bit, so the bits run out before the fuel does. -/
def readOnes : ℕ → ℕ → BitStreamReader → Outcome IoError (ℕ × BitStreamReader)
  | 0, _, _ => .err .unexpectedEof
  | fuel + 1, q, r => do
    let (bit, r) ← r.read 1
    if bit = 1 then
      .require (q + 1 < 2 ^ 64) .overflow
      readOnes fuel (q + 1) r
    else return (q, r)

/-- Golomb-Rice decodes a number from a bit stream (parameter 2^k). -/
def golombRiceDecode (f : GcsFilter) (reader : BitStreamReader) :
    Outcome IoError (ℕ × BitStreamReader) := do
  let (q, reader) ← readOnes (8 * (reader.reader.length + 1) + 1) 0 reader
  let (r, reader) ← reader.read f.p
  .require (f.p < 64) .overflow
  let n := q * 2 ^ f.p % 2 ^ 64 + r.toNat
  .require (n < 2 ^ 64) .overflow
  return (n, reader)

end GcsFilter

/-- `sort_unstable` on integers. -/
def sortUnstable (l : List ℕ) : List ℕ := l.insertionSort (· ≤ ·)

/-- Fast reduction of hash to [0, nm) range. -/
def mapToRange (hash nm : ℕ) : ℕ := hash * nm / 2 ^ 64 % 2 ^ 64

/-! ## The filter -/

/-- Golomb-Rice encoded filter writer, with what it has written.  The elements are a set: `finish`
sorts what it maps them to, so the order in which they are kept does not matter. -/
structure GcsFilterWriter where
  filter : GcsFilter
  writer : Bytes
  elements : List Bytes
  m : UInt64

namespace GcsFilterWriter

/-- Creates a new writer wrapping a generic writer, with specific seed to siphash. -/
def new (writer : Bytes) (k0 k1 m : UInt64) (p : ℕ) : GcsFilterWriter := ⟨⟨k0, k1, p⟩, writer, [], m⟩

/-- Adds data to the filter. -/
def addElement (w : GcsFilterWriter) (element : Bytes) : GcsFilterWriter :=
  if element ≠ [] then { w with elements := w.elements.insert element } else w

/-- The loop of `finish` over the sorted values. -/
def finishLoop (f : GcsFilter) : List ℕ → ℕ → BitStreamWriter → Outcome IoError (ℕ × BitStreamWriter)
  | [], _, w => return (0, w)
  | data :: mapped, last, w => do
    .require (last ≤ data) .overflow
    let (wrote, w) ← f.golombRiceEncode w (data - last)
    let (more, w) ← finishLoop f mapped data w
    return (wrote + more, w)

/-- Writes the filter to the wrapped writer. -/
def finish (w : GcsFilterWriter) : Outcome IoError (ℕ × Bytes) := do
  .require (w.elements.length * w.m.toNat < 2 ^ 64) .overflow
  let nm := w.elements.length * w.m.toNat
  let mapped := sortUnstable (w.elements.map fun e => mapToRange (w.filter.hash e).toNat nm)
  let count ← .lift (encodeLen mapped.length)
  let (wrote, bw) ← finishLoop w.filter mapped 0 (.new (w.writer ++ count.bytes))
  let (last, bw) := bw.flush
  return (count.len + wrote + last, bw.writer)

end GcsFilterWriter

/-- Golomb-Rice encoded filter reader. -/
structure GcsFilterReader where
  filter : GcsFilter
  m : UInt64

/-- `Vec::dedup`. -/
def dedup : List ℕ → List ℕ
  | [] => []
  | [x] => [x]
  | x :: y :: l => if x = y then dedup (y :: l) else x :: dedup (y :: l)

namespace GcsFilterReader

/-- Creates a new reader with specific seed to siphash. -/
def new (k0 k1 m : UInt64) (p : ℕ) : GcsFilterReader := ⟨⟨k0, k1, p⟩, m⟩

/-- The number of elements; what cannot be read counts as zero. -/
def readCount (reader : Bytes) : Outcome Error (ℕ × Bytes) :=
  match VarInt.consensusDecode.run reader with
  | .ok (nElements, rest) => .ok (nElements.val.toNat, rest)
  | .err _ => .ok (0, [])
  | .panic p => .panic p

/-- The inner loop of both functions: read on while `data` is below `p`.  There is no result if the
stream ends before. -/
def seek (f : GcsFilter) (p : ℕ) : ℕ → ℕ → BitStreamReader →
    Outcome IoError (Option (ℕ × ℕ × BitStreamReader))
  | 0, data, r => return if data < p then none else some (data, 0, r)
  | remaining + 1, data, r =>
    if data < p then do
      let (delta, r) ← f.golombRiceDecode r
      .require (data + delta < 2 ^ 64) .overflow
      seek f p remaining (data + delta) r
    else return some (data, remaining + 1, r)

/-- The loop of `match_any` over the sorted queries. -/
def matchAnyLoop (f : GcsFilter) : List ℕ → ℕ → ℕ → BitStreamReader → Outcome IoError Bool
  | [], _, _, _ => return false
  | p :: mapped, remaining, data, r => do
    match ← seek f p remaining data r with
    | none => return false
    | some (data, remaining, r) =>
      if data = p then return true else matchAnyLoop f mapped remaining data r

/-- The loop of `match_all` over the sorted queries. -/
def matchAllLoop (f : GcsFilter) : List ℕ → ℕ → ℕ → BitStreamReader → Outcome IoError Bool
  | [], _, _, _ => return true
  | p :: mapped, remaining, data, r => do
    match ← seek f p remaining data r with
    | none => return false
    | some (data, remaining, r) =>
      if data = p then matchAllLoop f mapped remaining data r else return false

/-- The hashes of a query in the range of the filter, sorted. -/
def mapQuery (r : GcsFilterReader) (nElements : ℕ) (query : List Bytes) : Outcome Error (List ℕ) := do
  .require (nElements * r.m.toNat < 2 ^ 64) .overflow
  return sortUnstable (query.map fun e => mapToRange (r.filter.hash e).toNat (nElements * r.m.toNat))

/-- Returns true if any query matches against this reader. -/
def matchAny (r : GcsFilterReader) (reader : Bytes) (query : List Bytes) : Outcome Error Bool := do
  let (nElements, rest) ← readCount reader
  let mapped ← r.mapQuery nElements query
  if mapped = [] then return true
  else if nElements = 0 then return false
  else .mapErr .io do
    let (data, bits) ← r.filter.golombRiceDecode (.new rest)
    matchAnyLoop r.filter mapped (nElements - 1) data bits

/-- Returns true if all queries match against this reader. -/
def matchAll (r : GcsFilterReader) (reader : Bytes) (query : List Bytes) : Outcome Error Bool := do
  let (nElements, rest) ← readCount reader
  let mapped ← r.mapQuery nElements query
  let mapped := dedup mapped
  if mapped = [] then return true
  else if nElements = 0 then return false
  else .mapErr .io do
    let (data, bits) ← r.filter.golombRiceDecode (.new rest)
    matchAllLoop r.filter mapped (nElements - 1) data bits

end GcsFilterReader

/-! ## What the bit streams hold -/

open BitString

/-- The piece of `data` that `write` adds to the buffer: its first bits, followed by zeros. -/
theorem piece_eq (data : UInt64) {n o k : ℕ} (hn : 0 < n) (hn' : n ≤ 64) (ho : o < 8)
    (hk : k = min (8 - o) n) :
    (((data <<< UInt64.ofNat (64 - n)) >>> UInt64.ofNat (64 - 8 + o)).toUInt8).toNat =
      ofBits (toBits k (data.toNat / 2 ^ (n - k)) ++ List.replicate (8 - o - k) false) := by
  have hlt : 64 - n < 64 := by omega
  have hleft : (UInt64.ofNat (64 - n)).toNat = 64 - n := UInt64.toNat_ofNat_of_lt' (lt_of_lt_of_le hlt (by decide))
  have hright : (UInt64.ofNat (64 - 8 + o)).toNat = 56 + o :=
    UInt64.toNat_ofNat_of_lt' (lt_of_lt_of_le (by omega : 56 + o < 64) (by decide))
  have hwidth : 2 ^ 64 = 2 ^ (56 + o) * 2 ^ (8 - o) := by
    rw [← pow_add]
    congr 1
    omega
  have hbyte : data.toNat * 2 ^ (64 - n) / 2 ^ (56 + o) % 2 ^ (8 - o) < 256 :=
    lt_of_lt_of_le (Nat.mod_lt _ (Nat.two_pow_pos _))
      (Nat.pow_le_pow_right (by omega) (by omega : 8 - o ≤ 8))
  rw [UInt64.toNat_toUInt8, UInt64.toNat_shiftRight, UInt64.toNat_shiftLeft, hleft, hright,
    Nat.mod_eq_of_lt (by omega : 64 - n < 64), Nat.mod_eq_of_lt (by omega : 56 + o < 64),
    Nat.shiftLeft_eq, Nat.shiftRight_eq_div_pow, hwidth, Nat.mod_mul_right_div_self,
    Nat.mod_eq_of_lt hbyte, ofBits_append, ofBits_toBits, ofBits_replicate_false,
    List.length_replicate, Nat.add_zero]
  by_cases h : n ≤ 8 - o
  · obtain rfl : k = n := by omega
    have hpow : 2 ^ (64 - k) = 2 ^ (8 - o - k) * 2 ^ (56 + o) := by
      rw [← pow_add]
      congr 1
      omega
    have hpow' : 2 ^ (8 - o) = 2 ^ k * 2 ^ (8 - o - k) := by
      rw [← pow_add]
      congr 1
      omega
    rw [hpow, ← Nat.mul_assoc, Nat.mul_div_cancel _ (Nat.two_pow_pos _), hpow', Nat.mul_mod_mul_right,
      Nat.sub_self, pow_zero, Nat.div_one]
  · obtain rfl : k = 8 - o := by omega
    have hpow : 2 ^ (56 + o) = 2 ^ (n - (8 - o)) * 2 ^ (64 - n) := by
      rw [← pow_add]
      congr 1
      omega
    rw [hpow, Nat.mul_div_mul_right _ _ (Nat.two_pow_pos _), Nat.sub_self, pow_zero, Nat.mul_one]

namespace BitStreamWriter

/-- The writer has written `bits` behind `pre`: whole bytes, and a part of one in the buffer. -/
def Holds (w : BitStreamWriter) (pre : Bytes) (bits : List Bool) : Prop :=
  ∃ full part, w.writer = pre ++ full ∧ bits = unpack full ++ part ∧ w.offset = part.length ∧
    part.length < 8 ∧ w.buffer.toNat = ofBits (part ++ List.replicate (8 - part.length) false)

theorem holds_new (pre : Bytes) : (new pre).Holds pre [] :=
  ⟨[], [], by simp [new], rfl, rfl, by simp, (ofBits_replicate_false 8).symm⟩

/-- A byte that has been filled. -/
theorem byteBits_of_toNat {b : UInt8} {part : List Bool} (hlen : part.length = 8)
    (h : b.toNat = ofBits part) : byteBits b = part := by
  rw [byteBits, h, toBits_ofBits hlen]

theorem unpack_concat (bs : Bytes) (b : UInt8) : unpack (bs ++ [b]) = unpack bs ++ byteBits b := by
  simp [unpack]

/-- The zeros at the end of the buffer give way to the new bits. -/
theorem buffer_or {buffer piece : UInt8} {part more : List Bool}
    (hlen : part.length + more.length ≤ 8)
    (hb : buffer.toNat = ofBits (part ++ List.replicate (8 - part.length) false))
    (hp : piece.toNat = ofBits (more ++ List.replicate (8 - part.length - more.length) false)) :
    (buffer ||| piece).toNat =
      ofBits ((part ++ more) ++ List.replicate (8 - (part ++ more).length) false) := by
  have hroom : (more ++ List.replicate (8 - part.length - more.length) false).length =
      8 - part.length := by
    simp
    omega
  have hzeros : 8 - (part ++ more).length = 8 - part.length - more.length := by
    rw [List.length_append, Nat.sub_sub]
  have hlt := ofBits_lt (more ++ List.replicate (8 - part.length - more.length) false)
  rw [hroom] at hlt
  rw [UInt8.toNat_or, hb, hp, ofBits_append part, ofBits_replicate_false, List.length_replicate,
    Nat.add_zero, shift_or_eq _ _ _ hlt, hzeros, List.append_assoc, ofBits_append part, hroom]

/-- A full buffer is written out. -/
theorem holds_flush_if {w : BitStreamWriter} {pre full : Bytes} {part : List Bool}
    (hwriter : w.writer = pre ++ full) (hoffset : w.offset = part.length) (hpart : part.length ≤ 8)
    (hbuffer : w.buffer.toNat = ofBits (part ++ List.replicate (8 - part.length) false)) :
    (if w.offset = 8 then w.flush else (0, w)).2.Holds pre (unpack full ++ part) ∧
      (if w.offset = 8 then w.flush else (0, w)).2.writer.length =
        w.writer.length + (if w.offset = 8 then w.flush else (0, w)).1 := by
  split_ifs with h
  · have hlen : part.length = 8 := by omega
    rw [hlen, Nat.sub_self, List.replicate_zero, List.append_nil] at hbuffer
    rw [flush, if_pos (by omega)]
    refine ⟨⟨full ++ [w.buffer], [], by simp [hwriter], ?_, rfl, by simp, (ofBits_replicate_false 8).symm⟩, by simp⟩
    rw [unpack_concat, byteBits_of_toNat hlen hbuffer, List.append_nil]
  · exact ⟨⟨full, part, hwriter, rfl, hoffset, by omega, hbuffer⟩, rfl⟩

/-- `write` appends the low bits of its data. -/
theorem Holds.writeLoop {w : BitStreamWriter} {pre : Bytes} {bits : List Bool} (hw : w.Holds pre bits)
    (data : UInt64) {fuel nbits : ℕ} (hfuel : nbits ≤ fuel) (hn : nbits ≤ 64) :
    (writeLoop data fuel nbits w).2.Holds pre (bits ++ toBits nbits data.toNat) ∧
      (writeLoop data fuel nbits w).2.writer.length =
        w.writer.length + (writeLoop data fuel nbits w).1 := by
  induction fuel generalizing w bits nbits with
  | zero =>
    obtain rfl : nbits = 0 := by omega
    exact ⟨by simpa [toBits, BitStreamWriter.writeLoop] using hw, rfl⟩
  | succ fuel ih =>
    rw [BitStreamWriter.writeLoop]
    split_ifs with hpos
    · obtain ⟨full, part, hwriter, rfl, hoffset, hpart, hbuffer⟩ := hw
      set k := min (8 - w.offset) nbits with hk
      have hsplit := toBits_add k (nbits - k) data.toNat
      rw [Nat.add_sub_cancel' (by omega)] at hsplit
      have hpiece := piece_eq data hpos hn (by omega) hk
      set more := toBits k (data.toNat / 2 ^ (nbits - k))
      have hmore : more.length = k := length_toBits _ _
      have hsum : part.length + more.length ≤ 8 := by omega
      have hzeros : 8 - w.offset - k = 8 - part.length - more.length := by rw [hoffset, hmore]
      rw [hzeros] at hpiece
      have hbuffer' := buffer_or hsum hbuffer hpiece
      obtain ⟨hflush, hcount⟩ := holds_flush_if (w := ⟨_, w.offset + k, w.writer⟩) hwriter
        (by simp [hmore, hoffset]) (by simp; omega) hbuffer'
      obtain ⟨hrest, hcount'⟩ := ih hflush (by omega : nbits - k ≤ fuel) (by omega)
      rw [List.append_assoc (unpack full), List.append_assoc part, ← hsplit] at hrest
      rw [hcount] at hcount'
      rw [List.append_assoc]
      exact ⟨hrest, hcount'.trans (Nat.add_assoc _ _ _)⟩
    · obtain rfl : nbits = 0 := by omega
      exact ⟨by simpa [toBits] using hw, rfl⟩

theorem Holds.write {w : BitStreamWriter} {pre : Bytes} {bits : List Bool} (hw : w.Holds pre bits)
    (data : UInt64) {nbits : ℕ} (hn : nbits ≤ 64) :
    ∃ wrote w', w.write data nbits = .ok (wrote, w') ∧ w'.Holds pre (bits ++ toBits nbits data.toNat) ∧
      w'.writer.length = w.writer.length + wrote := by
  refine ⟨_, _, ?_, hw.writeLoop data le_rfl hn⟩
  rw [BitStreamWriter.write, Outcome.ensure_of hn]
  rfl

/-- After `flush` the bits are whole bytes, with zeros at the end. -/
theorem Holds.flush {w : BitStreamWriter} {pre : Bytes} {bits : List Bool} (hw : w.Holds pre bits) :
    ∃ out pad, w.flush.2.writer = pre ++ out ∧ unpack out = bits ++ List.replicate pad false ∧
      w.flush.2.writer.length = w.writer.length + w.flush.1 := by
  obtain ⟨full, part, hwriter, rfl, hoffset, hpart, hbuffer⟩ := hw
  unfold BitStreamWriter.flush
  split_ifs with h
  · refine ⟨full ++ [w.buffer], 8 - part.length, by simp [hwriter], ?_, by simp⟩
    rw [unpack_concat, byteBits_of_toNat (by simp; omega) hbuffer, List.append_assoc]
  · obtain rfl : part = [] := List.length_eq_zero_iff.1 (by omega)
    exact ⟨full, 0, hwriter, by simp, rfl⟩

end BitStreamWriter

namespace BitStreamReader

/-- The bits that are left to read. -/
def bits (r : BitStreamReader) : List Bool := (byteBits r.buffer).drop r.offset ++ unpack r.reader

theorem bits_new (reader : Bytes) : (new reader).bits = unpack reader := by
  rw [bits, new, List.drop_of_length_le (by simp), List.nil_append]

theorem length_bits (r : BitStreamReader) : r.bits.length = 8 - r.offset + 8 * r.reader.length := by
  have hunpack : (unpack r.reader).length = 8 * r.reader.length := by
    simp [unpack, List.map_const', Nat.mul_comm]
  rw [bits, List.length_append, List.length_drop, length_byteBits, hunpack]

theorem length_bits_le (r : BitStreamReader) : r.bits.length ≤ 8 * (r.reader.length + 1) := by
  rw [length_bits]
  omega

/-- With bits left to read there is one in the buffer after `refill`. -/
theorem refill_eq_ok {r : BitStreamReader} (hoffset : r.offset ≤ 8) (hbits : 0 < r.bits.length) :
    ∃ r', r.refill = .ok r' ∧ r'.bits = r.bits ∧ r'.offset < 8 := by
  unfold refill
  split_ifs with h
  · have hdrop : (byteBits r.buffer).drop r.offset = [] := List.drop_of_length_le (by simp [h])
    cases hr : r.reader with
    | nil => simp [bits, hdrop, hr, unpack] at hbits
    | cons b rest => exact ⟨⟨b, 0, rest⟩, rfl, by simp [bits, hdrop, hr, unpack], by simp⟩
  · exact ⟨r, rfl, rfl, by omega⟩

/-- Moving on inside the buffer drops bits. -/
theorem bits_advance (r : BitStreamReader) {k : ℕ} (h : k ≤ 8 - r.offset) :
    (⟨r.buffer, r.offset + k, r.reader⟩ : BitStreamReader).bits = r.bits.drop k := by
  have hbuffer : k ≤ ((byteBits r.buffer).drop r.offset).length := by simpa using h
  rw [bits, bits, List.drop_append_of_le_length hbuffer, List.drop_drop]

/-- The piece of the buffer that `read` takes. -/
theorem piece_eq (b : UInt8) {o k : ℕ} (hk : 0 < k) (hok : o + k ≤ 8) :
    ((b <<< UInt8.ofNat o) >>> UInt8.ofNat (8 - k)).toNat = ofBits (((byteBits b).drop o).take k) := by
  have hleft : (UInt8.ofNat o).toNat = o :=
    UInt8.toNat_ofNat_of_lt' (lt_of_lt_of_le (by omega : o < 8) (by decide))
  have hright : (UInt8.ofNat (8 - k)).toNat = 8 - k :=
    UInt8.toNat_ofNat_of_lt' (lt_of_lt_of_le (by omega : 8 - k < 8) (by decide))
  have hmiddle := ofBits_middle o k (8 - o - k) b.toNat
  rw [(by omega : o + k + (8 - o - k) = 8)] at hmiddle
  have hwidth : 2 ^ 8 = 2 ^ (8 - k) * 2 ^ k := by
    rw [← pow_add]
    congr 1
    omega
  have hpow : 2 ^ (8 - k) = 2 ^ (8 - o - k) * 2 ^ o := by
    rw [← pow_add]
    congr 1
    omega
  rw [byteBits, hmiddle, UInt8.toNat_shiftRight, UInt8.toNat_shiftLeft, hleft, hright,
    Nat.mod_eq_of_lt (by omega : o < 8), Nat.mod_eq_of_lt (by omega : 8 - k < 8), Nat.shiftLeft_eq,
    Nat.shiftRight_eq_div_pow, hwidth, Nat.mod_mul_right_div_self, hpow,
    Nat.mul_div_mul_right _ _ (Nat.two_pow_pos _)]

/-- The bits read so far are moved up and the new ones put behind them. -/
theorem shift_or_piece {data : UInt64} {piece : UInt8} {l m : List Bool} (hdata : data.toNat = ofBits l)
    (hpiece : piece.toNat = ofBits m) (hlen : l.length + m.length ≤ 64) (hm : m.length < 64) :
    ((data <<< UInt64.ofNat m.length) ||| piece.toUInt64).toNat = ofBits (l ++ m) := by
  have hshift : (UInt64.ofNat m.length).toNat = m.length :=
    UInt64.toNat_ofNat_of_lt' (lt_of_lt_of_le hm (by decide))
  have hlt : ofBits l * 2 ^ m.length < 2 ^ 64 := by
    calc ofBits l * 2 ^ m.length < 2 ^ l.length * 2 ^ m.length :=
          Nat.mul_lt_mul_of_pos_right (ofBits_lt l) (Nat.two_pow_pos _)
      _ = 2 ^ (l.length + m.length) := (pow_add _ _ _).symm
      _ ≤ 2 ^ 64 := Nat.pow_le_pow_right (by omega) hlen
  rw [UInt64.toNat_or, UInt64.toNat_shiftLeft, hshift, Nat.mod_eq_of_lt hm, Nat.shiftLeft_eq, hdata,
    Nat.mod_eq_of_lt hlt, UInt8.toNat_toUInt64, hpiece, shift_or_eq _ _ _ (ofBits_lt m), ofBits_append]

/-- `read` takes the next bits off the stream. -/
theorem readLoop_eq_ok {r : BitStreamReader} {data : UInt64} {l : List Bool} {fuel nbits : ℕ}
    (hoffset : r.offset ≤ 8) (hbits : nbits ≤ r.bits.length) (hdata : data.toNat = ofBits l)
    (hlen : l.length + nbits ≤ 64) (hfuel : nbits ≤ fuel) :
    ∃ v r', readLoop fuel nbits data r = .ok (v, r') ∧ v.toNat = ofBits (l ++ r.bits.take nbits) ∧
      r'.bits = r.bits.drop nbits ∧ r'.offset ≤ 8 := by
  induction fuel generalizing r data l nbits with
  | zero =>
    obtain rfl : nbits = 0 := by omega
    exact ⟨data, r, rfl, by simpa using hdata, by simp, hoffset⟩
  | succ fuel ih =>
    rw [readLoop]
    split_ifs with hpos
    · obtain ⟨r₁, hrefill, hsame, hlt⟩ := refill_eq_ok hoffset (by omega)
      rw [hrefill, Outcome.ok_bind, ← hsame]
      rw [← hsame] at hbits
      set k := min (8 - r₁.offset) nbits with hk
      have hbuffer : k ≤ ((byteBits r₁.buffer).drop r₁.offset).length := by simp; omega
      have htake : r₁.bits.take k = ((byteBits r₁.buffer).drop r₁.offset).take k :=
        List.take_append_of_le_length hbuffer
      have hdrop := r₁.bits_advance (by omega : k ≤ 8 - r₁.offset)
      have hpiece := piece_eq r₁.buffer (by omega : 0 < k) (by omega : r₁.offset + k ≤ 8)
      rw [← htake] at hpiece
      have hmlen : (r₁.bits.take k).length = k := by
        rw [List.length_take]
        omega
      have hdata' := shift_or_piece hdata hpiece (by omega) (by omega)
      rw [hmlen] at hdata'
      obtain ⟨v, r₂, hrun, hval, hrest, hoff⟩ := ih (r := ⟨r₁.buffer, r₁.offset + k, r₁.reader⟩)
        (by simp only; omega) (by rw [hdrop, List.length_drop]; omega) hdata'
        (by rw [List.length_append, hmlen]; omega) (by omega : nbits - k ≤ fuel)
      have hsplit : k + (nbits - k) = nbits := by omega
      refine ⟨v, r₂, hrun, ?_, ?_, hoff⟩
      · rw [hval, hdrop, List.append_assoc, ← List.take_add, hsplit]
      · rw [hrest, hdrop, List.drop_drop, hsplit]
    · obtain rfl : nbits = 0 := by omega
      exact ⟨data, r, rfl, by simpa using hdata, by simp, hoffset⟩

theorem read_eq_ok {r : BitStreamReader} {nbits : ℕ} (hoffset : r.offset ≤ 8)
    (hbits : nbits ≤ r.bits.length) (hn : nbits ≤ 64) :
    ∃ v r', r.read nbits = .ok (v, r') ∧ v.toNat = ofBits (r.bits.take nbits) ∧
      r'.bits = r.bits.drop nbits ∧ r'.offset ≤ 8 := by
  rw [read, Outcome.ensure_of hn, Outcome.ok_bind]
  exact readLoop_eq_ok hoffset hbits (l := []) rfl (by simpa using hn) le_rfl

/-- `read` ends when it comes to the end of the stream. -/
theorem readLoop_eq_err {r : BitStreamReader} {data : UInt64} {fuel nbits : ℕ} (hoffset : r.offset ≤ 8)
    (hbits : r.bits.length < nbits) (hfuel : nbits ≤ fuel) :
    readLoop fuel nbits data r = .err .unexpectedEof := by
  induction fuel generalizing r data nbits with
  | zero => omega
  | succ fuel ih =>
    rw [readLoop, if_pos (by omega)]
    by_cases hpos : 0 < r.bits.length
    · obtain ⟨r₁, hrefill, hsame, hlt⟩ := refill_eq_ok hoffset hpos
      rw [hrefill, Outcome.ok_bind]
      rw [← hsame] at hbits hpos
      have hdrop := r₁.bits_advance (by omega : min (8 - r₁.offset) nbits ≤ 8 - r₁.offset)
      have hlen := r₁.length_bits
      refine ih (by simp only; omega) ?_ (by omega)
      rw [hdrop, List.length_drop]
      omega
    · have hlen := r.length_bits
      have hempty : r.reader = [] := List.length_eq_zero_iff.1 (by omega)
      rw [refill, if_pos (by omega), hempty]
      rfl

theorem read_eq_err {r : BitStreamReader} {nbits : ℕ} (hoffset : r.offset ≤ 8)
    (hbits : r.bits.length < nbits) (hn : nbits ≤ 64) : r.read nbits = .err .unexpectedEof := by
  rw [read, Outcome.ensure_of hn, Outcome.ok_bind]
  exact readLoop_eq_err hoffset hbits le_rfl

/-- `read` on a stream that starts with the given bits. -/
theorem read_append {r : BitStreamReader} {l rest : List Bool} (hoffset : r.offset ≤ 8)
    (hbits : r.bits = l ++ rest) (hn : l.length ≤ 64) :
    ∃ v r', r.read l.length = .ok (v, r') ∧ v.toNat = ofBits l ∧ r'.bits = rest ∧ r'.offset ≤ 8 := by
  have hle : l.length ≤ r.bits.length := by simp [hbits]
  obtain ⟨v, r', hrun, hval, hrest, hoff⟩ := read_eq_ok hoffset hle hn
  rw [hbits, List.take_left] at hval
  rw [hbits, List.drop_left] at hrest
  exact ⟨v, r', hrun, hval, hrest, hoff⟩

end BitStreamReader

/-! ## What the codes stand for -/

/-- The Golomb-Rice code of `n`: the high part in ones, a zero, and the low bits. -/
def golombRiceBits (p n : ℕ) : List Bool := List.replicate (n / 2 ^ p) true ++ false :: toBits p n

theorem toBits_ones {n : ℕ} (hn : n ≤ 64) : toBits n (~~~(0 : UInt64)).toNat = List.replicate n true := by
  have hones : (~~~(0 : UInt64)).toNat = 2 ^ 64 - 1 := by decide
  rw [hones]
  induction n with
  | zero => rfl
  | succ n ih =>
    rw [toBits, ih (by omega), Nat.testBit_two_pow_sub_one, decide_eq_true (by omega), List.replicate_succ]

namespace GcsFilter

variable {f : GcsFilter} {w : BitStreamWriter} {pre : Bytes} {bits : List Bool}

theorem writeOnes_eq_ok (hw : w.Holds pre bits) {fuel q : ℕ} (hfuel : q ≤ fuel) :
    ∃ wrote w', writeOnes fuel q w = .ok (wrote, w') ∧ w'.Holds pre (bits ++ List.replicate q true) ∧
      w'.writer.length = w.writer.length + wrote := by
  induction fuel generalizing w bits q with
  | zero =>
    obtain rfl : q = 0 := by omega
    exact ⟨0, w, rfl, by simpa using hw, rfl⟩
  | succ fuel ih =>
    rw [writeOnes]
    split_ifs with hpos
    · obtain ⟨n₁, w₁, hwrite, hw₁, hlen₁⟩ := hw.write (~~~0) (by omega : min q 64 ≤ 64)
      obtain ⟨n₂, w₂, hrest, hw₂, hlen₂⟩ := ih hw₁ (by omega : q - min q 64 ≤ fuel)
      rw [toBits_ones (by omega), List.append_assoc, List.replicate_append_replicate,
        (by omega : min q 64 + (q - min q 64) = q)] at hw₂
      refine ⟨n₁ + n₂, w₂, ?_, hw₂, by omega⟩
      simp only [hwrite, Outcome.ok_bind, hrest, Outcome.pure_eq_ok]
    · obtain rfl : q = 0 := by omega
      exact ⟨0, w, rfl, by simpa using hw, rfl⟩

theorem golombRiceEncode_eq_ok (hw : w.Holds pre bits) (hp : f.p < 64) {n : ℕ} (hn : n < 2 ^ 64) :
    ∃ wrote w', f.golombRiceEncode w n = .ok (wrote, w') ∧
      w'.Holds pre (bits ++ golombRiceBits f.p n) ∧ w'.writer.length = w.writer.length + wrote := by
  obtain ⟨n₁, w₁, hones, hw₁, hlen₁⟩ := writeOnes_eq_ok hw (le_refl (n / 2 ^ f.p))
  obtain ⟨n₂, w₂, hstop, hw₂, hlen₂⟩ := hw₁.write 0 (by omega : 1 ≤ 64)
  obtain ⟨n₃, w₃, hlow, hw₃, hlen₃⟩ := hw₂.write (UInt64.ofNat n) hp.le
  refine ⟨n₁ + n₂ + n₃, w₃, ?_, ?_, by omega⟩
  · rw [golombRiceEncode, Outcome.require_of hp, Outcome.ok_bind]
    simp only [hones, Outcome.ok_bind, hstop, hlow, Outcome.pure_eq_ok]
  · rw [UInt64.toNat_ofNat_of_lt' hn] at hw₃
    simpa [golombRiceBits, toBits] using hw₃

/-- A zero or a one read from the stream. -/
theorem read_bit {r : BitStreamReader} {b : Bool} {rest : List Bool} (hoffset : r.offset ≤ 8)
    (hbits : r.bits = b :: rest) :
    ∃ r', r.read 1 = .ok (if b then 1 else 0, r') ∧ r'.bits = rest ∧ r'.offset ≤ 8 := by
  obtain ⟨v, r', hrun, hval, hrest, hoff⟩ :=
    BitStreamReader.read_append (l := [b]) hoffset hbits (by simp)
  refine ⟨r', ?_, hrest, hoff⟩
  have hv : v = if b then 1 else 0 := by
    rw [← UInt64.toNat_inj, hval]
    cases b <;> rfl
  rw [← hv]
  exact hrun

theorem readOnes_eq_ok {r : BitStreamReader} {rest : List Bool} {q q₀ fuel : ℕ} (hoffset : r.offset ≤ 8)
    (hbits : r.bits = List.replicate q true ++ false :: rest) (hq : q₀ + q < 2 ^ 64) (hfuel : q < fuel) :
    ∃ r', readOnes fuel q₀ r = .ok (q₀ + q, r') ∧ r'.bits = rest ∧ r'.offset ≤ 8 := by
  induction q generalizing r q₀ fuel with
  | zero =>
    obtain ⟨fuel, rfl⟩ := Nat.exists_eq_succ_of_ne_zero (by omega : fuel ≠ 0)
    obtain ⟨r', hrun, hrest, hoff⟩ := read_bit hoffset hbits
    refine ⟨r', ?_, hrest, hoff⟩
    rw [readOnes, hrun]
    rfl
  | succ q ih =>
    obtain ⟨fuel, rfl⟩ := Nat.exists_eq_succ_of_ne_zero (by omega : fuel ≠ 0)
    obtain ⟨r₁, hrun, hrest, hoff⟩ := read_bit hoffset hbits
    obtain ⟨r', hrun', hrest', hoff'⟩ := ih hoff hrest (by omega : q₀ + 1 + q < 2 ^ 64)
      (by omega : q < fuel)
    refine ⟨r', ?_, hrest', hoff'⟩
    rw [readOnes, hrun]
    simp only [Outcome.ok_bind, if_true]
    rw [Outcome.require_of (by omega), Outcome.ok_bind, hrun', Nat.add_right_comm, Nat.add_assoc]

theorem golombRiceDecode_eq_ok {r : BitStreamReader} {rest : List Bool} {n : ℕ} (hp : f.p < 64)
    (hn : n < 2 ^ 64) (hoffset : r.offset ≤ 8) (hbits : r.bits = golombRiceBits f.p n ++ rest) :
    ∃ r', f.golombRiceDecode r = .ok (n, r') ∧ r'.bits = rest ∧ r'.offset ≤ 8 := by
  have hhigh : n / 2 ^ f.p < 2 ^ 64 := lt_of_le_of_lt (Nat.div_le_self _ _) hn
  rw [golombRiceBits, List.append_assoc, List.cons_append] at hbits
  have hfuel : n / 2 ^ f.p < 8 * (r.reader.length + 1) + 1 := by
    have hle := r.length_bits_le
    rw [hbits, List.length_append, List.length_replicate] at hle
    omega
  obtain ⟨r₁, hones, hrest₁, hoff₁⟩ := readOnes_eq_ok hoffset hbits (by omega : 0 + _ < 2 ^ 64) hfuel
  obtain ⟨v, r₂, hlow, hval, hrest₂, hoff₂⟩ := BitStreamReader.read_append hoff₁ hrest₁
    (by rw [length_toBits]; omega)
  rw [length_toBits] at hlow
  refine ⟨r₂, ?_, hrest₂, hoff₂⟩
  have hsum : (0 + n / 2 ^ f.p) * 2 ^ f.p % 2 ^ 64 + v.toNat = n := by
    have hdiv := Nat.div_add_mod n (2 ^ f.p)
    have hle : n / 2 ^ f.p * 2 ^ f.p ≤ n := Nat.div_mul_le_self _ _
    rw [Nat.zero_add, hval, ofBits_toBits, Nat.mod_eq_of_lt (by omega), Nat.mul_comm]
    exact hdiv
  rw [golombRiceDecode, hones]
  simp only [Outcome.ok_bind, hlow, hsum]
  rw [Outcome.require_of hp, Outcome.ok_bind, Outcome.require_of hn]
  rfl

end GcsFilter

/-! ## The stream of differences -/

/-- The codes of the differences of a sorted list. -/
def deltaBits (p : ℕ) : ℕ → List ℕ → List Bool
  | _, [] => []
  | last, v :: vs => golombRiceBits p (v - last) ++ deltaBits p v vs

theorem GcsFilterWriter.finishLoop_eq_ok {f : GcsFilter} {w : BitStreamWriter} {pre : Bytes}
    {bits : List Bool} (hp : f.p < 64) (hw : w.Holds pre bits) {last : ℕ} {vs : List ℕ}
    (hsorted : (last :: vs).Pairwise (· ≤ ·)) (hlt : ∀ v ∈ vs, v < 2 ^ 64) :
    ∃ wrote w', finishLoop f vs last w = .ok (wrote, w') ∧ w'.Holds pre (bits ++ deltaBits f.p last vs) ∧
      w'.writer.length = w.writer.length + wrote := by
  induction vs generalizing last w bits with
  | nil => exact ⟨0, w, rfl, by simpa [deltaBits] using hw, rfl⟩
  | cons v vs ih =>
    rw [List.pairwise_cons] at hsorted
    have hv := hlt v List.mem_cons_self
    obtain ⟨n₁, w₁, hcode, hw₁, hlen₁⟩ :=
      GcsFilter.golombRiceEncode_eq_ok hw hp (by omega : v - last < 2 ^ 64)
    obtain ⟨n₂, w₂, hrest, hw₂, hlen₂⟩ := ih hw₁ hsorted.2 fun u hu => hlt u (List.mem_cons_of_mem _ hu)
    refine ⟨n₁ + n₂, w₂, ?_, ?_, by omega⟩
    · rw [finishLoop, Outcome.require_of (hsorted.1 v List.mem_cons_self), Outcome.ok_bind]
      simp only [hcode, Outcome.ok_bind, hrest, Outcome.pure_eq_ok]
    · rwa [List.append_assoc] at hw₂

namespace GcsFilterReader

/-- The reader stands behind the code of `data`, with the values `vs` to come. -/
structure Stream (f : GcsFilter) (data : ℕ) (vs : List ℕ) (r : BitStreamReader) : Prop where
  offset_le : r.offset ≤ 8
  bits_eq : ∃ pad, r.bits = deltaBits f.p data vs ++ pad
  sorted : (data :: vs).Pairwise (· ≤ ·)
  lt : ∀ v ∈ data :: vs, v < 2 ^ 64

variable {f : GcsFilter} {data : ℕ} {vs : List ℕ} {r : BitStreamReader}

/-- Decoding a difference moves on to the next value. -/
theorem Stream.next (hp : f.p < 64) {v : ℕ} (h : Stream f data (v :: vs) r) :
    ∃ r', f.golombRiceDecode r = .ok (v - data, r') ∧ Stream f v vs r' := by
  obtain ⟨pad, hbits⟩ := h.bits_eq
  have hv := h.lt v (by simp)
  rw [deltaBits, List.append_assoc] at hbits
  obtain ⟨r', hrun, hrest, hoff⟩ :=
    GcsFilter.golombRiceDecode_eq_ok hp (by omega : v - data < 2 ^ 64) h.offset_le hbits
  exact ⟨r', hrun, hoff, ⟨pad, hrest⟩, (List.pairwise_cons.1 h.sorted).2,
    fun u hu => h.lt u (List.mem_cons_of_mem _ hu)⟩

open SortedScan in
/-- `seek` skips the values below `p`. -/
theorem Stream.seek (hp : f.p < 64) (p : ℕ) (h : Stream f data vs r) :
    (skip p (data :: vs) = [] ∧ seek f p vs.length data r = .ok none) ∨
    ∃ v vs' r', skip p (data :: vs) = v :: vs' ∧ seek f p vs.length data r = .ok (some (v, vs'.length, r')) ∧
      Stream f v vs' r' := by
  induction vs generalizing data r with
  | nil =>
    by_cases hlt : data < p
    · exact .inl ⟨by simp [skip, hlt], by simp [GcsFilterReader.seek, hlt]⟩
    · exact .inr ⟨data, [], r, by simp [skip, hlt], by simp [GcsFilterReader.seek, hlt], h⟩
  | cons v vs ih =>
    by_cases hlt : data < p
    · obtain ⟨r₁, hrun, h₁⟩ := h.next hp
      have hle : data ≤ v := (List.pairwise_cons.1 h.sorted).1 v List.mem_cons_self
      have hv := h.lt v (by simp)
      have hskip : skip p (data :: v :: vs) = skip p (v :: vs) := by simp [skip, hlt]
      have hseek : GcsFilterReader.seek f p (v :: vs).length data r =
          GcsFilterReader.seek f p vs.length v r₁ := by
        rw [List.length_cons, GcsFilterReader.seek, if_pos hlt, hrun]
        simp only [Outcome.ok_bind, Nat.add_sub_cancel' hle, Outcome.require_of hv]
      rw [hskip, hseek]
      exact ih h₁
    · exact .inr ⟨data, v :: vs, r, by simp [skip, hlt], by simp [GcsFilterReader.seek, hlt], h⟩

theorem Stream.matchAnyLoop (hp : f.p < 64) (h : Stream f data vs r) (ps : List ℕ) :
    matchAnyLoop f ps vs.length data r = .ok (SortedScan.anyScan ps (data :: vs)) := by
  induction ps generalizing data vs r with
  | nil => rfl
  | cons p ps ih =>
    rw [GcsFilterReader.matchAnyLoop, SortedScan.anyScan]
    rcases h.seek hp p with ⟨hskip, hseek⟩ | ⟨v, vs', r', hskip, hseek, h'⟩
    · rw [hseek, hskip]
      rfl
    · rw [hseek, hskip, Outcome.ok_bind]
      by_cases hv : v = p
      · simp [hv]
      · simp only [hv, if_false]
        exact ih h'

theorem Stream.matchAllLoop (hp : f.p < 64) (h : Stream f data vs r) (ps : List ℕ) :
    matchAllLoop f ps vs.length data r = .ok (SortedScan.allScan ps (data :: vs)) := by
  induction ps generalizing data vs r with
  | nil => rfl
  | cons p ps ih =>
    rw [GcsFilterReader.matchAllLoop, SortedScan.allScan]
    rcases h.seek hp p with ⟨hskip, hseek⟩ | ⟨v, vs', r', hskip, hseek, h'⟩
    · rw [hseek, hskip]
      rfl
    · rw [hseek, hskip, Outcome.ok_bind]
      by_cases hv : v = p
      · subst hv
        simp only [if_true]
        exact ih h'
      · simp [hv]

end GcsFilterReader

/-! ## What matches -/

theorem mem_dedup {a : ℕ} (l : List ℕ) : a ∈ dedup l ↔ a ∈ l := by
  induction l using dedup.induct with
  | case1 => rfl
  | case2 x => rfl
  | case3 x l ih => simp [dedup, ih]
  | case4 x y l h ih => simp [dedup, h, ih]

theorem sublist_dedup (l : List ℕ) : (dedup l).Sublist l := by
  induction l using dedup.induct with
  | case1 => exact .slnil
  | case2 x => exact .refl _
  | case3 x l ih =>
    rw [dedup, if_pos rfl]
    exact ih.cons x
  | case4 x y l h ih =>
    rw [dedup, if_neg h]
    exact ih.cons_cons x

theorem mapToRange_lt (hash nm : ℕ) : mapToRange hash nm < 2 ^ 64 := Nat.mod_lt _ (by decide)

theorem sorted_sortUnstable (l : List ℕ) : (sortUnstable l).Pairwise (· ≤ ·) :=
  List.pairwise_insertionSort _ l

@[simp] theorem length_sortUnstable (l : List ℕ) : (sortUnstable l).length = l.length :=
  List.length_insertionSort _ l

@[simp] theorem mem_sortUnstable {a : ℕ} {l : List ℕ} : a ∈ sortUnstable l ↔ a ∈ l :=
  List.mem_insertionSort _

namespace GcsFilterWriter

/-- The set of elements that adding `adds` amounts to: empty ones are left out. -/
def added (adds : List Bytes) : Finset Bytes := (adds.filter (· ≠ [])).toFinset

/-- `w` holds the elements of `s` and has the parameters of `w₀`. -/
structure HasElements (w w₀ : GcsFilterWriter) (s : Finset Bytes) : Prop where
  filter : w.filter = w₀.filter
  writer : w.writer = w₀.writer
  m : w.m = w₀.m
  nodup : w.elements.Nodup
  toFinset : w.elements.toFinset = s

theorem HasElements.addElement {w w₀ : GcsFilterWriter} {s : Finset Bytes} (h : w.HasElements w₀ s)
    (e : Bytes) : (w.addElement e).HasElements w₀ (s ∪ added [e]) := by
  unfold GcsFilterWriter.addElement
  split_ifs with he
  · refine ⟨h.filter, h.writer, h.m, h.nodup.insert, ?_⟩
    rw [← h.toFinset]
    ext x
    simp [added, he]
  · obtain rfl : e = [] := by simpa using he
    simpa [added] using h

theorem hasElements_foldl {w w₀ : GcsFilterWriter} {s : Finset Bytes} (h : w.HasElements w₀ s)
    (adds : List Bytes) : (adds.foldl GcsFilterWriter.addElement w).HasElements w₀ (s ∪ added adds) := by
  induction adds generalizing w s with
  | nil => simpa [added] using h
  | cons e adds ih =>
    have hsplit : s ∪ added (e :: adds) = s ∪ added [e] ∪ added adds := by
      rw [Finset.union_assoc]
      congr 1
      ext x
      simp only [added, List.filter_cons, List.filter_nil, Finset.mem_union, List.mem_toFinset]
      split_ifs <;> simp
    rw [List.foldl_cons, hsplit]
    exact ih (h.addElement e)

/-- The values that a writer writes. -/
def values (f : GcsFilter) (nm : ℕ) (elements : List Bytes) : List ℕ :=
  sortUnstable (elements.map fun e => mapToRange (f.hash e).toNat nm)

theorem values_lt {f : GcsFilter} {nm v : ℕ} {elements : List Bytes} (h : v ∈ values f nm elements) :
    v < 2 ^ 64 := by
  rw [values, mem_sortUnstable, List.mem_map] at h
  obtain ⟨e, -, rfl⟩ := h
  exact mapToRange_lt _ _

/-- What `finish` writes: the count, and the codes of the differences. -/
theorem finish_eq_ok {w : GcsFilterWriter} (hp : w.filter.p < 64) (hn : w.elements.length < 2 ^ 64)
    (hnm : w.elements.length * w.m.toNat < 2 ^ 64) :
    ∃ wrote out pad, w.finish = .ok (wrote, w.writer ++
        (VarInt.mk (UInt64.ofNat w.elements.length)).written.bytes ++ out) ∧
      unpack out = deltaBits w.filter.p 0
        (values w.filter (w.elements.length * w.m.toNat) w.elements) ++ List.replicate pad false := by
  set vs := values w.filter (w.elements.length * w.m.toNat) w.elements with hvs
  have hlen : vs.length = w.elements.length := by rw [hvs, values, length_sortUnstable, List.length_map]
  have hsorted : (0 :: vs).Pairwise (· ≤ ·) :=
    List.pairwise_cons.2 ⟨fun _ _ => Nat.zero_le _, sorted_sortUnstable _⟩
  obtain ⟨wrote, bw, hloop, hbw, -⟩ := finishLoop_eq_ok hp
    (BitStreamWriter.holds_new (w.writer ++ (VarInt.mk (UInt64.ofNat w.elements.length)).written.bytes))
    hsorted fun v hv => values_lt hv
  obtain ⟨out, pad, hwriter, hunpack, -⟩ := hbw.flush
  refine ⟨(VarInt.mk (UInt64.ofNat w.elements.length)).written.len + wrote + bw.flush.1, out, pad, ?_, hunpack⟩
  rw [finish, Outcome.require_of hnm, Outcome.ok_bind]
  have hmapped : sortUnstable (w.elements.map fun e => mapToRange (w.filter.hash e).toNat
      (w.elements.length * w.m.toNat)) = vs := rfl
  have hcount := encodeLen_eq_ok_iff.2 ⟨hn, rfl⟩
  simp only [hmapped, hlen, hcount, Outcome.lift_ok, Outcome.ok_bind, hloop, hwriter, Outcome.pure_eq_ok]

end GcsFilterWriter

namespace GcsFilterReader

/-- What a reader finds in a filter: the count, and the values behind the codes. -/
structure Reads (r : GcsFilterReader) (reader : Bytes) (n : ℕ) (vs : List ℕ) : Prop where
  p_lt : r.filter.p < 64
  nm_lt : n * r.m.toNat < 2 ^ 64
  length_eq : vs.length = n
  sorted : vs.Pairwise (· ≤ ·)
  lt : ∀ v ∈ vs, v < 2 ^ 64
  stream : ∃ rest pad, readCount reader = .ok (n, rest) ∧
    unpack rest = deltaBits r.filter.p 0 vs ++ pad

variable {r : GcsFilterReader} {reader : Bytes} {n : ℕ} {vs : List ℕ}

/-- The first value of a filter, and the stream of the others. -/
theorem Reads.first {v : ℕ} (h : r.Reads reader n (v :: vs)) {rest : Bytes} {pad : List Bool}
    (hunpack : unpack rest = deltaBits r.filter.p 0 (v :: vs) ++ pad) :
    ∃ bits, r.filter.golombRiceDecode (.new rest) = .ok (v, bits) ∧ Stream r.filter v vs bits := by
  have hstart : Stream r.filter 0 (v :: vs) (.new rest) := by
    refine ⟨le_rfl, ⟨pad, by rw [BitStreamReader.bits_new, hunpack]⟩, ?_, ?_⟩
    · exact List.pairwise_cons.2 ⟨fun _ _ => Nat.zero_le _, h.sorted⟩
    · intro u hu
      rcases List.mem_cons.1 hu with rfl | hu
      · decide
      · exact h.lt u hu
  exact hstart.next h.p_lt

/-- The hashes of a query in the range of a filter of `n` elements. -/
def hashes (r : GcsFilterReader) (n : ℕ) (query : List Bytes) : List ℕ :=
  sortUnstable (query.map fun q => mapToRange (r.filter.hash q).toNat (n * r.m.toNat))

theorem mapQuery_eq_ok (h : n * r.m.toNat < 2 ^ 64) (query : List Bytes) :
    r.mapQuery n query = .ok (r.hashes n query) := by
  rw [mapQuery, Outcome.require_of h]
  rfl

theorem hashes_eq_nil_iff {query : List Bytes} : r.hashes n query = [] ↔ query = [] := by
  rw [← List.length_eq_zero_iff, hashes, length_sortUnstable, List.length_map, List.length_eq_zero_iff]

theorem mem_hashes_iff {query : List Bytes} {p : ℕ} : p ∈ r.hashes n query ↔
    ∃ q ∈ query, mapToRange (r.filter.hash q).toNat (n * r.m.toNat) = p := by
  rw [hashes, mem_sortUnstable, List.mem_map]

theorem sorted_hashes (query : List Bytes) : (r.hashes n query).Pairwise (· ≤ ·) := sorted_sortUnstable _

/-- The part that `match_any` and `match_all` share: a loop that scans the stream scans the values. -/
theorem Reads.scan (h : r.Reads reader n vs) {rest : Bytes} {pad : List Bool}
    (hunpack : unpack rest = deltaBits r.filter.p 0 vs ++ pad)
    {loop : ℕ → ℕ → BitStreamReader → Outcome IoError Bool} {scan : List ℕ → Bool}
    (hloop : ∀ {data vs s}, Stream r.filter data vs s → loop vs.length data s = .ok (scan (data :: vs))) :
    (if n = 0 then return false
    else .mapErr .io do
      let (data, bits) ← r.filter.golombRiceDecode (.new rest)
      loop (n - 1) data bits : Outcome Error Bool) = .ok (decide (vs ≠ []) && scan vs) := by
  cases vs with
  | nil => exact if_pos h.length_eq.symm
  | cons v vs =>
    have hn : n = vs.length + 1 := h.length_eq.symm
    obtain ⟨bits, hfirst, hstream⟩ := h.first hunpack
    rw [if_neg (by omega)]
    simp only [hfirst, Outcome.ok_bind, hn, Nat.add_sub_cancel, hloop hstream]
    rfl

theorem Reads.matchAny (h : r.Reads reader n vs) (query : List Bytes) :
    ∃ b, r.matchAny reader query = .ok b ∧
      (b = true ↔ query = [] ∨ ∃ p ∈ r.hashes n query, p ∈ vs) := by
  obtain ⟨rest, pad, hcount, hunpack⟩ := h.stream
  rw [GcsFilterReader.matchAny, hcount, Outcome.ok_bind]
  simp only [mapQuery_eq_ok h.nm_lt, Outcome.ok_bind, hashes_eq_nil_iff]
  by_cases hquery : query = []
  · exact ⟨true, by simp [hquery], by simp [hquery]⟩
  · rw [if_neg hquery]
    refine ⟨_, h.scan hunpack fun hstream => hstream.matchAnyLoop h.p_lt _, ?_⟩
    rw [Bool.and_eq_true, decide_eq_true_iff, SortedScan.anyScan_iff (sorted_hashes query) h.sorted]
    constructor
    · exact fun hany => .inr hany.2
    · rintro (hnil | ⟨p, hp, hmem⟩)
      · exact absurd hnil hquery
      · exact ⟨List.ne_nil_of_mem hmem, p, hp, hmem⟩

theorem Reads.matchAll (h : r.Reads reader n vs) (query : List Bytes) :
    ∃ b, r.matchAll reader query = .ok b ∧
      (b = true ↔ query = [] ∨ n ≠ 0 ∧ ∀ p ∈ r.hashes n query, p ∈ vs) := by
  obtain ⟨rest, pad, hcount, hunpack⟩ := h.stream
  have hnil : dedup (r.hashes n query) = [] ↔ query = [] := by
    rw [← hashes_eq_nil_iff (r := r) (n := n), List.eq_nil_iff_forall_not_mem,
      List.eq_nil_iff_forall_not_mem]
    simp only [mem_dedup]
  rw [GcsFilterReader.matchAll, hcount, Outcome.ok_bind]
  simp only [mapQuery_eq_ok h.nm_lt, Outcome.ok_bind, hnil]
  by_cases hquery : query = []
  · exact ⟨true, by simp [hquery], by simp [hquery]⟩
  · rw [if_neg hquery]
    refine ⟨_, h.scan hunpack fun hstream => hstream.matchAllLoop h.p_lt _, ?_⟩
    have hne : vs ≠ [] ↔ n ≠ 0 := by rw [← h.length_eq, ne_eq, ne_eq, List.length_eq_zero_iff]
    rw [Bool.and_eq_true, decide_eq_true_iff, hne,
      SortedScan.allScan_iff ((sorted_hashes query).sublist (sublist_dedup _)) h.sorted]
    simp only [mem_dedup, hquery, false_or]

end GcsFilterReader

/-- A reader with the parameters of the writer reads what `finish` has written. -/
theorem GcsFilterWriter.reads_finish {w : GcsFilterWriter} (hwriter : w.writer = [])
    (hp : w.filter.p < 64) (hn : w.elements.length < 2 ^ 64)
    (hnm : w.elements.length * w.m.toNat < 2 ^ 64) :
    ∃ wrote bytes, w.finish = .ok (wrote, bytes) ∧
      GcsFilterReader.Reads ⟨w.filter, w.m⟩ bytes w.elements.length
        (values w.filter (w.elements.length * w.m.toNat) w.elements) := by
  obtain ⟨wrote, out, pad, hfinish, hunpack⟩ := finish_eq_ok hp hn hnm
  refine ⟨wrote, _, hfinish, hp, hnm, ?_, sorted_sortUnstable _, fun v hv => values_lt hv, out, _, ?_, hunpack⟩
  · rw [values, length_sortUnstable, List.length_map]
  · rw [hwriter, List.nil_append, GcsFilterReader.readCount, VarInt.roundTrips _ _ trivial rfl]
    simp only [UInt64.toNat_ofNat_of_lt' hn]

/-- The range value of an element in a filter of `n` elements. -/
def rangeValue (k0 k1 m : UInt64) (n : ℕ) (e : Bytes) : ℕ :=
  mapToRange (Siphash24.hashToU64WithKeys k0 k1 e).toNat (n * m.toNat)

/-- On what `finish` has written, a query matches exactly by the range values of the elements that
were added, where adding the empty element does nothing.  `n` is a `usize`. -/
theorem match_finish (k0 k1 m : UInt64) (p : ℕ) (adds query : List Bytes) (hp : p < 64)
    (hn : (GcsFilterWriter.added adds).card < 2 ^ 64)
    (hnm : (GcsFilterWriter.added adds).card * m.toNat < 2 ^ 64) :
    ∃ wrote bytes any all,
      (adds.foldl GcsFilterWriter.addElement (.new [] k0 k1 m p)).finish = .ok (wrote, bytes) ∧
      (GcsFilterReader.new k0 k1 m p).matchAny bytes query = .ok any ∧
      (GcsFilterReader.new k0 k1 m p).matchAll bytes query = .ok all ∧
      (any = true ↔ query = [] ∨ ∃ q ∈ query,
        rangeValue k0 k1 m (GcsFilterWriter.added adds).card q ∈
          (GcsFilterWriter.added adds).image (rangeValue k0 k1 m (GcsFilterWriter.added adds).card)) ∧
      (all = true ↔ query = [] ∨ (GcsFilterWriter.added adds).Nonempty ∧ ∀ q ∈ query,
        rangeValue k0 k1 m (GcsFilterWriter.added adds).card q ∈
          (GcsFilterWriter.added adds).image (rangeValue k0 k1 m (GcsFilterWriter.added adds).card)) := by
  have hw := GcsFilterWriter.hasElements_foldl (w := .new [] k0 k1 m p) (s := ∅)
    ⟨rfl, rfl, rfl, List.nodup_nil, rfl⟩ adds
  rw [Finset.empty_union] at hw
  set w := adds.foldl GcsFilterWriter.addElement (.new [] k0 k1 m p)
  set n := (GcsFilterWriter.added adds).card with hcard
  have hlen : w.elements.length = n := by
    rw [hcard, ← hw.toFinset, List.toFinset_card_of_nodup hw.nodup]
  have hvalues : ∀ v, v ∈ GcsFilterWriter.values w.filter (n * w.m.toNat) w.elements ↔
      v ∈ (GcsFilterWriter.added adds).image (rangeValue k0 k1 m n) := by
    intro v
    rw [GcsFilterWriter.values, mem_sortUnstable, List.mem_map, Finset.mem_image, hw.m,
      hw.filter, ← hw.toFinset]
    simp only [List.mem_toFinset]
    rfl
  obtain ⟨wrote, bytes, hfinish, hreads⟩ := GcsFilterWriter.reads_finish hw.writer
    (by rw [hw.filter]; exact hp) (by rw [hlen]; exact hn) (by rw [hlen, hw.m]; exact hnm)
  obtain ⟨any, hany, hany'⟩ := hreads.matchAny query
  obtain ⟨all, hall, hall'⟩ := hreads.matchAll query
  have hreader : (⟨w.filter, w.m⟩ : GcsFilterReader) = .new k0 k1 m p := by
    rw [hw.filter, hw.m]
    rfl
  have hhashes : ∀ v, v ∈ (GcsFilterReader.new k0 k1 m p).hashes n query ↔
      ∃ q ∈ query, rangeValue k0 k1 m n q = v := fun v => GcsFilterReader.mem_hashes_iff
  rw [hreader] at hany hall hany' hall'
  simp only [hlen, hvalues, hhashes] at hany' hall'
  refine ⟨wrote, bytes, any, all, hfinish, hany, hall, ?_, ?_⟩
  · rw [hany']
    simp only [exists_exists_and_eq_and]
  · rw [hall', hcard, Finset.card_ne_zero]
    simp only [forall_exists_index, and_imp, forall_apply_eq_imp_iff₂]

theorem match_finish_sample :
    ∃ wrote bytes,
      ([[1], [2], [], [1]].foldl GcsFilterWriter.addElement (.new [] 1 2 7 3)).finish = .ok (wrote, bytes) ∧
      (GcsFilterReader.new 1 2 7 3).matchAny bytes [[2]] = .ok true := by
  obtain ⟨wrote, bytes, any, all, hfinish, hany, -, hiff, -⟩ :=
    match_finish 1 2 7 3 [[1], [2], [], [1]] [[2]] (by decide) (by decide +kernel) (by decide +kernel)
  have hadded : [2] ∈ GcsFilterWriter.added [[1], [2], [], [1]] := by decide +kernel
  rw [hiff.2 (.inr ⟨[2], List.mem_singleton_self _, Finset.mem_image_of_mem _ hadded⟩)] at hany
  exact ⟨wrote, bytes, hfinish, hany⟩

/-- The empty element is not added, and a query for it finds nothing. -/
theorem matchAny_empty_element :
    (GcsFilterWriter.addElement (.new [] 1 2 7 3) []).finish = .ok (1, [0]) ∧
    (GcsFilterReader.new 1 2 7 3).matchAny [0] [[]] = .ok false ∧
    ∀ n, ∃ q ∈ ([[]] : List Bytes),
      rangeValue 1 2 7 n q ∈ ({[]} : Finset Bytes).image (rangeValue 1 2 7 n) := by
  refine ⟨by decide +kernel, by decide +kernel, fun n => ?_⟩
  exact ⟨[], List.mem_singleton_self _, Finset.mem_image_of_mem _ (Finset.mem_singleton_self _)⟩

end Bip158

end RustDogecoin
