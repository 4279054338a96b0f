import RustDogecoin.Bip158

/-!
# Sequences on a bit stream

Codes that follow each other on one stream, where a code may begin and end inside a byte.  A write
that `Appends` its code and a read that `Takes` it are all that a round trip of a sequence needs;
`write` and `read` are such a pair for each bit count, and `golomb_rice_encode` and
`golomb_rice_decode` for each parameter.
-/

namespace RustDogecoin

namespace Bip158

open BitString

variable {α β ι : Type}

/-! ## One after the other -/

/-- Writes the items in order, and counts the bytes. -/
def writeEach (write : α → BitStreamWriter → Outcome IoError (ℕ × BitStreamWriter)) :
    List α → BitStreamWriter → Outcome IoError (ℕ × BitStreamWriter)
  | [], w => return (0, w)
  | a :: items, w => do
    let (wrote, w) ← write a w
    let (more, w) ← writeEach write items w
    return (wrote + more, w)

/-- Reads an item for each key, in order. -/
def readEach (read : ι → BitStreamReader → Outcome IoError (β × BitStreamReader)) :
    List ι → BitStreamReader → Outcome IoError (List β × BitStreamReader)
  | [], r => return ([], r)
  | i :: keys, r => do
    let (v, r) ← read i r
    let (vs, r) ← readEach read keys r
    return (v :: vs, r)

/-- The write adds `code` to what the writer holds, and says how many bytes went out. -/
def Appends (write : BitStreamWriter → Outcome IoError (ℕ × BitStreamWriter)) (code : List Bool) : Prop :=
  ∀ ⦃w pre bits⦄, w.Holds pre bits → ∃ wrote w', write w = .ok (wrote, w') ∧
    w'.Holds pre (bits ++ code) ∧ w'.writer.length = w.writer.length + wrote

/-- The read takes `code` off the stream and returns `v`. -/
def Takes (read : BitStreamReader → Outcome IoError (β × BitStreamReader)) (code : List Bool) (v : β) :
    Prop :=
  ∀ ⦃r : BitStreamReader⦄ ⦃rest⦄, r.offset ≤ 8 → r.bits = code ++ rest →
    ∃ r', read r = .ok (v, r') ∧ r'.bits = rest ∧ r'.offset ≤ 8

theorem Appends.each {write : α → BitStreamWriter → Outcome IoError (ℕ × BitStreamWriter)}
    {code : α → List Bool} {items : List α} (h : ∀ a ∈ items, Appends (write a) (code a)) :
    Appends (writeEach write items) (items.flatMap code) := by
  induction items with
  | nil => exact fun w pre bits hw => ⟨0, w, rfl, by simpa using hw, rfl⟩
  | cons a items ih =>
    intro w pre bits hw
    obtain ⟨n₁, w₁, hfirst, hw₁, hlen₁⟩ := h a List.mem_cons_self hw
    obtain ⟨n₂, w₂, hrest, hw₂, hlen₂⟩ := ih (fun b hb => h b (List.mem_cons_of_mem a hb)) hw₁
    refine ⟨n₁ + n₂, w₂, ?_, ?_, by omega⟩
    · simp only [writeEach, hfirst, Outcome.ok_bind, hrest, Outcome.pure_eq_ok]
    · rwa [List.flatMap_cons, ← List.append_assoc]

theorem Takes.each {read : ι → BitStreamReader → Outcome IoError (β × BitStreamReader)} {key : α → ι}
    {code : α → List Bool} {value : α → β} {items : List α}
    (h : ∀ a ∈ items, Takes (read (key a)) (code a) (value a)) :
    Takes (readEach read (items.map key)) (items.flatMap code) (items.map value) := by
  induction items with
  | nil => exact fun r rest hoffset hbits => ⟨r, rfl, hbits, hoffset⟩
  | cons a items ih =>
    intro r rest hoffset hbits
    rw [List.flatMap_cons, List.append_assoc] at hbits
    obtain ⟨r₁, hfirst, hbits₁, hoffset₁⟩ := h a List.mem_cons_self hoffset hbits
    obtain ⟨r₂, hrest, hbits₂, hoffset₂⟩ :=
      ih (fun b hb => h b (List.mem_cons_of_mem a hb)) hoffset₁ hbits₁
    refine ⟨r₂, ?_, hbits₂, hoffset₂⟩
    simp only [List.map_cons, readEach, hfirst, Outcome.ok_bind, hrest, Outcome.pure_eq_ok]

/-- What is appended to a fresh writer and flushed is taken from a fresh reader, whatever follows. -/
theorem Appends.flush {write : BitStreamWriter → Outcome IoError (ℕ × BitStreamWriter)}
    {read : BitStreamReader → Outcome IoError (β × BitStreamReader)} {code : List Bool} {v : β}
    (hwrite : Appends write code) (hread : Takes read code v) (pre : Bytes) :
    ∃ wrote w out, write (.new pre) = .ok (wrote, w) ∧ w.flush.2.writer = pre ++ out ∧
      out.length = wrote + w.flush.1 ∧
      ∀ rest, ∃ r, read (.new (out ++ rest)) = .ok (v, r) := by
  obtain ⟨wrote, w, hrun, hw, hlen⟩ := hwrite (BitStreamWriter.holds_new pre)
  obtain ⟨out, pad, hout, hunpack, hlen'⟩ := hw.flush
  refine ⟨wrote, w, out, hrun, hout, ?_, fun rest => ?_⟩
  · rw [hout, hlen, List.length_append] at hlen'
    simp only [BitStreamWriter.new] at hlen'
    omega
  · have hbits : (BitStreamReader.new (out ++ rest)).bits =
        code ++ (List.replicate pad false ++ unpack rest) := by
      rw [BitStreamReader.bits_new, unpack, List.flatMap_append, ← unpack, hunpack, List.nil_append,
        List.append_assoc]
      rfl
    obtain ⟨r, hr, -, -⟩ := hread (le_refl 8) hbits
    exact ⟨r, hr⟩

/-! ## The two codes -/

/-- `write` of a value with its bit count. -/
theorem appends_write (data : UInt64) {nbits : ℕ} (hn : nbits ≤ 64) :
    Appends (fun w => w.write data nbits) (toBits nbits data.toNat) :=
  fun _ _ _ hw => hw.write data hn

/-- `read` of as many bits. -/
theorem takes_read (data : UInt64) {nbits : ℕ} (hn : nbits ≤ 64) :
    Takes (fun r => r.read nbits) (toBits nbits data.toNat) (UInt64.ofNat (data.toNat % 2 ^ nbits)) := by
  intro r rest hoffset hbits
  obtain ⟨v, r', hrun, hval, hrest, hoff⟩ :=
    BitStreamReader.read_append hoffset hbits (by rw [length_toBits]; exact hn)
  rw [length_toBits] at hrun
  have hv : v = UInt64.ofNat (data.toNat % 2 ^ nbits) := by
    rw [← ofBits_toBits, ← hval, UInt64.ofNat_toNat]
  rw [← hv]
  exact ⟨r', hrun, hrest, hoff⟩

variable {f : GcsFilter}

theorem appends_golombRiceEncode (hp : f.p < 64) (n : UInt64) :
    Appends (fun w => f.golombRiceEncode w n.toNat) (golombRiceBits f.p n.toNat) :=
  fun _ _ _ hw => GcsFilter.golombRiceEncode_eq_ok hw hp n.toNat_lt

theorem takes_golombRiceDecode (hp : f.p < 64) (n : UInt64) :
    Takes f.golombRiceDecode (golombRiceBits f.p n.toNat) n.toNat :=
  fun _ _ hoffset hbits => GcsFilter.golombRiceDecode_eq_ok hp n.toNat_lt hoffset hbits

/-- Values written with their bit counts are read back modulo `2 ^ nbits`, and Golomb-Rice codes are
decoded to the values encoded, each in order and from any position in a byte. -/
theorem read_written (pre : Bytes) (items : List (UInt64 × ℕ)) (hitems : ∀ item ∈ items, item.2 ≤ 64)
    (f : GcsFilter) (hp : f.p < 64) (values : List UInt64) :
    (∃ wrote w out,
      writeEach (fun item w => w.write item.1 item.2) items (.new pre) = .ok (wrote, w) ∧
      w.flush.2.writer = pre ++ out ∧ out.length = wrote + w.flush.1 ∧
      ∀ rest, ∃ r, readEach (fun nbits r => r.read nbits) (items.map Prod.snd) (.new (out ++ rest)) =
        .ok (items.map fun item => UInt64.ofNat (item.1.toNat % 2 ^ item.2), r)) ∧
    ∃ wrote w out,
      writeEach (fun n w => f.golombRiceEncode w n.toNat) values (.new pre) = .ok (wrote, w) ∧
      w.flush.2.writer = pre ++ out ∧ out.length = wrote + w.flush.1 ∧
      ∀ rest, ∃ r, readEach GcsFilter.golombRiceDecode (List.replicate values.length f)
        (.new (out ++ rest)) = .ok (values.map UInt64.toNat, r) := by
  constructor
  · exact Appends.flush (Appends.each fun item hi => appends_write item.1 (hitems item hi))
      (Takes.each fun item hi => takes_read item.1 (hitems item hi)) pre
  · rw [← List.map_const']
    exact Appends.flush (Appends.each fun n _ => appends_golombRiceEncode hp n)
      (Takes.each fun n _ => takes_golombRiceDecode hp n) pre

/-- Counts of 0, 8 and 64 bits around a partial byte, and a quotient of more than 64 ones. -/
theorem read_written_sample :
    (∀ item ∈ ([(5, 3), (7, 0), (300, 8), (0xfedcba9876543210, 64)] : List (UInt64 × ℕ)), item.2 ≤ 64) ∧
    ∃ wrote w out,
      writeEach (fun (n : UInt64) w => (GcsFilter.mk 0 0 1).golombRiceEncode w n.toNat) [150, 3] (.new []) =
        .ok (wrote, w) ∧
      w.flush.2.writer = [] ++ out ∧ out.length = wrote + w.flush.1 ∧
      ∀ rest, ∃ r, readEach GcsFilter.golombRiceDecode [⟨0, 0, 1⟩, ⟨0, 0, 1⟩]
        (.new (out ++ rest)) = .ok ([150, 3], r) := by
  have hitems : ∀ item ∈ ([(5, 3), (7, 0), (300, 8), (0xfedcba9876543210, 64)] : List (UInt64 × ℕ)),
      item.2 ≤ 64 := by decide
  exact ⟨hitems, (read_written [] _ hitems ⟨0, 0, 1⟩ (by decide) [150, 3]).2⟩

end Bip158

end RustDogecoin
