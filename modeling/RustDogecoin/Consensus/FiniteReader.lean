import RustDogecoin.Consensus.Encode
import RustDogecoin.Io.Read

/-!
# Reading a given number of bytes from any reader

`read_bytes_from_finite_reader` over the readers of the `io` crate: the buffer grows by a chunk at a time, which
`read_exact` fills.  A turn reads as many bytes as its chunk has, so the chunks make no difference
(`readBytesFromFiniteReaderLoop_eq`), and the function that the codecs use is this one on a slice (`run_eq_slice`).
There is no bound on the memory that the buffer takes.
-/

namespace RustDogecoin

namespace Io

variable {β σ : Type}

structure ReadBytesFromFiniteReaderOpts where
  len : UInt64
  chunkSize : UInt64
  deriving DecidableEq, Repr

theorem ReadBytesFromFiniteReaderOpts.chunkSize_pos (opts : ReadBytesFromFiniteReaderOpts) (hc : opts.chunkSize ≠ 0) :
    0 < opts.chunkSize.toNat :=
  Nat.pos_of_ne_zero fun h => hc (UInt64.toNat_inj.mp h)

/-- The loop of `read_bytes_from_finite_reader`; `ret` is the buffer as far as it is filled, and an error is the one
that `Error::Io` is put around. -/
def readBytesFromFiniteReaderLoop (r : ByteReader (Error β) σ) (chunkSize : ℕ) :
    ℕ → ℕ → Bytes → σ → Option (Outcome (Error β) Bytes × σ)
  | 0, _, _, _ => none
  | fuel + 1, len, ret, s =>
    if 0 < len then
      let chunk := min len chunkSize
      if 2 ^ 64 ≤ ret.length + chunk then some (.panic .overflow, s)
      else
        match readExact r fuel (List.replicate chunk 0) s with
        | none => none
        | some (.ok _, bytes, s) => readBytesFromFiniteReaderLoop r chunkSize fuel (len - chunk) (ret ++ bytes) s
        | some (.err e, _, s) => some (.err e, s)
        | some (.panic q, _, s) => some (.panic q, s)
    else some (.ok ret, s)

/-- `read_bytes_from_finite_reader`. -/
def readBytesFromFiniteReader (r : ByteReader (Error β) σ) (fuel : ℕ) (opts : ReadBytesFromFiniteReaderOpts) (s : σ) :
    Option (Outcome (Error β) Bytes × σ) :=
  if opts.chunkSize ≠ 0 then readBytesFromFiniteReaderLoop r opts.chunkSize.toNat fuel opts.len.toNat [] s
  else some (.panic .assertion, s)

section Delivers

variable {r : ByteReader (Error β) σ} {R : σ → Bytes → ℕ → Prop}

/-- A turn reads its chunk and goes on, or all bytes that are left and fails. -/
theorem readBytesFromFiniteReaderLoop_turn (hr : r.Delivers Error.IsInterrupted R) (chunkSize : ℕ) {len : ℕ}
    (hlen : 0 < len) {ret bs : Bytes} (hret : ret.length + len < 2 ^ 64) {s : σ} {k : ℕ} (hs : R s bs k) :
    ∃ s' k' N, R s' (bs.drop (min len chunkSize)) k' ∧ ∀ fuel, N ≤ fuel →
      readBytesFromFiniteReaderLoop r chunkSize (fuel + 1) len ret s =
        if min len chunkSize ≤ bs.length then
          readBytesFromFiniteReaderLoop r chunkSize fuel (len - min len chunkSize)
            (ret ++ bs.take (min len chunkSize)) s'
        else some (.err ErrorKind.unexpectedEof.into, s') := by
  obtain ⟨s', k', hs', hread⟩ := readExact_eq hr (List.replicate (min len chunkSize) 0) hs
  rw [List.length_replicate] at hs' hread
  refine ⟨s', k', min len chunkSize + k + 1, hs', fun fuel hfuel => ?_⟩
  have hfits : ¬2 ^ 64 ≤ ret.length + min len chunkSize := by omega
  rw [readBytesFromFiniteReaderLoop, if_pos hlen]
  simp only [if_neg hfits]
  rw [hread fuel hfuel]
  by_cases hbs : min len chunkSize ≤ bs.length
  · -- no zero of the chunk is left
    rw [if_pos hbs, if_pos hbs, List.drop_of_length_le (List.length_replicate.trans_le hbs), List.append_nil]
  · rw [if_neg hbs, if_neg hbs]

/-- What has been read and what is still wanted add up, however the bytes arrive. -/
theorem readBytesFromFiniteReaderLoop_eq (hr : r.Delivers Error.IsInterrupted R) {chunkSize : ℕ} (hc : 0 < chunkSize)
    (len : ℕ) (ret : Bytes) {bs : Bytes} (hret : ret.length + len < 2 ^ 64) {s : σ} {k : ℕ} (hs : R s bs k) :
    ∃ s' k' N, R s' (bs.drop len) k' ∧ ∀ fuel, N ≤ fuel → readBytesFromFiniteReaderLoop r chunkSize fuel len ret s =
      some (if len ≤ bs.length then .ok (ret ++ bs.take len) else .err ErrorKind.unexpectedEof.into, s') := by
  induction len using Nat.strong_induction_on generalizing ret bs s k with
  | _ len ih =>
    rcases Nat.eq_zero_or_pos len with rfl | hlen
    · refine ⟨s, k, 1, hs, fun fuel hfuel => ?_⟩
      obtain ⟨fuel, rfl⟩ := Nat.exists_eq_add_of_lt hfuel
      rw [readBytesFromFiniteReaderLoop, if_neg (Nat.lt_irrefl 0), if_pos (Nat.zero_le _), List.take_zero,
        List.append_nil]
    obtain ⟨s', k', N, hs', hturn⟩ := readBytesFromFiniteReaderLoop_turn hr chunkSize hlen hret hs
    have hsplit : len = min len chunkSize + (len - min len chunkSize) := by omega
    have hpos : 0 < min len chunkSize := lt_min hlen hc
    generalize min len chunkSize = chunk at hs' hturn hsplit hpos
    by_cases hbs : chunk ≤ bs.length
    · have htake : (bs.take chunk).length = chunk := List.length_take_of_le hbs
      have hret' : (ret ++ bs.take chunk).length + (len - chunk) < 2 ^ 64 := by
        rw [List.length_append, htake]
        omega
      obtain ⟨s'', k'', N', hs'', hloop⟩ := ih (len - chunk) (by omega) _ hret' hs'
      rw [List.drop_drop, ← hsplit] at hs''
      refine ⟨s'', k'', max N N' + 1, hs'', fun fuel hfuel => ?_⟩
      obtain ⟨fuel, rfl⟩ := Nat.exists_eq_add_of_le' (Nat.le_of_add_left_le hfuel)
      rw [hturn fuel (by omega), if_pos hbs, hloop fuel (by omega), List.append_assoc, ← List.take_add, ← hsplit,
        List.length_drop]
      exact congrArg some (congrArg (·, s'') (if_congr (by omega) rfl rfl))
    · have hnil : bs.drop chunk = bs.drop len := by
        rw [List.drop_of_length_le (by omega), List.drop_of_length_le (by omega)]
      refine ⟨s', k', N + 1, by rwa [← hnil], fun fuel hfuel => ?_⟩
      obtain ⟨fuel, rfl⟩ := Nat.exists_eq_add_of_le' (Nat.le_of_add_left_le hfuel)
      rw [hturn fuel (by omega), if_neg hbs, if_neg (by omega)]

/-- The function returns the next `len` bytes if there are that many, and else fails at the end. -/
theorem readBytesFromFiniteReader_eq (hr : r.Delivers Error.IsInterrupted R) {opts : ReadBytesFromFiniteReaderOpts}
    (hc : opts.chunkSize ≠ 0) {bs : Bytes} {s : σ} {k : ℕ} (hs : R s bs k) :
    ∃ s' k' N, R s' (bs.drop opts.len.toNat) k' ∧ ∀ fuel, N ≤ fuel → readBytesFromFiniteReader r fuel opts s =
      some (if opts.len.toNat ≤ bs.length then .ok (bs.take opts.len.toNat)
        else .err ErrorKind.unexpectedEof.into, s') := by
  obtain ⟨s', k', N, hs', hloop⟩ := readBytesFromFiniteReaderLoop_eq hr (opts.chunkSize_pos hc) opts.len.toNat []
    (by rw [List.length_nil, Nat.zero_add]; exact opts.len.toNat_lt) hs
  refine ⟨s', k', N, hs', fun fuel hfuel => ?_⟩
  rw [readBytesFromFiniteReader, if_pos hc, hloop fuel hfuel, List.nil_append]

end Delivers

/-- On a slice this is the function of the codecs, which keep of an error only that it came from the reader. -/
theorem run_eq_slice (opts : ReadBytesFromFiniteReaderOpts) (bs : Bytes) :
    ∃ result rest N, (∀ fuel, N ≤ fuel →
        readBytesFromFiniteReader (Slice.bufReader : BufReader (Error β) Bytes).toByteReader fuel opts bs =
          some (result, rest)) ∧
      (RustDogecoin.readBytesFromFiniteReader opts.len.toNat opts.chunkSize.toNat).run bs =
        result.mapErr (fun _ => EncodeError.io) >>= fun ret => .ok (ret, rest) := by
  by_cases hc : opts.chunkSize = 0
  · refine ⟨.panic .assertion, bs, 0, fun fuel _ => ?_, ?_⟩
    · rw [readBytesFromFiniteReader, if_neg (not_not_intro hc)]
    · rw [hc]
      rfl
  obtain ⟨rest, -, N, rfl, hread⟩ := readBytesFromFiniteReader_eq (β := β) Slice.delivers hc (k := 0) (Eq.refl bs)
  refine ⟨_, _, N, hread, ?_⟩
  rw [run_readBytesFromFiniteReader (opts.chunkSize_pos hc), Decoder.run_readExact]
  split_ifs with hlen
  · rfl
  · rfl

end Io

open Io (ErrorKind)

/-- Numbers of variable length are written and read exactly and in the shortest form only, and a given number of bytes
is read in chunks exactly if the reader has that many. -/
theorem varInt_exact_and_finite_reads_exact {β σ : Type} {r : ByteReader (Io.Error β) σ} {R : σ → Bytes → ℕ → Prop}
    (hr : r.Delivers Io.Error.IsInterrupted R) :
    (∀ v : VarInt, ∃ w, v.consensusEncode = .ok w ∧ w.len = v.size ∧ w.bytes.length = v.size ∧
      ∀ rest, VarInt.consensusDecode.run (w.bytes ++ rest) = .ok (v, rest)) ∧
    (∀ bs v rest, VarInt.consensusDecode.run bs = .ok (v, rest) →
      ∃ w, v.consensusEncode = .ok w ∧ bs = w.bytes ++ rest) ∧
    (∀ (v : VarInt), ∀ form ∈ VarInt.longForms, v.size ≤ form.2 → ∀ rest,
      VarInt.consensusDecode.run (form.1 :: leBytes form.2 v.val.toNat ++ rest) = .err .nonMinimalVarInt) ∧
    (∀ (v v' : VarInt) w w', v.consensusEncode = .ok w → v'.consensusEncode = .ok w' → w.bytes <+: w'.bytes → v = v') ∧
    (∀ len chunkSize bs, 0 < chunkSize → (readBytesFromFiniteReader len chunkSize).run bs =
      if len ≤ bs.length then .ok (bs.take len, bs.drop len) else .err .io) ∧
    ∀ opts : Io.ReadBytesFromFiniteReaderOpts, opts.chunkSize ≠ 0 → ∀ s bs k, R s bs k →
      ∃ s' k' N, R s' (bs.drop opts.len.toNat) k' ∧
        ∀ fuel, N ≤ fuel → Io.readBytesFromFiniteReader r fuel opts s =
          some (if opts.len.toNat ≤ bs.length then .ok (bs.take opts.len.toNat)
            else .err ErrorKind.unexpectedEof.into, s') := by
  refine ⟨fun v => ⟨v.written, rfl, v.len_written, v.length_written, VarInt.roundTrips v _ trivial rfl⟩,
    fun bs v rest h => (VarInt.canonical bs v rest h).2, fun v _ hform hv => v.run_longForm hform hv,
    fun v v' w w' e e' => VarInt.roundTrips.eq_of_isPrefix trivial trivial e e', fun len chunkSize bs hc => ?_,
    fun opts hc s bs k hs => Io.readBytesFromFiniteReader_eq hr hc hs⟩
  rw [run_readBytesFromFiniteReader hc, Decoder.run_readExact]

/-- Three bytes that arrive in two pieces with an interruption in between, read in chunks of two; four are too many. -/
theorem finite_reads_of_pieces :
    let events : List ReadEvent := [.piece ⟨[1], by decide⟩, .interrupted, .piece ⟨[2, 3], by decide⟩]
    let reader : BufReader (Io.Error Empty) (List ReadEvent) := ReadEvent.reader ErrorKind.interrupted.into
    VarInt.consensusDecode.run [0xFD, 0xFD, 0x00, 0x07] = .ok (⟨0xFD⟩, [0x07]) ∧
      (∃ s fuel, Io.readBytesFromFiniteReader reader.toByteReader fuel ⟨3, 2⟩ events = some (.ok [1, 2, 3], s)) ∧
      ∃ s fuel, Io.readBytesFromFiniteReader reader.toByteReader fuel ⟨4, 2⟩ events =
        some (.err ErrorKind.unexpectedEof.into, s) := by
  intro events reader
  have hgives : ReadEvent.Gives events [1, 2, 3] 1 := ⟨by decide, by decide⟩
  obtain ⟨hround, -, -, -, -, hread⟩ := varInt_exact_and_finite_reads_exact (β := Empty)
    (ReadEvent.delivers (show Io.Error.IsInterrupted ErrorKind.interrupted.into from rfl))
  obtain ⟨w, e, -, -, hw⟩ := hround ⟨0xFD⟩
  obtain rfl := Outcome.ok.inj e
  obtain ⟨s, -, N, -, hs⟩ := hread ⟨3, 2⟩ (by decide) events _ 1 hgives
  obtain ⟨s', -, N', -, hs'⟩ := hread ⟨4, 2⟩ (by decide) events _ 1 hgives
  exact ⟨hw [0x07], ⟨s, N, hs N (Nat.le_refl N)⟩, s', N', hs' N' (Nat.le_refl N')⟩

end RustDogecoin
