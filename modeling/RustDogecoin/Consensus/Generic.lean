import RustDogecoin.Consensus.Encode
import RustDogecoin.Lib.Reader

/-!
# Decoders for any reader

The methods of `Decodable` take any `R: Read`.  `GenericDecode d` is the reading that the decoder `d` of bytes in
memory comes from, in which every error of the reader is passed on, and `Codec.Generic` has one for either method.
The instances follow the ways decoders are put together, so that the source's own text is where they are found.
-/

namespace RustDogecoin

/-! ## Errors -/

/-- `io::ErrorKind`, the kinds that a reader of the crate reports; none of them makes a loop try again. -/
inductive IoErrorKind where
  | unexpectedEof
  | other
  deriving DecidableEq, Repr

/-- `io::Error`, with the text of the error inside. -/
structure IoError where
  kind : IoErrorKind
  error : Option String
  deriving DecidableEq, Repr

/-- `From<ErrorKind>`. -/
def IoErrorKind.into (kind : IoErrorKind) : IoError := ⟨kind, none⟩

/-- `encode::Error`, with the I/O error that it holds. -/
inductive StreamError where
  | io (ioError : IoError)
  | encode (e : EncodeError) (h : e ≠ .io)
  deriving DecidableEq

namespace StreamError

def toEncodeError : StreamError → EncodeError
  | io _ => .io
  | encode e _ => e

/-- On bytes in memory, the I/O error is the end of the input. -/
def ofEncodeError (e : EncodeError) : StreamError :=
  if h : e = .io then io IoErrorKind.unexpectedEof.into else encode e h

@[simp] theorem toEncodeError_ofEncodeError (e : EncodeError) : (ofEncodeError e).toEncodeError = e := by
  unfold ofEncodeError
  split_ifs with h
  · exact h.symm
  · rfl

end StreamError

/-- A value that is there, or an error. -/
def orFail {α : Type} (o : Option α) (e : EncodeError) : Read α :=
  match o with
  | some a => return a
  | none => Decoder.fail e

/-- A decoder that is written for any reader. -/
class GenericDecode {α : Type} (d : Read α) where
  reading : Reading IoError StreamError α
  propagates : reading.Propagates .io
  decoder_eq : reading.decoder StreamError.toEncodeError = d

/-! ## Rules -/

namespace GenericDecode

variable {α β : Type}

theorem length_le {d : Read α} [GenericDecode d] {bs rest : Bytes} {a : α}
    (h : d.run bs = .ok (a, rest)) : rest.length ≤ bs.length := by
  rw [← decoder_eq (d := d)] at h
  exact Reading.length_of_run_decoder h

/-- Decoders that are equal have one reading. -/
@[reducible] def of_eq {d d' : Read α} (h : d = d') [GenericDecode d'] : GenericDecode d :=
  ⟨reading d', propagates, decoder_eq.trans h.symm⟩

instance (a : α) : GenericDecode (pure a : Read α) := ⟨pure a, trivial, rfl⟩

instance (e : EncodeError) : GenericDecode (Decoder.fail e : Read α) where
  reading := .fail (.ofEncodeError e)
  propagates := trivial
  decoder_eq := by rw [Reading.decoder_fail, StreamError.toEncodeError_ofEncodeError]

instance (x : Outcome EncodeError α) : GenericDecode (Decoder.ofOutcome x) where
  reading := .done (x.mapErr .ofEncodeError)
  propagates := trivial
  decoder_eq := by
    rw [Reading.decoder_done]
    cases x <;> simp [Outcome.mapErr]

instance (d : Read α) (f : α → Read β) [GenericDecode d] [∀ a, GenericDecode (f a)] :
    GenericDecode (d >>= f) where
  reading := reading d >>= fun a => reading (f a)
  propagates := (propagates (d := d)).bind fun a => propagates (d := f a)
  decoder_eq := by simp only [Reading.decoder_bind, decoder_eq]

instance (f : α → β) (d : Read α) [GenericDecode d] : GenericDecode (f <$> d) where
  reading := f <$> reading d
  propagates := (propagates (d := d)).map f
  decoder_eq := by rw [Reading.decoder_map, decoder_eq]

instance (c : Prop) [Decidable c] (d d' : Read α) [GenericDecode d] [GenericDecode d'] :
    GenericDecode (if c then d else d') where
  reading := if c then reading d else reading d'
  propagates := by split_ifs <;> exact propagates
  decoder_eq := by split_ifs <;> exact decoder_eq

instance (c : Prop) [Decidable c] (e : EncodeError) : GenericDecode (Decoder.ensure c e) where
  reading := if c then pure () else .fail (.ofEncodeError e)
  propagates := by split_ifs <;> exact trivial
  decoder_eq := by
    funext bs
    unfold Decoder.ensure
    split_ifs
    · rfl
    · rw [Reading.decoder_fail, StreamError.toEncodeError_ofEncodeError]
      rfl

instance (limit : ℕ) (d : Read α) [GenericDecode d] : GenericDecode (Decoder.limit limit d) where
  reading := (reading d).take limit
  propagates := propagates.take limit
  decoder_eq := by rw [Reading.decoder_take, decoder_eq]

instance (d : Read α) (n : ℕ) [GenericDecode d] : GenericDecode (d.times n) where
  reading := (reading d).times n
  propagates := propagates.times n
  decoder_eq := by rw [Reading.decoder_times, decoder_eq]

instance (d : Read α) (P : α → Prop) [DecidablePred P] [GenericDecode d]
    (hd : ∀ bs a rest, d.run bs = .ok (a, rest) → P a) : GenericDecode (d.attach hd) where
  reading := (reading d).attach P
  propagates := propagates.attach P
  decoder_eq := by
    have hread : ∀ bs a rest, ((reading d).decoder StreamError.toEncodeError).run bs = .ok (a, rest) → P a := by
      rw [decoder_eq]
      exact hd
    rw [Reading.decoder_attach _ _ hread]
    congr 1
    exact decoder_eq

instance (n : ℕ) : GenericDecode (readSlice n) where
  reading := .readExact .io IoErrorKind.unexpectedEof.into n
  propagates := Reading.propagates_readExact _ n
  decoder_eq := Reading.decoder_readExact _ _ _ n

instance (o : Option α) (e : EncodeError) : GenericDecode (orFail o e) :=
  match o with
  | some a => inferInstanceAs (GenericDecode (pure a))
  | none => inferInstanceAs (GenericDecode (Decoder.fail e))

instance (d : Read α) (d' : Read β) [GenericDecode d] [GenericDecode d'] :
    GenericDecode (d.seq d') := inferInstanceAs (GenericDecode (do return (← d, ← d')))

instance (d : Read α) (Q : α → Prop) [DecidablePred Q] (e : α → EncodeError) [GenericDecode d] :
    GenericDecode (d.guard Q e) :=
  inferInstanceAs (GenericDecode (d >>= fun a => Decoder.ensure (Q a) (e a) >>= fun _ => pure a))

instance (d : Read ℕ) (d' : Read α) [GenericDecode d] [GenericDecode d'] :
    GenericDecode (d.counted d') := inferInstanceAs (GenericDecode (d >>= fun n => d'.times n))

end GenericDecode

/-! ## Codecs -/

/-- Both methods of `Decodable` are written for any reader, and they agree on short inputs. -/
class Codec.Generic {α : Type} (c : Codec α) where
  finite : GenericDecode c.consensusDecodeFromFiniteReader
  decode : GenericDecode c.consensusDecode
  agrees : ∀ bs, bs.length ≤ MAX_VEC_SIZE →
    c.consensusDecode.run bs = c.consensusDecodeFromFiniteReader.run bs

attribute [reducible, instance] Codec.Generic.finite Codec.Generic.decode

namespace Codec.Generic

variable {α β : Type}

instance (enc : Encoder α) (dec : Read α) [h : GenericDecode dec] : (Codec.ofDecode enc dec).Generic :=
  ⟨h, h, fun _ _ => rfl⟩

instance (enc : Encoder α) (dec : Read α) [h : GenericDecode dec] : (Codec.ofFinite enc dec).Generic :=
  ⟨h, inferInstanceAs (GenericDecode (dec.limit MAX_VEC_SIZE)), fun _ hb => Decoder.run_limit_of_le dec hb⟩

theorem agrees_seq (c : Codec α) (c' : Codec β) [c.Generic] [c'.Generic] (bs : Bytes)
    (hbs : bs.length ≤ MAX_VEC_SIZE) : (c.seq c').consensusDecode.run bs =
      (c.seq c').consensusDecodeFromFiniteReader.run bs := by
  change (c.consensusDecode.seq c'.consensusDecode).run bs =
    (c.consensusDecodeFromFiniteReader.seq c'.consensusDecodeFromFiniteReader).run bs
  unfold Decoder.seq
  rw [StateT.run_bind, StateT.run_bind, agrees bs hbs]
  cases hr : c.consensusDecodeFromFiniteReader.run bs with
  | ok r =>
    obtain ⟨a, mid⟩ := r
    have hmid : mid.length ≤ MAX_VEC_SIZE := (GenericDecode.length_le hr).trans hbs
    rw [Outcome.ok_bind, Outcome.ok_bind, StateT.run_bind, StateT.run_bind, agrees mid hmid]
  | err e => rfl
  | panic p => rfl

instance (c : Codec α) (c' : Codec β) [c.Generic] [c'.Generic] : (c.seq c').Generic where
  finite := inferInstanceAs (GenericDecode
    (c.consensusDecodeFromFiniteReader.seq c'.consensusDecodeFromFiniteReader))
  decode := inferInstanceAs (GenericDecode (c.consensusDecode.seq c'.consensusDecode))
  agrees := agrees_seq c c'

instance (c : Codec α) (c' : Codec β) [c.Generic] [c'.Generic] : (c.tuple c').Generic :=
  inferInstanceAs (Codec.ofDecode _ (c.consensusDecode.seq c'.consensusDecode)).Generic

theorem agrees_wrap (e : β ≃ α) (c : Codec α) [c.Generic] (bs : Bytes)
    (hbs : bs.length ≤ MAX_VEC_SIZE) :
    (e.symm <$> c.consensusDecode).run bs = (e.symm <$> c.consensusDecodeFromFiniteReader).run bs := by
  rw [StateT.run_map, StateT.run_map, agrees bs hbs]

instance (e : β ≃ α) (c : Codec α) [c.Generic] : (c.wrap e).Generic where
  finite := inferInstanceAs (GenericDecode (e.symm <$> c.consensusDecodeFromFiniteReader))
  decode := inferInstanceAs (GenericDecode (e.symm <$> c.consensusDecode))
  agrees := agrees_wrap e c

instance (e : β ≃ α) (c : Codec α) [c.Generic] : (implConsensusEncoding e c).Generic where
  finite := inferInstanceAs (GenericDecode (e.symm <$> c.consensusDecodeFromFiniteReader))
  decode := inferInstanceAs (GenericDecode (Decoder.limit MAX_VEC_SIZE (e.symm <$> c.consensusDecode)))
  agrees bs hbs := (Decoder.run_limit_of_le _ hbs).trans (agrees_wrap e c bs hbs)

end Codec.Generic

/-! ## Basic types -/

section Basic

variable {α : Type}

instance (n : ℕ) (toNat : α → ℕ) (ofNat : ℕ → α) : (implIntEncodable n toNat ofNat).Generic := by
  delta implIntEncodable
  infer_instance

instance : u8.Generic := by delta u8; infer_instance

instance : u16.Generic := by delta u16; infer_instance

instance : u32.Generic := by delta u32; infer_instance

instance : u64.Generic := by delta u64; infer_instance

instance : i32.Generic := by delta i32; infer_instance

instance : i64.Generic := by delta i64; infer_instance

/-- What `read_exact` reads, which is as long as the buffer. -/
def readArray (n : ℕ) : Read {bs : Bytes // bs.length = n} :=
  (readSlice n).attach fun _ _ _ hr => (Decoder.run_readExact_eq_ok_iff.1 hr).2

theorem readArray_eq (n : ℕ) :
    (u8Array n).consensusDecode = (fun bs => U8Array.mk bs.1 bs.2) <$> readArray n := by
  funext bs
  change (u8Array n).consensusDecode.run bs = ((fun bs => U8Array.mk bs.1 bs.2) <$> readArray n).run bs
  rw [StateT.run_map]
  by_cases hn : n ≤ bs.length
  · have hlen : (bs.take n).length = n := by simp [hn]
    have hrun : (readSlice n).run bs = .ok (bs.take n, bs.drop n) := if_pos hn
    have harray : (readArray n).run bs = .ok (⟨bs.take n, hlen⟩, bs.drop n) :=
      Decoder.run_attach_eq_ok_iff.2 hrun
    rw [harray]
    exact dif_pos hn
  · have hrun : (readSlice n).run bs = .err .io := if_neg hn
    have harray : (readArray n).run bs = .err .io := Decoder.run_attach_of_err hrun
    rw [harray]
    exact dif_neg hn

instance (n : ℕ) : GenericDecode (readArray n) := by delta readArray; infer_instance

instance (n : ℕ) : GenericDecode (u8Array n).consensusDecode := .of_eq (readArray_eq n)

instance (n : ℕ) : (u8Array n).Generic :=
  inferInstanceAs (Codec.ofDecode _ (u8Array n).consensusDecode).Generic

instance : GenericDecode VarInt.consensusDecode := by
  delta VarInt.consensusDecode
  infer_instance

instance : VarInt.codec.Generic := by delta VarInt.codec; infer_instance

instance : GenericDecode decodeLen := by delta decodeLen; infer_instance

instance (c : Codec α) [c.Generic] : (vec c).Generic := by delta vec; infer_instance

instance readBytesLoopGeneric (chunkSize : ℕ) : ∀ fuel len ret,
    GenericDecode (readBytesFromFiniteReaderLoop chunkSize fuel len ret)
  | 0, _, ret => inferInstanceAs (GenericDecode (pure ret))
  | fuel + 1, len, ret =>
    have := readBytesLoopGeneric chunkSize fuel
    inferInstanceAs (GenericDecode (if 0 < len then readSlice (min len chunkSize) >>= fun chunk =>
      readBytesFromFiniteReaderLoop chunkSize fuel (len - min len chunkSize) (ret ++ chunk) else pure ret))

instance (len chunkSize : ℕ) : GenericDecode (readBytesFromFiniteReader len chunkSize) := by
  delta readBytesFromFiniteReader
  infer_instance

instance : vecU8.Generic := by delta vecU8; infer_instance

instance : string.Generic :=
  inferInstanceAs (Codec.ofDecode string.consensusEncode (vecU8.consensusDecode >>= fun bs => orFail (fromUtf8 bs)
    (.parseFailed "String was not valid UTF8"))).Generic

instance : bool.Generic := by delta bool; infer_instance

end Basic

end RustDogecoin
