import RustDogecoin.Consensus.IterReader
import RustDogecoin.Consensus.Stable

/-!
# Consensus encoding in other formats

`consensus/serde.rs` writes a value as the hexadecimal text of its encoding, or as a sequence of bytes, and reads it
with `IterReader`.  The errors of the decoder become errors of the format, except that an I/O error is taken to be
impossible: a decoder that asks for more bytes than there are ends in a panic (`With.deserialize_iff`).
-/

namespace RustDogecoin

/-! ## Errors -/

/-- `serde::de::Unexpected`. -/
inductive Unexpected where
  | bytes (bs : Bytes)
  | unsigned (n : ℕ)
  | char (c : Char)
  deriving DecidableEq, Repr

/-- `serde::de::Error`, the error type of a format. -/
class SerdeError (D : Type) where
  custom : String → D
  invalidValue : Unexpected → String → D
  invalidLength : ℕ → String → D

/-- The errors of a format that keeps what it is told. -/
inductive DeError where
  | custom (msg : String)
  | invalidValue (unexp : Unexpected) (exp : String)
  | invalidLength (len : ℕ) (exp : String)
  deriving DecidableEq, Repr

instance : SerdeError DeError := ⟨.custom, .invalidValue, .invalidLength⟩

/-- What is used of the errors of the `hex-conservative` crate. -/
structure HexErrors (H : HexCrate) where
  invalidChar : H.InvalidCharError → UInt8
  length : H.OddLengthStringError → ℕ

/-- `map_err` with a conversion that may panic. -/
def mapErrWith {ε ζ α : Type} (f : ε → Outcome Empty ζ) : Outcome ε α → Outcome ζ α
  | .ok a => .ok a
  | .err e =>
    match f e with
    | .ok e => .err e
    | .panic p => .panic p
  | .panic p => .panic p

section Errors

variable {D E : Type} [SerdeError D]

/-- Panics on some variants. -/
def consensusErrorIntoSerde : StreamError → Outcome Empty D
  | .io _ => .panic .assertion
  | .encode (.oversizedVectorAllocation requested max) _ =>
    .ok (SerdeError.custom ("the requested allocation of " ++ toString requested ++
      " items exceeds maximum of " ++ toString max))
  | .encode (.invalidChecksum expected actual) _ =>
    .ok (SerdeError.invalidValue (.bytes actual.toList)
      ("checksum " ++ String.ofList (hexText false expected.toList)))
  | .encode .nonMinimalVarInt _ => .ok (SerdeError.custom "compact size was not encoded minimally")
  | .encode (.parseFailed msg) _ => .ok (SerdeError.custom msg)
  | .encode (.unsupportedSegwitFlag flag) _ =>
    .ok (SerdeError.invalidValue (.unsigned flag.toNat) "segwit version 1 flag")
  | .encode .io h => absurd rfl h

/-- `DecodeError::into_de_error`, with the conversion of the other errors. -/
def DecodeError.intoDeError (other : E → D) : DecodeError E → Outcome Empty D
  | .other error => .ok (other error)
  | .tooManyBytes => .ok (SerdeError.custom "got more bytes than expected")
  | .consensus error => consensusErrorIntoSerde error

/-- `DecodeError::unify`, where the other errors are those of the format. -/
def DecodeError.unify : DecodeError D → Outcome Empty D
  | .other error => .ok error
  | .tooManyBytes => .ok (SerdeError.custom "got more bytes than expected")
  | .consensus error => consensusErrorIntoSerde error

namespace HexErrors

variable {H : HexCrate}

/-- `hex::DecodeInitError::into_de_error`. -/
def decodeInitError (X : HexErrors H) (e : H.OddLengthStringError) : D :=
  SerdeError.invalidLength (X.length e) "an even number of ASCII-encoded hex digits"

/-- `hex::DecodeError::into_de_error`. -/
def decodeError (X : HexErrors H) (e : H.InvalidCharError) : D :=
  let c := X.invalidChar e
  if c < 128 then SerdeError.invalidValue (.char (Char.ofNat c.toNat)) "an ASCII-encoded hex digit"
  else SerdeError.invalidValue (.unsigned c.toNat) "an ASCII-encoded hex digit"

end HexErrors

end Errors

/-! ## Deserializing -/

/-- What a deserializer has for the visitor: a text, if the format is human-readable, or a sequence whose elements
may be errors. -/
inductive DeInput (D : Type) where
  | str (s : Str)
  | seq (items : List (Except D UInt8))

namespace With

section Deserialize

variable {D α : Type} [SerdeError D] {H : HexCrate}

/-- `HRVisitor::visit_str`. -/
def visitStr (X : HexErrors H) (c : Codec α) [c.Generic] (s : Str) : Outcome D α := do
  let decoder ← (Outcome.ofExcept (H.bytesIter s)).mapErr X.decodeInitError
  mapErrWith (DecodeError.intoDeError X.decodeError) (IterReader.decode c.reading (.new decoder))

/-- `BinVisitor::visit_seq`. -/
def visitSeq (c : Codec α) [c.Generic] (items : List (Except D UInt8)) : Outcome D α :=
  mapErrWith DecodeError.unify (IterReader.decode c.reading (.new items))

/-- `With::<Hex>::deserialize`. -/
def deserialize (X : HexErrors H) (c : Codec α) [c.Generic] : DeInput D → Outcome D α
  | .str s => visitStr X c s
  | .seq items => visitSeq c items

end Deserialize

end With

/-- The bytes that an input stands for. -/
def DeInput.bytes {D : Type} : DeInput D → Option Bytes
  | .str s => hexBytes s
  | .seq items => items.mapM Except.toOption

/-- The decoder does not panic, and it returns what `deserialize` returns for the bytes of the input. -/
structure Deserializes {D α : Type} [SerdeError D] {H : HexCrate} (X : HexErrors H) (c : Codec α) [c.Generic]
    (input : DeInput D) : Prop where
  noPanic : (With.deserialize X c input).NoPanic
  ok_iff : ∀ v, With.deserialize X c input = .ok v ↔
    ∃ b, input.bytes = some b ∧ deserialize c b = .ok v

/-- `consensus_decode` ends with an I/O error although none of the items that it read was an error: it asked for more
bytes than there are, or than it may read. -/
def RunsOut {E α : Type} (c : Codec α) [c.Generic] (items : List (Except E UInt8)) : Prop :=
  ∃ ioError iterator, c.reading.run IterReader.reader (.new items) = (.err (.io ioError), ⟨iterator, none, none⟩)

/-- The decoder runs out of bytes on the items that an input has for it. -/
def DeInput.RunsOut {D α : Type} (H : HexCrate) (c : Codec α) [c.Generic] : DeInput D → Prop
  | .str s => ∃ items, H.bytesIter s = .ok items ∧ RustDogecoin.RunsOut c items
  | .seq items => RustDogecoin.RunsOut c items

/-! ## What the decoder returns -/

theorem deserialize_eq_ok_iff {α : Type} (c : Codec α) {bs : Bytes} {v : α} :
    deserialize c bs = .ok v ↔ c.consensusDecodeFromFiniteReader.run bs = .ok (v, []) := by
  rw [deserialize, Outcome.bind_eq_ok_iff]
  constructor
  · rintro ⟨⟨rv, rest⟩, hrun, h⟩
    obtain ⟨rfl, hv⟩ := Outcome.ensure_bind_eq_ok_iff.1 h
    cases hv
    exact hrun
  · intro hrun
    exact ⟨_, hrun, rfl⟩

section Decode

variable {E α : Type} (c : Codec α) [c.Generic]

theorem run_reading (bs : Bytes) : c.consensusDecode.run bs =
    (c.reading.run .cursor bs).1.mapErr StreamError.toEncodeError >>= fun a =>
      .ok (a, (c.reading.run .cursor bs).2) := by
  rw [← Reading.run_decoder]
  exact congrArg (fun d : Read α => d.run bs) GenericDecode.decoder_eq.symm

theorem run_reading_eq_ok_iff {bs rest : Bytes} {v : α} :
    c.consensusDecode.run bs = .ok (v, rest) ↔ c.reading.run .cursor bs = (.ok v, rest) := by
  rw [run_reading]
  rcases c.reading.run .cursor bs with ⟨value | e | p, rest'⟩ <;> simp [Outcome.mapErr]

theorem run_reading_eq_io_iff {bs : Bytes} :
    c.consensusDecode.run bs = .err .io ↔ ∃ ioError, (c.reading.run .cursor bs).1 = .err (.io ioError) := by
  rw [run_reading]
  rcases c.reading.run .cursor bs with ⟨value | (ioError | ⟨e, he⟩) | p, rest⟩
  · simp [Outcome.mapErr]
  · simp [Outcome.mapErr, StreamError.toEncodeError]
  · simp [Outcome.mapErr, StreamError.toEncodeError, he]
  · simp [Outcome.mapErr]

/-- The reader and the bytes in memory: either the same result, with the items behind the bytes left, or the error that
ends the bytes. -/
theorem decode_run_cases (items : List (Except E UInt8)) :
    ∃ (bs : Bytes) (tail : List (Except E UInt8)), items = bs.map .ok ++ tail ∧
      ((c.reading.run IterReader.reader (.new items) = ((c.reading.run .cursor bs).1,
          ⟨(c.reading.run .cursor bs).2.map .ok ++ tail, none, none⟩)) ∨
        ∃ e iterator, tail = .error e :: iterator ∧
          IterReader.decode c.reading (.new items) = .err (.other e)) := by
  obtain ⟨bs, tail, rfl, hstops⟩ := IterReader.exists_bytes items
  refine ⟨bs, tail, rfl, ?_⟩
  obtain ⟨rest, hrun, rfl⟩ | herr := IterReader.decode_cases (propagates_reading c) bs hstops
  · exact .inl hrun
  · exact .inr herr

/-- The decoder ran out exactly if `decode` passes an I/O error on. -/
theorem decode_eq_io_iff (items : List (Except E UInt8)) :
    (∃ ioError, IterReader.decode c.reading (.new items) = .err (.consensus (.io ioError))) ↔ RunsOut c items := by
  constructor
  · rintro ⟨ioError, h⟩
    obtain ⟨bs, tail, rfl, hrun | ⟨e, iterator, -, herr⟩⟩ := decode_run_cases c items
    · rw [IterReader.decode, hrun] at h
      rcases hresult : c.reading.run .cursor bs with ⟨value | (ioError' | e) | p, rest⟩
      all_goals rw [hresult] at h hrun
      · simp only [IterReader.finish] at h
        split_ifs at h
        cases h
      · exact ⟨ioError', _, hrun⟩
      · cases h
      · cases h
    · rw [herr] at h
      cases h
  · rintro ⟨ioError, iterator, hrun⟩
    exact ⟨ioError, by rw [IterReader.decode, hrun]; rfl⟩

/-- On bytes, the decoder runs out exactly if `consensus_decode` reports an I/O error for them. -/
theorem runsOut_map_ok_iff (bs : Bytes) :
    RunsOut c (bs.map (Except.ok : UInt8 → Except E UInt8)) ↔ c.consensusDecode.run bs = .err .io := by
  rw [run_reading_eq_io_iff]
  obtain ⟨rest, hrun, -⟩ | ⟨e, iterator, htail, -⟩ :=
    IterReader.decode_cases (E := E) (propagates_reading c) bs .nil
  · rw [List.append_nil, List.append_nil] at hrun
    rw [RunsOut, hrun]
    constructor
    · rintro ⟨ioError, iterator, h⟩
      exact ⟨ioError, (Prod.mk.inj h).1⟩
    · rintro ⟨ioError, h⟩
      exact ⟨ioError, _, by rw [h]⟩
  · cases htail

theorem decode_eq_ok_iff [hc : c.Returns] {items : List (Except E UInt8)} (hout : ¬RunsOut c items) {v : α} :
    IterReader.decode c.reading (.new items) = .ok v ↔
      ∃ bs : Bytes, items = bs.map .ok ∧ deserialize c bs = .ok v := by
  constructor
  · intro h
    obtain ⟨bs, tail, rfl, hrun | ⟨e, iterator, -, herr⟩⟩ := decode_run_cases c items
    · rw [IterReader.decode, hrun] at h
      rcases hresult : c.reading.run .cursor bs with ⟨value | (ioError | e) | p, rest⟩
      all_goals rw [hresult] at h
      · simp only [IterReader.finish] at h
        split_ifs at h with hempty
        cases h
        obtain ⟨hrest, rfl⟩ := List.append_eq_nil_iff.1 (List.isEmpty_iff.1 hempty)
        rw [List.map_eq_nil_iff.1 hrest, ← run_reading_eq_ok_iff] at hresult
        refine ⟨bs, List.append_nil _, (deserialize_eq_ok_iff c).2 ?_⟩
        rcases hc.bounded bs with heof | heq
        · rw [heof] at hresult
          cases hresult
        · exact heq.symm.trans hresult
      · cases h
      · cases h
      · cases h
    · rw [herr] at h
      cases h
  · rintro ⟨bs, rfl, hv⟩
    rw [runsOut_map_ok_iff] at hout
    have hrun := (hc.bounded bs).resolve_left hout
    rw [(deserialize_eq_ok_iff c).1 hv, run_reading_eq_ok_iff] at hrun
    obtain ⟨rest, hreader, hrest⟩ | ⟨e, iterator, htail, -⟩ :=
      IterReader.decode_cases (E := E) (propagates_reading c) bs .nil
    · rw [List.append_nil, hrun] at hreader
      rw [hrun] at hrest
      subst hrest
      rw [IterReader.decode, hreader]
      rfl
    · cases htail

theorem noPanic_decode [hc : c.Returns] (items : List (Except E UInt8)) :
    (IterReader.decode c.reading (.new items)).NoPanic := by
  intro p h
  obtain ⟨bs, tail, rfl, hrun | ⟨e, iterator, -, herr⟩⟩ := decode_run_cases c items
  · rw [IterReader.decode, hrun] at h
    have hpanic := IterReader.finish_eq_panic h
    apply hc.noPanic bs p
    rw [run_reading, hpanic]
    rfl
  · rw [herr] at h
    cases h

end Decode

/-! ## Inputs -/

section Inputs

variable {D E α : Type} [SerdeError D] {H : HexCrate}

theorem mapErrWith_eq_ok_iff {ε ζ : Type} {f : ε → Outcome Empty ζ} {x : Outcome ε α} {a : α} :
    mapErrWith f x = .ok a ↔ x = .ok a := by
  cases x with
  | ok b => simp [mapErrWith]
  | panic p => simp [mapErrWith]
  | err e =>
    simp only [mapErrWith, reduceCtorEq, iff_false]
    split <;> simp

/-- Only an I/O error does not become an error of the format. -/
theorem consensusErrorIntoSerde_eq_panic_iff {error : StreamError} :
    (∃ p, (consensusErrorIntoSerde error : Outcome Empty D) = .panic p) ↔ ∃ ioError, error = .io ioError := by
  rcases error with ioError | ⟨_ | _ | _ | _ | _ | _, he⟩
  · exact ⟨fun _ => ⟨ioError, rfl⟩, fun _ => ⟨_, rfl⟩⟩
  · exact absurd rfl he
  all_goals simp [consensusErrorIntoSerde]

/-- The conversion of the errors of `decode`, of which only an I/O error of the decoder panics. -/
structure Converts (f : DecodeError E → Outcome Empty D) : Prop where
  consensus : ∀ e, f (.consensus e) = consensusErrorIntoSerde e
  other : ∀ e, (f (.other e)).NoPanic
  tooManyBytes : (f .tooManyBytes).NoPanic

theorem converts_intoDeError (other : E → D) : Converts (DecodeError.intoDeError other) where
  consensus _ := rfl
  other _ := Outcome.noPanic_ok _
  tooManyBytes := Outcome.noPanic_ok _

theorem converts_unify : Converts (DecodeError.unify : DecodeError D → Outcome Empty D) where
  consensus _ := rfl
  other _ := Outcome.noPanic_ok _
  tooManyBytes := Outcome.noPanic_ok _

variable (c : Codec α) [c.Generic] [c.Returns]

theorem noPanic_mapErrWith_iff {f : DecodeError E → Outcome Empty D} (hf : Converts f)
    (items : List (Except E UInt8)) :
    (mapErrWith f (IterReader.decode c.reading (.new items))).NoPanic ↔ ¬RunsOut c items := by
  rw [← decode_eq_io_iff]
  have hno := noPanic_decode c items
  cases hdecode : IterReader.decode c.reading (.new items) with
  | ok v => exact iff_of_true (Outcome.noPanic_ok v) (by simp)
  | panic p => exact absurd hdecode (hno p)
  | err e =>
    have hpanic : (∃ p, f e = .panic p) ↔ ∃ ioError, e = .consensus (.io ioError) := by
      cases e with
      | tooManyBytes => exact iff_of_false (fun ⟨p, hp⟩ => hf.tooManyBytes p hp) (by simp)
      | other e => exact iff_of_false (fun ⟨p, hp⟩ => hf.other e p hp) (by simp)
      | consensus e => rw [hf.consensus, consensusErrorIntoSerde_eq_panic_iff]; simp
    simp only [Outcome.err.injEq, ← hpanic]
    cases hfe : f e with
    | ok d => simp [mapErrWith, hfe, Outcome.NoPanic]
    | panic p => simp [mapErrWith, hfe, Outcome.NoPanic]
    | err e => exact e.elim

theorem mapM_toOption_eq_some_iff {items : List (Except E UInt8)} {bs : Bytes} :
    (items.mapM Except.toOption) = some bs ↔ items = bs.map .ok := by
  induction items generalizing bs with
  | nil => cases bs <;> simp
  | cons item items ih =>
    cases item with
    | error e => cases bs <;> simp [Except.toOption]
    | ok b =>
      rw [List.mapM_cons]
      change ((items.mapM Except.toOption).bind fun bs => some (b :: bs)) = some bs ↔ _
      rw [Option.bind_eq_some_iff]
      simp only [ih, Option.some.injEq]
      constructor
      · rintro ⟨bs, rfl, rfl⟩
        rfl
      · intro h
        cases bs with
        | nil => cases h
        | cons b' bs =>
          obtain ⟨hb, hitems⟩ := List.cons.inj h
          exact ⟨bs, hitems, by rw [Except.ok.inj hb]⟩

/-- The items are those of the bytes that the input stands for, if it stands for any. -/
theorem returns_iff {f : DecodeError E → Outcome Empty D} (hf : Converts f) {items : List (Except E UInt8)}
    {bytes : Option Bytes} (hbytes : ∀ b, bytes = some b ↔ items = b.map .ok) :
    ((mapErrWith f (IterReader.decode c.reading (.new items))).NoPanic ∧
      ∀ v, mapErrWith f (IterReader.decode c.reading (.new items)) = .ok v ↔
        ∃ b, bytes = some b ∧ deserialize c b = .ok v) ↔ ¬RunsOut c items := by
  rw [noPanic_mapErrWith_iff c hf]
  refine and_iff_left_of_imp fun hout v => ?_
  rw [mapErrWith_eq_ok_iff, decode_eq_ok_iff c hout]
  simp only [hbytes]

/-- What the crate documents of its iterator: it yields bytes exactly for the pairs of digits that stand for them. -/
structure HexCrate.ReadsPairs (H : HexCrate) : Prop where
  bytesIter_iff : ∀ s bs, H.bytesIter s = .ok (bs.map .ok) ↔ hexBytes s = some bs

theorem deserializes_iff (hH : H.ReadsPairs) (X : HexErrors H) (input : DeInput D) :
    Deserializes X c input ↔ ¬input.RunsOut H c := by
  have hsplit : Deserializes X c input ↔ (With.deserialize X c input).NoPanic ∧
      ∀ v, With.deserialize X c input = .ok v ↔ ∃ b, input.bytes = some b ∧ deserialize c b = .ok v :=
    ⟨fun h => ⟨h.noPanic, h.ok_iff⟩, fun h => ⟨h.1, h.2⟩⟩
  rw [hsplit]
  cases input with
  | seq items => exact returns_iff c converts_unify fun b => mapM_toOption_eq_some_iff
  | str s =>
    cases hiter : H.bytesIter s with
    | error e =>
      have hresult : With.deserialize X c (.str s) = .err (X.decodeInitError e : D) := by
        change With.visitStr X c s = _
        rw [With.visitStr, hiter]
        rfl
      have hbytes : ∀ b, (DeInput.str s : DeInput D).bytes ≠ some b := by
        intro b hb
        have hitems := (hH.bytesIter_iff s b).2 hb
        rw [hiter] at hitems
        cases hitems
      rw [hresult]
      refine iff_of_true ⟨Outcome.noPanic_err _, fun v => ?_⟩ ?_
      · simp [hbytes]
      · rintro ⟨items, hitems, -⟩
        rw [hiter] at hitems
        cases hitems
    | ok items =>
      have hresult : With.deserialize X c (.str s) = mapErrWith (DecodeError.intoDeError (X.decodeError (D := D)))
          (IterReader.decode c.reading (.new items)) := by
        change With.visitStr X c s = _
        rw [With.visitStr, hiter]
        rfl
      have hout : (DeInput.str s : DeInput D).RunsOut H c ↔ RunsOut c items := by
        simp only [DeInput.RunsOut, hiter, Except.ok.injEq, exists_eq_left']
      have hbytes : ∀ b, (DeInput.str s : DeInput D).bytes = some b ↔ items = b.map .ok := by
        intro b
        rw [DeInput.bytes, ← hH.bytesIter_iff, hiter, Except.ok.injEq]
      rw [hresult, hout]
      exact returns_iff c (converts_intoDeError _) hbytes

end Inputs

/-! ## Serializing -/

/-- `BufEncoder` of the `hex-conservative` crate, for a capacity in digits. -/
structure BufEncoder where
  State : Type
  new : State
  isFull : State → Bool
  /-- The bytes that did not fit are returned. -/
  putBytesMin : Bool → State → Bytes → State × Bytes
  asStr : State → Str
  clear : State → State

/-- What the crate documents: as many bytes as fit are encoded, and a buffer is full if none fits any more. -/
structure BufEncoder.Documented (B : BufEncoder) (capacity : ℕ) : Prop where
  asStr_new : B.asStr B.new = []
  asStr_clear : ∀ enc, B.asStr (B.clear enc) = []
  isFull_iff : ∀ enc, B.isFull enc = true ↔ (capacity - (B.asStr enc).length) / 2 = 0
  asStr_put : ∀ upper enc bytes, B.asStr (B.putBytesMin upper enc bytes).1 =
    B.asStr enc ++ hexText upper (bytes.take ((capacity - (B.asStr enc).length) / 2))
  rest_put : ∀ upper enc bytes, (B.putBytesMin upper enc bytes).2 =
    bytes.drop ((capacity - (B.asStr enc).length) / 2)

def HEX_BUF_SIZE : ℕ := 512

/-- A buffer that is the text in it. -/
def BufEncoder.plain : BufEncoder where
  State := Str
  new := []
  isFull text := (HEX_BUF_SIZE - text.length) / 2 == 0
  putBytesMin upper text bytes :=
    let n := (HEX_BUF_SIZE - text.length) / 2
    (text ++ hexText upper (bytes.take n), bytes.drop n)
  asStr text := text
  clear _ := []

theorem BufEncoder.plain_documented : BufEncoder.plain.Documented HEX_BUF_SIZE where
  asStr_new := rfl
  asStr_clear _ := rfl
  isFull_iff _ := beq_iff_eq
  asStr_put _ _ _ := rfl
  rest_put _ _ _ := rfl

section Serialize

variable {W : Type} (B : BufEncoder) (upper : Bool) (writeStr : W → Str → Except FmtError W)

/-- `Encoder::flush`. -/
def flush (s : W × B.State) : Except FmtError (W × B.State) := do
  let writer ← writeStr s.1 (B.asStr s.2)
  return (writer, B.clear s.2)

/-- The loop of `Encoder::encode_chunk`.  Every turn takes a byte at least, so that as many turns as there are bytes
are enough; without a result, the loop goes on. -/
def encodeChunkLoop : ℕ → Bytes → W × B.State → Option (Except FmtError (W × B.State))
  | _, [], s => some (.ok s)
  | 0, _ :: _, _ => none
  | fuel + 1, byte :: bytes, s =>
    match if B.isFull s.2 then flush B writeStr s else .ok s with
    | .error e => some (.error e)
    | .ok s =>
      let (enc, bytes) := B.putBytesMin upper s.2 (byte :: bytes)
      encodeChunkLoop fuel bytes (s.1, enc)

/-- `Encoder::encode_chunk`, which is what `IoWrapper` does with each write. -/
def encodeChunk (bytes : Bytes) (s : W × B.State) : Option (Except FmtError (W × B.State)) :=
  encodeChunkLoop B upper writeStr bytes.length bytes s

/-- The writes of `consensus_encode`, one after the other. -/
def encodeChunks : List Bytes → W × B.State → Option (Except FmtError (W × B.State))
  | [], s => some (.ok s)
  | chunk :: chunks, s =>
    match encodeChunk B upper writeStr chunk s with
    | some (.ok s) => encodeChunks chunks s
    | stopped => stopped

/-- `DisplayWrapper::fmt`, for a value whose encoder writes the given chunks. -/
def displayFmt (chunks : List Bytes) (f : W) : Option (Except FmtError W) :=
  match encodeChunks B upper writeStr chunks (f, B.new) with
  | some (.ok s) => some (Prod.fst <$> flush B writeStr s)
  | some (.error e) => some (.error e)
  | none => none

end Serialize

section SerializeLaws

variable {B : BufEncoder} {capacity : ℕ} (hB : B.Documented capacity) (hcap : 2 ≤ capacity) (upper : Bool)

theorem hexText_append (a b : Bytes) : hexText upper (a ++ b) = hexText upper a ++ hexText upper b :=
  List.flatMap_append

include hB hcap in
/-- What has been written and what is held are together what was there and the text of the bytes. -/
theorem encodeChunkLoop_eq (fuel : ℕ) (bytes : Bytes) (f : Str) (enc : B.State) (hfuel : bytes.length ≤ fuel) :
    ∃ f' enc', encodeChunkLoop B upper pushStr fuel bytes (f, enc) = some (.ok (f', enc')) ∧
      f' ++ B.asStr enc' = f ++ B.asStr enc ++ hexText upper bytes := by
  induction fuel generalizing bytes f enc with
  | zero =>
    obtain rfl := List.length_eq_zero_iff.1 (Nat.le_zero.1 hfuel)
    exact ⟨f, enc, rfl, (List.append_nil _).symm⟩
  | succ fuel ih =>
    cases bytes with
    | nil => exact ⟨f, enc, rfl, (List.append_nil _).symm⟩
    | cons byte bytes =>
      -- a buffer that is full is emptied first
      obtain ⟨f₁, enc₁, hflush, htext, hroom⟩ : ∃ (f₁ : Str) (enc₁ : B.State),
          (if B.isFull enc then flush B pushStr (f, enc) else .ok (f, enc)) = .ok (f₁, enc₁) ∧
          f₁ ++ B.asStr enc₁ = f ++ B.asStr enc ∧ 0 < (capacity - (B.asStr enc₁).length) / 2 := by
        by_cases hfull : B.isFull enc = true
        · refine ⟨f ++ B.asStr enc, B.clear enc, if_pos hfull, ?_, ?_⟩
          · rw [hB.asStr_clear, List.append_nil]
          · rw [hB.asStr_clear, List.length_nil]
            omega
        · exact ⟨f, enc, if_neg hfull, rfl, Nat.pos_of_ne_zero fun hzero => hfull ((hB.isFull_iff enc).2 hzero)⟩
      have hrest := hB.rest_put upper enc₁ (byte :: bytes)
      have hput := hB.asStr_put upper enc₁ (byte :: bytes)
      generalize (capacity - (B.asStr enc₁).length) / 2 = n at hroom hrest hput
      have hlength : ((byte :: bytes).drop n).length ≤ fuel := by
        rw [List.length_drop]
        omega
      obtain ⟨f', enc', hloop, hheld⟩ := ih ((byte :: bytes).drop n) f₁ _ hlength
      refine ⟨f', enc', ?_, ?_⟩
      · rw [encodeChunkLoop]
        simp only [hflush, hrest]
        exact hloop
      · rw [hheld, hput, ← htext, List.append_assoc, List.append_assoc, ← hexText_append,
          List.take_append_drop, List.append_assoc]

include hB hcap in
theorem encodeChunks_eq (chunks : List Bytes) (f : Str) (enc : B.State) :
    ∃ f' enc', encodeChunks B upper pushStr chunks (f, enc) = some (.ok (f', enc')) ∧
      f' ++ B.asStr enc' = f ++ B.asStr enc ++ hexText upper chunks.flatten := by
  induction chunks generalizing f enc with
  | nil => exact ⟨f, enc, rfl, (List.append_nil _).symm⟩
  | cons chunk chunks ih =>
    obtain ⟨f₁, enc₁, hchunk, htext⟩ := encodeChunkLoop_eq hB hcap upper chunk.length chunk f enc le_rfl
    obtain ⟨f', enc', hchunks, hheld⟩ := ih f₁ enc₁
    refine ⟨f', enc', ?_, ?_⟩
    · rw [encodeChunks, encodeChunk, hchunk]
      exact hchunks
    · rw [hheld, htext, List.flatten_cons, hexText_append, List.append_assoc]

include hB hcap in
/-- The text is that of the bytes, wherever the writes are cut. -/
theorem displayFmt_eq (chunks : List Bytes) :
    displayFmt B upper pushStr chunks [] = some (.ok (hexText upper chunks.flatten)) := by
  obtain ⟨f, enc, hchunks, htext⟩ := encodeChunks_eq hB hcap upper chunks [] B.new
  rw [hB.asStr_new] at htext
  have hflush : flush B pushStr (f, enc) = .ok (f ++ B.asStr enc, B.clear enc) := rfl
  simp only [displayFmt, hchunks, hflush, htext]
  rfl

end SerializeLaws

/-! ## The laws -/

theorem hexBytes_of_hexItems {s : Str} {bs : Bytes} (heven : s.length % 2 = 0) (h : hexItems s = bs.map .ok) :
    hexBytes s = some bs := by
  induction s using hexBytes.induct generalizing bs with
  | case1 =>
    cases bs with
    | nil => rfl
    | cons b bs => cases h
  | case2 c => cases heven
  | case3 c d s ih =>
    rw [List.length_cons, List.length_cons] at heven
    rw [hexItems] at h
    cases bs with
    | nil => cases h
    | cons b bs =>
      obtain ⟨hitem, hitems⟩ := List.cons.inj h
      split at hitem
      · rename_i x y hc hd
        rw [hexBytes_cons hc hd, ih (by omega) hitems, Option.map_some, Except.ok.inj hitem]
      · cases hitem

theorem HexCrate.plain_readsPairs : HexCrate.plain.ReadsPairs where
  bytesIter_iff s bs := by
    have hiter : HexCrate.plain.bytesIter s = if s.length % 2 = 0 then .ok (hexItems s) else .error () := rfl
    rw [hiter]
    constructor
    · intro h
      split_ifs at h with heven
      exact hexBytes_of_hexItems heven (Except.ok.inj h)
    · intro h
      have heven : s.length % 2 = 0 := by
        rw [(exists_hexBytes_iff.1 ⟨bs, h, rfl⟩).2]
        omega
      rw [if_pos heven, hexItems_of_hexBytes h]
      rfl

/-- On bytes, an input runs out of them exactly if `consensus_decode` reports an I/O error for them. -/
theorem DeInput.runsOut_iff {D α : Type} {H : HexCrate} (hH : H.ReadsPairs) (c : Codec α) [c.Generic]
    {input : DeInput D} {b : Bytes} (hb : input.bytes = some b) :
    input.RunsOut H c ↔ c.consensusDecode.run b = .err .io := by
  cases input with
  | seq items =>
    obtain rfl := mapM_toOption_eq_some_iff.1 hb
    exact runsOut_map_ok_iff c b
  | str s =>
    have hiter := (hH.bytesIter_iff s b).2 hb
    simp only [DeInput.RunsOut, hiter, Except.ok.injEq, exists_eq_left']
    exact runsOut_map_ok_iff c b

/-- Reading a value does not panic and agrees with `deserialize` exactly if its decoder does not run out of bytes; for
the text or the sequence of some bytes, this is an I/O error of `consensus_decode`.  What is written is the text of the
encoding, wherever the encoder's writes are cut. -/
theorem With.deserialize_iff {D α : Type} [SerdeError D] {H : HexCrate} (hH : H.ReadsPairs) (X : HexErrors H)
    {B : BufEncoder} (hB : B.Documented HEX_BUF_SIZE) (c : Codec α) [c.Generic] [c.Returns] :
    (∀ input : DeInput D, Deserializes X c input ↔ ¬input.RunsOut H c) ∧
    (∀ (input : DeInput D) (b : Bytes), input.bytes = some b →
      (input.RunsOut H c ↔ c.consensusDecode.run b = .err .io)) ∧
    ∀ upper v w (chunks : List Bytes), c.consensusEncode v = .ok w → chunks.flatten = w.bytes →
      displayFmt B upper pushStr chunks [] = some (.ok (hexText upper w.bytes)) := by
  refine ⟨deserializes_iff c hH X, fun input b hb => input.runsOut_iff hH c hb, ?_⟩
  rintro upper v w chunks - hchunks
  rw [← hchunks]
  exact displayFmt_eq hB (by decide) upper chunks

/-- The errors of the plain crate, which say nothing of the text. -/
def HexErrors.plain : HexErrors HexCrate.plain := ⟨fun _ => 0, fun _ => 1⟩

/-- A compact target whole, and one whose last byte is missing. -/
theorem With.deserialize_iff_sample :
    (Deserializes HexErrors.plain u32 (.str "ffff001d".toList : DeInput DeError) ↔
      ¬(.str "ffff001d".toList : DeInput DeError).RunsOut HexCrate.plain u32) ∧
    ((.str "ffff00".toList : DeInput DeError).RunsOut HexCrate.plain u32 ↔
      u32.consensusDecode.run [0xff, 0xff, 0x00] = .err .io) ∧
    displayFmt BufEncoder.plain false pushStr [[0xff, 0xff], [0x00, 0x1d]] [] = some (.ok "ffff001d".toList) :=
  have h := With.deserialize_iff (D := DeError) HexCrate.plain_readsPairs HexErrors.plain BufEncoder.plain_documented
    u32
  ⟨h.1 _, h.2.1 _ _ (by decide +kernel), h.2.2 false 0x1d00ffff _ _ rfl rfl⟩

/-- The text of three bytes panics where four are read, and so do three elements of a sequence. -/
theorem With.deserialize_truncated :
    (With.deserialize HexErrors.plain u32 (.str "ffff00".toList : DeInput DeError) = .panic .assertion ∧
      ¬Deserializes HexErrors.plain u32 (.str "ffff00".toList : DeInput DeError)) ∧
    ¬Deserializes HexErrors.plain u32 (.seq [.ok 0xff, .ok 0xff, .ok 0x00] : DeInput DeError) := by
  have hstr : With.deserialize HexErrors.plain u32 (.str "ffff00".toList : DeInput DeError) =
    .panic .assertion := by rfl
  have hseq : With.deserialize HexErrors.plain u32 (.seq [.ok 0xff, .ok 0xff, .ok 0x00] : DeInput DeError) =
    .panic .assertion := by rfl
  exact ⟨⟨hstr, fun h => h.noPanic _ hstr⟩, fun h => h.noPanic _ hseq⟩

end RustDogecoin
