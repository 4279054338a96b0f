import RustDogecoin.Consensus.GenericTypes
import RustDogecoin.Hex

/-!
# Decoding from an iterator

`IterReader` of `consensus/mod.rs` reads from an iterator of bytes and errors and keeps the error that it reports as
an I/O error; `deserialize_hex` decodes with it what the pairs of digits of a text stand for.  In front of the first
error of its iterator the reader follows the bytes, so a decoder that passes I/O errors on does what it would do in
memory, or it returns the I/O error of the error that was kept.  These are the cases that `IterReader::decode` tells
apart without a panic.
-/

namespace RustDogecoin

/-- `IterReader`, with the items that its iterator has not yielded yet. -/
structure IterReader (E : Type) where
  iterator : List (Except E UInt8)
  buf : Option UInt8
  error : Option E

/-- `DecodeError`. -/
inductive DecodeError (E : Type) where
  | tooManyBytes
  | consensus (e : StreamError)
  | other (e : E)

namespace IterReader

variable {E α : Type}

def new (iterator : List (Except E UInt8)) : IterReader E := ⟨iterator, none, none⟩

/-- The loop of `read`, with `n` places to fill: the bytes it stores, or the error that it stops at. -/
def fill : (n : ℕ) → List (Except E UInt8) → Reader.Answer E n × List (Except E UInt8)
  | 0, iterator => (.ok ⟨[], Nat.le_refl 0⟩, iterator)
  | n + 1, [] => (.ok ⟨[], Nat.zero_le (n + 1)⟩, [])
  | _ + 1, .error e :: iterator => (.error e, iterator)
  | n + 1, .ok byte :: iterator =>
    match fill n iterator with
    | (.ok bs, iterator) => (.ok ⟨byte :: bs.1, Nat.succ_le_succ bs.2⟩, iterator)
    | (.error e, iterator) => (.error e, iterator)

theorem length_buf_append_le {n : ℕ} (hn : n ≠ 0) (buf : Option UInt8)
    (bs : {bs : Bytes // bs.length ≤ n - buf.toList.length}) : (buf.toList ++ bs.1).length ≤ n := by
  have hbs := bs.2
  have hbuf : buf.toList.length ≤ 1 := by cases buf <;> simp
  rw [List.length_append]
  omega

/-- `Read::read`, with a buffer of `n` bytes. -/
def read (n : ℕ) (r : IterReader E) : Reader.Answer IoError n × IterReader E :=
  if hn : n = 0 then (.ok ⟨[], Nat.zero_le n⟩, r)
  else
    match fill (n - r.buf.toList.length) r.iterator with
    | (.ok bs, iterator) =>
      (.ok ⟨r.buf.toList ++ bs.1, length_buf_append_le hn r.buf bs⟩, ⟨iterator, none, r.error⟩)
    | (.error e, iterator) => (.error IoErrorKind.other.into, ⟨iterator, none, some e⟩)

/-- `BufRead::fill_buf`. -/
def fillBuf (r : IterReader E) : Outcome IoError Bytes × IterReader E :=
  match r.buf, r.iterator with
  | some byte, _ => (.ok [byte], r)
  | none, .ok byte :: iterator =>
    let r := { r with iterator, buf := some byte }
    -- `expect("we've just filled it")`
    (match r.buf with | some byte => .ok [byte] | none => .panic .unwrap, r)
  | none, .error e :: iterator => (.err IoErrorKind.other.into, { r with iterator, error := some e })
  | none, [] => (.ok [], r)

/-- `BufRead::consume`. -/
def consume (len : ℕ) (r : IterReader E) : Outcome Empty (IterReader E) := do
  .require (len ≤ 1) .assertion
  return if 0 < len then { r with buf := none } else r

def reader : Reader IoError (IterReader E) := ⟨read⟩

/-- The `match` of `IterReader::decode` on what `consensus_decode` returned and the error that was kept. -/
def finish (result : Outcome StreamError α) (r : IterReader E) : Outcome (DecodeError E) α :=
  match result, r.error with
  | .ok value, none => if r.iterator.isEmpty then .ok value else .err .tooManyBytes
  -- the error was silently eaten
  | .ok _, some _ => .panic .assertion
  | .err (.io ioError), some e =>
    if ioError.kind = .other ∧ ioError.error = none then .err (.other e) else .panic .assertion
  | .err e, none => .err (.consensus e)
  -- another error was returned instead of the I/O error
  | .err (.encode _ _), some _ => .panic .assertion
  | .panic p, _ => .panic p

/-- `IterReader::decode`, for the `consensus_decode` of a type. -/
def decode (consensusDecode : Reading IoError StreamError α) (r : IterReader E) :
    Outcome (DecodeError E) α :=
  let (result, r) := consensusDecode.run reader r
  finish result r

/-! ## What is read -/

/-- Nothing more is yielded, or an error is. -/
inductive Stops : List (Except E UInt8) → Prop
  | nil : Stops []
  | error (e : E) (iterator : List (Except E UInt8)) : Stops (.error e :: iterator)

/-- An iterator yields bytes until it stops. -/
theorem exists_bytes (iterator : List (Except E UInt8)) :
    ∃ (bs : Bytes) (tail : List (Except E UInt8)), iterator = bs.map .ok ++ tail ∧ Stops tail := by
  induction iterator with
  | nil => exact ⟨[], [], rfl, .nil⟩
  | cons item iterator ih =>
    cases item with
    | error e => exact ⟨[], _, rfl, .error e iterator⟩
    | ok byte =>
      obtain ⟨bs, tail, rfl, hstops⟩ := ih
      exact ⟨byte :: bs, tail, rfl, hstops⟩

/-- There are bytes for all places, or no error ends them. -/
theorem fill_bytes {n : ℕ} {bs : Bytes} {tail : List (Except E UInt8)} (h : n ≤ bs.length ∨ tail = []) :
    fill n (bs.map .ok ++ tail) =
      (.ok ⟨bs.take n, List.length_take_le n bs⟩, (bs.drop n).map .ok ++ tail) := by
  induction n generalizing bs with
  | zero => rfl
  | succ n ih =>
    cases bs with
    | nil =>
      obtain rfl : tail = [] := h.resolve_left (by simp)
      rfl
    | cons byte bs =>
      rw [List.map_cons, List.cons_append, fill, ih (h.imp_left Nat.le_of_succ_le_succ)]
      rfl

theorem fill_error {n : ℕ} {bs : Bytes} (h : bs.length < n) (e : E) (tail : List (Except E UInt8)) :
    fill n (bs.map .ok ++ .error e :: tail) = (.error e, tail) := by
  induction n generalizing bs with
  | zero => simp at h
  | succ n ih =>
    cases bs with
    | nil => rfl
    | cons byte bs => rw [List.map_cons, List.cons_append, fill, ih (Nat.lt_of_succ_lt_succ h)]

theorem read_of_fill_ok {n : ℕ} (hn : n ≠ 0) {items iterator : List (Except E UInt8)}
    {bs : {bs : Bytes // bs.length ≤ n}} (h : fill n items = (.ok bs, iterator)) :
    read n ⟨items, none, none⟩ = (.ok bs, ⟨iterator, none, none⟩) := by
  have hfill : fill (n - (none : Option UInt8).toList.length) items = (.ok bs, iterator) := h
  rw [read, dif_neg hn, hfill]
  rfl

theorem read_of_fill_error {n : ℕ} (hn : n ≠ 0) {items iterator : List (Except E UInt8)} {e : E}
    (h : fill n items = (.error e, iterator)) :
    read n ⟨items, none, none⟩ = (.error IoErrorKind.other.into, ⟨iterator, none, some e⟩) := by
  have hfill : fill (n - (none : Option UInt8).toList.length) items = (.error e, iterator) := h
  rw [read, dif_neg hn, hfill]

/-- The reader has nothing in its buffer and no error, and the bytes are what its iterator yields. -/
def Yields (tail : List (Except E UInt8)) (r : IterReader E) (bs : Bytes) : Prop :=
  r = ⟨bs.map .ok ++ tail, none, none⟩

/-- The reader has reported the error that its iterator stopped at. -/
def Failed (tail : List (Except E UInt8)) (ioError : IoError) (r : IterReader E) : Prop :=
  ioError = IoErrorKind.other.into ∧ ∃ e iterator, tail = .error e :: iterator ∧ r = ⟨iterator, none, some e⟩

/-- In front of the first error of its iterator, the reader follows the bytes. -/
theorem follows {tail : List (Except E UInt8)} (hstops : Stops tail) :
    (reader (E := E)).Follows (Yields tail) (Failed tail) := by
  rintro n _ bs rfl
  by_cases hn : n = 0
  · subst hn
    exact .inl ⟨_, rfl, rfl⟩
  cases hstops with
  | nil => exact .inl ⟨_, read_of_fill_ok hn (fill_bytes (.inr rfl)), rfl⟩
  | error e iterator =>
    rcases Nat.lt_or_ge bs.length n with hlt | hge
    · exact .inr ⟨_, _, read_of_fill_error hn (fill_error hlt e iterator), rfl, e, iterator, rfl, rfl⟩
    · exact .inl ⟨_, read_of_fill_ok hn (fill_bytes (.inl hge)), rfl⟩

/-- Without an error, the decoder's own panics are the only ones. -/
theorem finish_eq_panic {result : Outcome StreamError α} {iterator : List (Except E UInt8)} {p : Panic}
    (h : finish result ⟨iterator, none, none⟩ = .panic p) : result = .panic p := by
  rcases result with value | (ioError | e) | q
  · simp only [finish] at h
    split_ifs at h
  · cases h
  · cases h
  · exact congrArg Outcome.panic (Outcome.panic.inj h)

/-- The decoder does what it does to the bytes in memory, or the error that the iterator stops at is returned. -/
theorem decode_cases {consensusDecode : Reading IoError StreamError α}
    (hp : consensusDecode.Propagates .io) (bs : Bytes) {tail : List (Except E UInt8)} (hstops : Stops tail) :
    (∃ rest : Bytes, consensusDecode.run reader (new (bs.map .ok ++ tail)) =
        ((consensusDecode.run .cursor bs).1, ⟨rest.map .ok ++ tail, none, none⟩) ∧
        rest = (consensusDecode.run .cursor bs).2) ∨
      ∃ e iterator, tail = .error e :: iterator ∧
        decode consensusDecode (new (bs.map .ok ++ tail)) = .err (.other e) := by
  obtain ⟨_, hrun, rfl⟩ | ⟨_, _, hrun, rfl, e, iterator, rfl, rfl⟩ := (follows hstops).run hp (s := new _) rfl
  · exact .inl ⟨_, hrun, rfl⟩
  · refine .inr ⟨e, iterator, rfl, ?_⟩
    rw [decode, hrun]
    rfl

/-- The branches of `decode` that panic are not reached, whatever the iterator yields. -/
theorem decode_eq_panic {consensusDecode : Reading IoError StreamError α}
    (hp : consensusDecode.Propagates .io) {items : List (Except E UInt8)} {p : Panic}
    (h : decode consensusDecode (new items) = .panic p) :
    (consensusDecode.run reader (new items)).1 = .panic p := by
  obtain ⟨bs, tail, rfl, hstops⟩ := exists_bytes items
  obtain ⟨rest, hrun, -⟩ | ⟨e, iterator, -, herr⟩ := decode_cases hp bs hstops
  · rw [decode, hrun] at h
    rw [hrun]
    exact finish_eq_panic h
  · rw [herr] at h
    cases h

theorem noPanic_fillBuf (r : IterReader E) : r.fillBuf.1.NoPanic := by
  obtain ⟨_ | ⟨_ | byte, iterator⟩, _ | first, error⟩ := r
  all_goals intro p h; cases h

/-- At most the one byte that was read ahead is given out. -/
theorem length_fillBuf_le {r r' : IterReader E} {bs : Bytes} (h : r.fillBuf = (.ok bs, r')) :
    bs.length ≤ 1 := by
  obtain ⟨_ | ⟨_ | byte, iterator⟩, _ | first, error⟩ := r
  all_goals cases h <;> simp

theorem noPanic_consume {len : ℕ} (h : len ≤ 1) (r : IterReader E) : (r.consume len).NoPanic := by
  rw [consume, Outcome.require_of h]
  exact Outcome.noPanic_ok _

end IterReader

/-! ## Texts -/

/-- `FromHexError`. -/
inductive FromHexError (H : HexCrate) where
  | oddLengthString (e : H.OddLengthStringError)
  | decode (e : DecodeError H.InvalidCharError)

/-- The reading of `T::consensus_decode`. -/
abbrev Codec.reading {α : Type} (c : Codec α) [c.Generic] : Reading IoError StreamError α :=
  GenericDecode.reading c.consensusDecode

/-- Deserialize any decodable type from a hex string, which must be consumed entirely. -/
def deserializeHex (H : HexCrate) {α : Type} (c : Codec α) [c.Generic] (hex : Str) :
    Outcome (FromHexError H) α := do
  let iter ← (Outcome.ofExcept (H.bytesIter hex)).mapErr .oddLengthString
  (IterReader.decode c.reading (.new iter)).mapErr .decode

/-- The same value, or an error where there is one. -/
structure SameResult {ε ζ α : Type} (x : Outcome ε α) (y : Outcome ζ α) : Prop where
  ok_iff : ∀ a, x = .ok a ↔ y = .ok a
  err_iff : (∃ e, x = .err e) ↔ ∃ e, y = .err e

/-- The error of `deserialize` for bytes in memory, where the text stands for bytes. -/
def FromHexError.inMemory {H : HexCrate} : FromHexError H → Option EncodeError
  | decode .tooManyBytes =>
    some (.parseFailed "data not consumed entirely when explicitly deserializing")
  | decode (.consensus e) => some e.toEncodeError
  | decode (.other _) => none
  | oddLengthString _ => none

section

variable {α : Type} (c : Codec α) [c.Generic]

theorem propagates_reading : c.reading.Propagates .io :=
  GenericDecode.propagates (d := c.consensusDecode)

/-- `deserialize` in terms of the reading that `deserialize_hex` runs. -/
theorem deserialize_eq {bs : Bytes} (hbs : bs.length ≤ MAX_VEC_SIZE) : deserialize c bs =
    (c.reading.run .cursor bs).1.mapErr StreamError.toEncodeError >>= fun rv =>
      .ensure ((c.reading.run .cursor bs).2 = [])
        (.parseFailed "data not consumed entirely when explicitly deserializing") >>= fun _ => pure rv := by
  have hdec : c.consensusDecodeFromFiniteReader.run bs =
      (c.reading.decoder StreamError.toEncodeError).run bs := by
    rw [GenericDecode.decoder_eq, Codec.Generic.agrees bs hbs]
  rw [deserialize, hdec, Reading.run_decoder]
  rcases c.reading.run .cursor bs with ⟨_ | _ | _, rest⟩ <;> rfl

/-- The hex path makes no difference: the same value, the same error, or the same panic. -/
theorem deserializeHex_hexText {H : HexCrate} (hH : H.Documented) (upper : Bool) {bs : Bytes}
    (hbs : bs.length ≤ MAX_VEC_SIZE) :
    (deserializeHex H c (hexText upper bs)).mapErr FromHexError.inMemory =
      (deserialize c bs).mapErr some := by
  rw [deserialize_eq c hbs, deserializeHex, hH.bytesIter_hexText]
  change (Outcome.mapErr _ _).mapErr _ = _
  obtain ⟨rest, hrun, hrest⟩ | ⟨e, iterator, htail, -⟩ :=
    IterReader.decode_cases (E := H.InvalidCharError) (propagates_reading c) bs .nil
  · rw [List.append_nil] at hrun
    rw [IterReader.decode, hrun, hrest]
    rcases c.reading.run .cursor bs with ⟨value | (ioError | e) | p, rest⟩
    · cases rest <;> rfl
    · rfl
    · rfl
    · rfl
  · cases htail

theorem sameResult_of_mapErr {ε ζ η : Type} {f : ε → η} {g : ζ → η} {x : Outcome ε α} {y : Outcome ζ α}
    (h : x.mapErr f = y.mapErr g) : SameResult x y where
  ok_iff a := by rw [← Outcome.mapErr_eq_ok_iff (f := f), h, Outcome.mapErr_eq_ok_iff]
  err_iff := by cases x <;> cases y <;> simp_all [Outcome.mapErr]

/-- On the text of at most `MAX_VEC_SIZE` bytes, in digits of either case, `deserialize_hex` returns the value that
`deserialize` returns, and an error where that does.  Whatever an iterator yields, the only panics of
`IterReader::decode` are those of the type's own decoder, and neither `fill_buf` nor `consume` of what it gave
panics. -/
theorem deserializeHex_spec (H : HexCrate) (hH : H.Documented) :
    (∀ upper (bs : Bytes), bs.length ≤ MAX_VEC_SIZE →
      SameResult (deserializeHex H c (hexText upper bs)) (deserialize c bs)) ∧
    (∀ (E : Type) (items : List (Except E UInt8)) (p : Panic),
      IterReader.decode c.reading (.new items) = .panic p →
        (c.reading.run IterReader.reader (.new items)).1 = .panic p) ∧
    ∀ (E : Type) (r : IterReader E), r.fillBuf.1.NoPanic ∧
      ∀ bs r', r.fillBuf = (.ok bs, r') → ∀ len ≤ bs.length, (r'.consume len).NoPanic := by
  refine ⟨?_, ?_, ?_⟩
  · intro upper bs hbs
    exact sameResult_of_mapErr (deserializeHex_hexText c hH upper hbs)
  · intro E items p h
    exact IterReader.decode_eq_panic (propagates_reading c) h
  · intro E r
    refine ⟨r.noPanic_fillBuf, fun bs r' h len hlen => ?_⟩
    exact r'.noPanic_consume (hlen.trans (IterReader.length_fillBuf_le h))

/-- A compact target in capital digits, and with a byte after it. -/
theorem deserializeHex_sample :
    SameResult (deserializeHex .plain u32 (hexText true [0xff, 0xff, 0x00, 0x1d]))
        (deserialize u32 [0xff, 0xff, 0x00, 0x1d]) ∧
      deserialize u32 [0xff, 0xff, 0x00, 0x1d] = .ok 0x1d00ffff ∧
      SameResult (deserializeHex .plain u32 (hexText false [0xff, 0xff, 0x00, 0x1d, 0x00]))
        (deserialize u32 [0xff, 0xff, 0x00, 0x1d, 0x00]) :=
  ⟨(deserializeHex_spec u32 .plain HexCrate.plain_documented).1 true _ (by decide), rfl,
    (deserializeHex_spec u32 .plain HexCrate.plain_documented).1 false _ (by decide)⟩

end

end RustDogecoin
