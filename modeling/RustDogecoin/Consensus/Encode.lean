import RustDogecoin.Lib.Codec

/-!
# Consensus encoding

The traits `Encodable` and `Decodable` of `consensus/encode.rs` and their implementations for the
basic types.  A `Codec` holds the three functions of the two traits; the ways the source has of
filling them in are the builders `Codec.ofDecode`, `Codec.ofFinite`, `Codec.tuple` and
`implConsensusEncoding`.  `Codec.IsLawful c P` says that the finite-reader decoder of `c` inverts its
encoder, with `P` the values it can return, and that `consensus_decode` agrees with it on inputs of
at most `MAX_VEC_SIZE` bytes.
-/

namespace RustDogecoin

/-- `[u8; n]`. -/
structure U8Array (n : ℕ) where
  toList : Bytes
  length_eq : toList.length = n
  deriving DecidableEq, Repr

@[ext] theorem U8Array.ext {n : ℕ} {a b : U8Array n} (h : a.toList = b.toList) : a = b := by
  cases a
  cases b
  cases h
  rfl

attribute [simp] U8Array.length_eq

/-- The array `[b; n]`. -/
def U8Array.replicate (n : ℕ) (b : UInt8) : U8Array n := ⟨List.replicate n b, List.length_replicate⟩

/-- `encode::Error`; the only I/O error of a byte source in memory is an unexpected end. -/
inductive EncodeError where
  | io
  | oversizedVectorAllocation (requested max : ℕ)
  | invalidChecksum (expected actual : U8Array 4)
  | nonMinimalVarInt
  | parseFailed (msg : String)
  | unsupportedSegwitFlag (flag : UInt8)
  deriving DecidableEq, Repr

abbrev Read (α : Type) := Decoder EncodeError α

/-- `Read::read_exact`, with the length of the buffer given. -/
abbrev readSlice (n : ℕ) : Read Bytes := Decoder.readExact .io n

/-- Maximum size, in bytes, of a vector we are allowed to decode. -/
def MAX_VEC_SIZE : ℕ := 4000000

/-- An implementation of `Encodable` and `Decodable`. -/
structure Codec (α : Type) where
  consensusEncode : Encoder α
  consensusDecodeFromFiniteReader : Read α
  consensusDecode : Read α

namespace Codec

variable {α β : Type}

/-- `consensus_decode` is given, and `consensus_decode_from_finite_reader` is the default. -/
def ofDecode (enc : Encoder α) (dec : Read α) : Codec α := ⟨enc, dec, dec⟩

/-- `consensus_decode_from_finite_reader` is given, and `consensus_decode` is the default. -/
def ofFinite (enc : Encoder α) (dec : Read α) : Codec α := ⟨enc, dec, dec.limit MAX_VEC_SIZE⟩

/-- Two fields, one after the other, each by its own function of the same name. -/
def seq (c₁ : Codec α) (c₂ : Codec β) : Codec (α × β) where
  consensusEncode := c₁.consensusEncode.seq c₂.consensusEncode
  consensusDecodeFromFiniteReader :=
    c₁.consensusDecodeFromFiniteReader.seq c₂.consensusDecodeFromFiniteReader
  consensusDecode := c₁.consensusDecode.seq c₂.consensusDecode

/-- `tuple_encode!` on a pair: the members are decoded by `consensus_decode` on either path. -/
def tuple (c₁ : Codec α) (c₂ : Codec β) : Codec (α × β) :=
  ofDecode (c₁.consensusEncode.seq c₂.consensusEncode) (c₁.consensusDecode.seq c₂.consensusDecode)

/-- A type that wraps another one and forwards both traits to it. -/
def wrap (e : β ≃ α) (c : Codec α) : Codec β where
  consensusEncode b := c.consensusEncode (e b)
  consensusDecodeFromFiniteReader := e.symm <$> c.consensusDecodeFromFiniteReader
  consensusDecode := e.symm <$> c.consensusDecode

end Codec

/-- `impl_consensus_encoding!`, on the fields that the structure is made of. -/
def implConsensusEncoding {α β : Type} (e : β ≃ α) (c : Codec α) : Codec β where
  consensusEncode b := c.consensusEncode (e b)
  consensusDecodeFromFiniteReader := e.symm <$> c.consensusDecodeFromFiniteReader
  consensusDecode := Decoder.limit MAX_VEC_SIZE (e.symm <$> c.consensusDecode)

/-- Deserializes an object from a byte vector, which must be consumed entirely. -/
def deserialize {α : Type} (c : Codec α) (data : Bytes) : Outcome EncodeError α := do
  let (rv, rest) ← c.consensusDecodeFromFiniteReader.run data
  .ensure (rest = []) (.parseFailed "data not consumed entirely when explicitly deserializing")
  return rv

/-! ## Laws -/

namespace Codec

variable {α β : Type}

/-- The laws of a codec whose finite-reader decoder returns exactly the values in `P`. -/
structure IsLawful (c : Codec α) (P : α → Prop) : Prop where
  finite : Lawful c.consensusEncode c.consensusDecodeFromFiniteReader P
  agrees : ∀ bs, bs.length ≤ MAX_VEC_SIZE →
    c.consensusDecode.run bs = c.consensusDecodeFromFiniteReader.run bs

/-- `consensus_decode` is the finite-reader decoder on the first `MAX_VEC_SIZE` bytes. -/
def Bounded (c : Codec α) : Prop :=
  c.consensusDecode = c.consensusDecodeFromFiniteReader.limit MAX_VEC_SIZE

theorem IsLawful.congr {c : Codec α} {P Q : α → Prop} (h : c.IsLawful P) (hPQ : ∀ a, P a ↔ Q a) :
    c.IsLawful Q :=
  ⟨h.finite.congr hPQ, h.agrees⟩

theorem IsLawful.ofDecode {enc : Encoder α} {dec : Read α} {P : α → Prop} (h : Lawful enc dec P) :
    (ofDecode enc dec).IsLawful P :=
  ⟨h, fun _ _ => rfl⟩

theorem IsLawful.ofFinite {enc : Encoder α} {dec : Read α} {P : α → Prop} (h : Lawful enc dec P) :
    (ofFinite enc dec).IsLawful P :=
  ⟨h, fun _ hb => Decoder.run_limit_of_le dec hb⟩

theorem bounded_ofFinite (enc : Encoder α) (dec : Read α) : (ofFinite enc dec).Bounded := rfl

/-- The laws of `consensus_decode` of a bounded codec. -/
theorem IsLawful.decode {c : Codec α} {P : α → Prop} (h : c.IsLawful P) (hb : c.Bounded) :
    Lawful c.consensusEncode c.consensusDecode fun a => P a ∧ Fits c.consensusEncode MAX_VEC_SIZE a := by
  rw [hb]
  exact h.finite.limit MAX_VEC_SIZE

/-- The encoding `w` of `a` has the length that was returned; the finite-reader decoder gives `a`
back from it, whatever follows; and `consensus_decode` does so exactly if it sees all of it. -/
structure DecodesBack (c : Codec α) (a : α) (w : Written) : Prop where
  len_eq : w.len = w.bytes.length
  finite : ∀ rest, c.consensusDecodeFromFiniteReader.run (w.bytes ++ rest) = .ok (a, rest)
  decode_iff : ∀ rest,
    c.consensusDecode.run (w.bytes ++ rest) = .ok (a, rest) ↔ w.bytes.length ≤ MAX_VEC_SIZE

theorem IsLawful.decodesBack {c : Codec α} {P : α → Prop} (h : c.IsLawful P) (hb : c.Bounded) {a : α}
    {w : Written} (ha : P a) (e : c.consensusEncode a = .ok w) : c.DecodesBack a w where
  len_eq := h.finite.counts a w e
  finite := h.finite.roundTrips a w ha e
  decode_iff := by
    intro rest
    rw [(h.decode hb).run_encoded_iff e rest]
    constructor
    · intro hfit
      exact hfit.2 w e
    · intro hfit
      refine ⟨ha, fun w' e' => ?_⟩
      rwa [← Outcome.ok.inj (e.symm.trans e')]

/-- What is left of a short input after one field is short too. -/
theorem agrees_seq {d₁ d₁' : Read α} {d₂ d₂' : Read β} {enc : Encoder α} {P : α → Prop}
    (hc : Canonical enc d₁' P)
    (h₁ : ∀ bs, bs.length ≤ MAX_VEC_SIZE → d₁.run bs = d₁'.run bs)
    (h₂ : ∀ bs, bs.length ≤ MAX_VEC_SIZE → d₂.run bs = d₂'.run bs) (bs : Bytes)
    (hbs : bs.length ≤ MAX_VEC_SIZE) : (d₁.seq d₂).run bs = (d₁'.seq d₂').run bs := by
  unfold Decoder.seq
  rw [StateT.run_bind, StateT.run_bind, h₁ bs hbs]
  cases hr : d₁'.run bs with
  | ok r =>
    obtain ⟨a, mid⟩ := r
    obtain ⟨-, w, -, rfl⟩ := hc _ _ _ hr
    rw [List.length_append] at hbs
    simp only [Outcome.ok_bind]
    rw [StateT.run_bind, StateT.run_bind, h₂ mid (by omega)]
  | err e => rfl
  | panic p => rfl

theorem IsLawful.seq {c₁ : Codec α} {c₂ : Codec β} {P : α → Prop} {Q : β → Prop}
    (h₁ : c₁.IsLawful P) (h₂ : c₂.IsLawful Q) : (c₁.seq c₂).IsLawful fun p => P p.1 ∧ Q p.2 where
  finite := h₁.finite.seq h₂.finite
  agrees := agrees_seq h₁.finite.canonical h₁.agrees h₂.agrees

theorem IsLawful.tuple {c₁ : Codec α} {c₂ : Codec β} {P : α → Prop} {Q : β → Prop}
    (h₁ : Lawful c₁.consensusEncode c₁.consensusDecode P)
    (h₂ : Lawful c₂.consensusEncode c₂.consensusDecode Q) :
    (c₁.tuple c₂).IsLawful fun p => P p.1 ∧ Q p.2 :=
  .ofDecode (h₁.seq h₂)

theorem IsLawful.wrap {c : Codec α} {P : α → Prop} (h : c.IsLawful P) (e : β ≃ α) :
    (c.wrap e).IsLawful fun b => P (e b) where
  finite := h.finite.xmap e
  agrees := by
    intro bs hbs
    show (e.symm <$> c.consensusDecode).run bs = (e.symm <$> c.consensusDecodeFromFiniteReader).run bs
    rw [StateT.run_map, StateT.run_map, h.agrees bs hbs]

theorem IsLawful.implConsensusEncoding {c : Codec α} {P : α → Prop} (h : c.IsLawful P)
    (e : β ≃ α) : (implConsensusEncoding e c).IsLawful fun b => P (e b) where
  finite := h.finite.xmap e
  agrees := fun bs hbs => (Decoder.run_limit_of_le _ hbs).trans ((h.wrap e).agrees bs hbs)

theorem IsLawful.bounded_implConsensusEncoding {c : Codec α} {P : α → Prop} (h : c.IsLawful P)
    (e : β ≃ α) : (RustDogecoin.implConsensusEncoding e c).Bounded := by
  funext bs
  have hbs : (bs.take MAX_VEC_SIZE).length ≤ MAX_VEC_SIZE := by simp
  exact congrArg (· >>= fun r => .ok (r.1, r.2 ++ bs.drop MAX_VEC_SIZE)) ((h.wrap e).agrees _ hbs)

end Codec

/-! ## Integers and arrays -/

/-- `impl_int_encodable!`: `n` bytes, least significant first. -/
def implIntEncodable {α : Type} (n : ℕ) (toNat : α → ℕ) (ofNat : ℕ → α) : Codec α :=
  .ofDecode (fun a => .ok ⟨leBytes n (toNat a), n⟩) (do return ofNat (leNat (← readSlice n)))

def u8 : Codec UInt8 := implIntEncodable 1 UInt8.toNat UInt8.ofNat

def u16 : Codec UInt16 := implIntEncodable 2 UInt16.toNat UInt16.ofNat

def u32 : Codec UInt32 := implIntEncodable 4 UInt32.toNat UInt32.ofNat

def u64 : Codec UInt64 := implIntEncodable 8 UInt64.toNat UInt64.ofNat

def i32 : Codec Int32 := implIntEncodable 4 (fun a => a.toUInt32.toNat) fun v => (UInt32.ofNat v).toInt32

def i64 : Codec Int64 := implIntEncodable 8 (fun a => a.toUInt64.toNat) fun v => (UInt64.ofNat v).toInt64

/-- `impl_array!`. -/
def u8Array (n : ℕ) : Codec (U8Array n) :=
  .ofDecode (fun a => .ok (.ofBytes a.toList)) fun bs =>
    if h : n ≤ bs.length then .ok (⟨bs.take n, by simp [h]⟩, bs.drop n) else .err .io

theorem lawful_implIntEncodable {α : Type} {n : ℕ} {toNat : α → ℕ} {ofNat : ℕ → α}
    (hlt : ∀ a, toNat a < 256 ^ n) (hof : ∀ a, ofNat (toNat a) = a)
    (hto : ∀ v < 256 ^ n, toNat (ofNat v) = v) :
    (implIntEncodable n toNat ofNat).IsLawful fun _ => True := by
  refine .ofDecode ⟨?_, ?_, ?_⟩
  · intro a w e
    obtain rfl := Outcome.ok.inj e
    simp
  · intro a w _ e rest
    obtain rfl := Outcome.ok.inj e
    rw [Decoder.run_bind_of_ok (Decoder.run_readExact_append _ (length_leBytes n _) rest),
      leNat_leBytes_of_lt (hlt a), hof, Decoder.run_pure_eq]
  · intro bs a rest hr
    obtain ⟨b, mid, hb, h⟩ := Decoder.run_bind_eq_ok_iff.1 hr
    obtain ⟨rfl, rfl⟩ := Decoder.run_readExact_eq_ok_iff.1 hb
    simp only [Decoder.run_pure_eq, Outcome.ok.injEq, Prod.mk.injEq] at h
    obtain ⟨rfl, rfl⟩ := h
    refine ⟨trivial, _, rfl, ?_⟩
    rw [hto _ (leNat_lt b), leBytes_leNat]

theorem lawful_u8 : u8.IsLawful fun _ => True :=
  lawful_implIntEncodable (fun a => a.toNat_lt) (fun _ => UInt8.ofNat_toNat)
    fun _ hv => UInt8.toNat_ofNat_of_lt' hv

theorem lawful_u16 : u16.IsLawful fun _ => True :=
  lawful_implIntEncodable (fun a => a.toNat_lt) (fun _ => UInt16.ofNat_toNat)
    fun _ hv => UInt16.toNat_ofNat_of_lt' hv

theorem lawful_u32 : u32.IsLawful fun _ => True :=
  lawful_implIntEncodable (fun a => a.toNat_lt) (fun _ => UInt32.ofNat_toNat)
    fun _ hv => UInt32.toNat_ofNat_of_lt' hv

theorem lawful_u64 : u64.IsLawful fun _ => True :=
  lawful_implIntEncodable (fun a => a.toNat_lt) (fun _ => UInt64.ofNat_toNat)
    fun _ hv => UInt64.toNat_ofNat_of_lt' hv

theorem lawful_i32 : i32.IsLawful fun _ => True :=
  lawful_implIntEncodable (fun a => a.toUInt32.toNat_lt) (fun a => by simp)
    fun _ hv => UInt32.toNat_ofNat_of_lt' hv

theorem lawful_i64 : i64.IsLawful fun _ => True :=
  lawful_implIntEncodable (fun a => a.toUInt64.toNat_lt) (fun a => by simp)
    fun _ hv => UInt64.toNat_ofNat_of_lt' hv

theorem run_u8 (x : UInt8) (rest : Bytes) :
    u8.consensusDecode.run (leBytes 1 x.toNat ++ rest) = .ok (x, rest) :=
  lawful_u8.finite.roundTrips x _ trivial rfl rest

theorem eq_of_run_u8 {bs rest : Bytes} {x : UInt8} (h : u8.consensusDecode.run bs = .ok (x, rest)) :
    bs = leBytes 1 x.toNat ++ rest :=
  lawful_u8.finite.canonical.eq_append rfl h

theorem run_u16 (x : UInt16) (rest : Bytes) :
    u16.consensusDecode.run (leBytes 2 x.toNat ++ rest) = .ok (x, rest) :=
  lawful_u16.finite.roundTrips x _ trivial rfl rest

theorem eq_of_run_u16 {bs rest : Bytes} {x : UInt16} (h : u16.consensusDecode.run bs = .ok (x, rest)) :
    bs = leBytes 2 x.toNat ++ rest :=
  lawful_u16.finite.canonical.eq_append rfl h

theorem run_u32 (x : UInt32) (rest : Bytes) :
    u32.consensusDecode.run (leBytes 4 x.toNat ++ rest) = .ok (x, rest) :=
  lawful_u32.finite.roundTrips x _ trivial rfl rest

theorem eq_of_run_u32 {bs rest : Bytes} {x : UInt32} (h : u32.consensusDecode.run bs = .ok (x, rest)) :
    bs = leBytes 4 x.toNat ++ rest :=
  lawful_u32.finite.canonical.eq_append rfl h

theorem run_u64 (x : UInt64) (rest : Bytes) :
    u64.consensusDecode.run (leBytes 8 x.toNat ++ rest) = .ok (x, rest) :=
  lawful_u64.finite.roundTrips x _ trivial rfl rest

theorem eq_of_run_u64 {bs rest : Bytes} {x : UInt64} (h : u64.consensusDecode.run bs = .ok (x, rest)) :
    bs = leBytes 8 x.toNat ++ rest :=
  lawful_u64.finite.canonical.eq_append rfl h

theorem lawful_u8Array (n : ℕ) : (u8Array n).IsLawful fun _ => True := by
  refine .ofDecode ⟨?_, ?_, ?_⟩
  · intro a w e
    obtain rfl := Outcome.ok.inj e
    rfl
  · intro a w _ e rest
    obtain rfl := Outcome.ok.inj e
    have hn : n ≤ (a.toList ++ rest).length := by simp
    show (if h : n ≤ (a.toList ++ rest).length then Outcome.ok _ else _) = _
    rw [dif_pos hn]
    simp only [Outcome.ok.injEq, Prod.mk.injEq]
    exact ⟨U8Array.ext (List.take_left' a.length_eq), List.drop_left' a.length_eq⟩
  · intro bs a rest h
    change (if h : n ≤ bs.length then Outcome.ok _ else _) = _ at h
    split_ifs at h
    simp only [Outcome.ok.injEq, Prod.mk.injEq] at h
    obtain ⟨rfl, rfl⟩ := h
    exact ⟨trivial, _, rfl, (List.take_append_drop n bs).symm⟩

theorem run_u8Array {n : ℕ} (a : U8Array n) (rest : Bytes) :
    (u8Array n).consensusDecode.run (a.toList ++ rest) = .ok (a, rest) :=
  (lawful_u8Array n).finite.roundTrips a _ trivial rfl rest

theorem eq_of_run_u8Array {n : ℕ} {a : U8Array n} {bs rest : Bytes}
    (h : (u8Array n).consensusDecode.run bs = .ok (a, rest)) : bs = a.toList ++ rest :=
  (lawful_u8Array n).finite.canonical.eq_append rfl h

theorem length_list_u8Array {n : ℕ} {as : List (U8Array n)} {w : Written}
    (h : (u8Array n).consensusEncode.list as = .ok w) : w.bytes.length = n * as.length := by
  apply Encoder.length_list _ h
  intro a w e
  obtain rfl := Outcome.ok.inj e
  exact a.length_eq

/-! ## Variable-length integers -/

/-- A variable-length unsigned integer. -/
structure VarInt where
  val : UInt64
  deriving DecidableEq, Repr

namespace VarInt

/-- The bytes `consensus_encode` writes and the length it returns. -/
def written (v : VarInt) : Written :=
  if v.val.toNat ≤ 0xFC then ⟨leBytes 1 v.val.toNat, 1⟩
  else if v.val.toNat ≤ 0xFFFF then ⟨0xFD :: leBytes 2 v.val.toNat, 3⟩
  else if v.val.toNat ≤ 0xFFFFFFFF then ⟨0xFE :: leBytes 4 v.val.toNat, 5⟩
  else ⟨0xFF :: leBytes 8 v.val.toNat, 9⟩

def consensusEncode : Encoder VarInt := fun v => .ok v.written

/-- The number of bytes this varint contributes to a transaction size. -/
def size (v : VarInt) : ℕ :=
  if v.val.toNat ≤ 0xFC then 1
  else if v.val.toNat ≤ 0xFFFF then 3
  else if v.val.toNat ≤ 0xFFFFFFFF then 5
  else 9

def consensusDecode : Read VarInt := do
  let n ← u8.consensusDecode
  if n = 0xFF then
    let x ← u64.consensusDecode
    if x.toNat < 0x100000000 then Decoder.fail .nonMinimalVarInt else return ⟨x⟩
  else if n = 0xFE then
    let x ← u32.consensusDecode
    if x.toNat < 0x10000 then Decoder.fail .nonMinimalVarInt else return ⟨x.toUInt64⟩
  else if n = 0xFD then
    let x ← u16.consensusDecode
    if x.toNat < 0xFD then Decoder.fail .nonMinimalVarInt else return ⟨x.toUInt64⟩
  else return ⟨n.toUInt64⟩

def codec : Codec VarInt := .ofDecode consensusEncode consensusDecode

end VarInt

theorem VarInt.len_written (v : VarInt) : v.written.len = v.size := by
  unfold VarInt.written VarInt.size
  split_ifs <;> rfl

theorem VarInt.length_written (v : VarInt) : v.written.bytes.length = v.size := by
  unfold VarInt.written VarInt.size
  split_ifs <;> simp

theorem VarInt.size_pos (v : VarInt) : 0 < v.size := by
  unfold VarInt.size
  split_ifs <;> omega

theorem VarInt.size_le (v : VarInt) : v.size ≤ 9 := by
  unfold VarInt.size
  split_ifs <;> omega

theorem VarInt.counts : Counts VarInt.consensusEncode := by
  intro v w e
  obtain rfl := Outcome.ok.inj e
  rw [v.len_written, v.length_written]

/-- The four forms a `VarInt` is written in. -/
theorem VarInt.forms (v : VarInt) :
    (∃ x : UInt8, x.toNat ≤ 0xFC ∧ v = ⟨x.toUInt64⟩) ∨
    (∃ x : UInt16, 0xFD ≤ x.toNat ∧ v = ⟨x.toUInt64⟩) ∨
    (∃ x : UInt32, 0x10000 ≤ x.toNat ∧ v = ⟨x.toUInt64⟩) ∨
    0x100000000 ≤ v.val.toNat := by
  obtain ⟨v⟩ := v
  simp only [VarInt.mk.injEq, ← UInt64.toNat_inj, UInt8.toNat_toUInt64, UInt16.toNat_toUInt64,
    UInt32.toNat_toUInt64]
  by_cases h₁ : v.toNat ≤ 0xFC
  · have hx : (UInt8.ofNat v.toNat).toNat = v.toNat :=
      UInt8.toNat_ofNat_of_lt' (Nat.lt_of_le_of_lt h₁ (by decide))
    exact .inl ⟨UInt8.ofNat v.toNat, by omega, hx.symm⟩
  by_cases h₂ : v.toNat ≤ 0xFFFF
  · have hx : (UInt16.ofNat v.toNat).toNat = v.toNat :=
      UInt16.toNat_ofNat_of_lt' (Nat.lt_of_le_of_lt h₂ (by decide))
    exact .inr (.inl ⟨UInt16.ofNat v.toNat, by omega, hx.symm⟩)
  by_cases h₃ : v.toNat ≤ 0xFFFFFFFF
  · have hx : (UInt32.ofNat v.toNat).toNat = v.toNat :=
      UInt32.toNat_ofNat_of_lt' (Nat.lt_of_le_of_lt h₃ (by decide))
    exact .inr (.inr (.inl ⟨UInt32.ofNat v.toNat, by omega, hx.symm⟩))
  · exact .inr (.inr (.inr (by omega)))

theorem VarInt.written_u8 {x : UInt8} (h : x.toNat ≤ 0xFC) :
    VarInt.written ⟨x.toUInt64⟩ = ⟨leBytes 1 x.toNat, 1⟩ := by
  simp [VarInt.written, h]

theorem VarInt.written_u16 {x : UInt16} (h : 0xFD ≤ x.toNat) :
    VarInt.written ⟨x.toUInt64⟩ = ⟨leBytes 1 (UInt8.toNat 0xFD) ++ leBytes 2 x.toNat, 3⟩ := by
  have hx := x.toNat_lt
  have h₁ : ¬ x.toNat ≤ 0xFC := by omega
  have h₂ : x.toNat ≤ 0xFFFF := by omega
  simp only [VarInt.written, UInt16.toNat_toUInt64, if_neg h₁, if_pos h₂]
  rfl

theorem VarInt.written_u32 {x : UInt32} (h : 0x10000 ≤ x.toNat) :
    VarInt.written ⟨x.toUInt64⟩ = ⟨leBytes 1 (UInt8.toNat 0xFE) ++ leBytes 4 x.toNat, 5⟩ := by
  have hx := x.toNat_lt
  have h₁ : ¬ x.toNat ≤ 0xFC := by omega
  have h₂ : ¬ x.toNat ≤ 0xFFFF := by omega
  have h₃ : x.toNat ≤ 0xFFFFFFFF := by omega
  simp only [VarInt.written, UInt32.toNat_toUInt64, if_neg h₁, if_neg h₂, if_pos h₃]
  rfl

theorem VarInt.written_u64 {x : UInt64} (h : 0x100000000 ≤ x.toNat) :
    VarInt.written ⟨x⟩ = ⟨leBytes 1 (UInt8.toNat 0xFF) ++ leBytes 8 x.toNat, 9⟩ := by
  have h₁ : ¬ x.toNat ≤ 0xFC := by omega
  have h₂ : ¬ x.toNat ≤ 0xFFFF := by omega
  have h₃ : ¬ x.toNat ≤ 0xFFFFFFFF := by omega
  simp only [VarInt.written, if_neg h₁, if_neg h₂, if_neg h₃]
  rfl

/-- `consensus_decode` inverts `consensus_encode`, form by form. -/
theorem VarInt.roundTrips : RoundTrips VarInt.consensusEncode VarInt.consensusDecode fun _ => True := by
  intro v w _ e rest
  rw [VarInt.consensusDecode]
  rcases v.forms with ⟨x, hx, rfl⟩ | ⟨x, hx, rfl⟩ | ⟨x, hx, rfl⟩ | hx
  · obtain rfl := (VarInt.written_u8 hx).symm.trans (Outcome.ok.inj e)
    have h : ∀ c : UInt8, 0xFC < c.toNat → x ≠ c := by
      rintro c hc rfl
      omega
    rw [Decoder.run_bind_of_ok (run_u8 x rest),
      if_neg (h _ (by decide)), if_neg (h _ (by decide)), if_neg (h _ (by decide)),
      Decoder.run_pure_eq]
  · obtain rfl := (VarInt.written_u16 hx).symm.trans (Outcome.ok.inj e)
    rw [List.append_assoc,
      Decoder.run_bind_of_ok (run_u8 0xFD _),
      if_neg (by decide), if_neg (by decide), if_pos rfl,
      Decoder.run_bind_of_ok (run_u16 x rest),
      if_neg (by omega), Decoder.run_pure_eq]
  · obtain rfl := (VarInt.written_u32 hx).symm.trans (Outcome.ok.inj e)
    rw [List.append_assoc,
      Decoder.run_bind_of_ok (run_u8 0xFE _),
      if_neg (by decide), if_pos rfl,
      Decoder.run_bind_of_ok (run_u32 x rest),
      if_neg (by omega), Decoder.run_pure_eq]
  · obtain ⟨x⟩ := v
    obtain rfl := (VarInt.written_u64 hx).symm.trans (Outcome.ok.inj e)
    rw [List.append_assoc,
      Decoder.run_bind_of_ok (run_u8 0xFF _), if_pos rfl,
      Decoder.run_bind_of_ok (run_u64 x rest),
      if_neg (by simpa using hx), Decoder.run_pure_eq]

/-- Only the shortest form of a number is accepted. -/
theorem VarInt.canonical : Canonical VarInt.consensusEncode VarInt.consensusDecode fun _ => True := by
  intro bs v rest hr
  rw [VarInt.consensusDecode] at hr
  obtain ⟨n, mid, hn, hb⟩ := Decoder.run_bind_eq_ok_iff.1 hr
  obtain rfl := eq_of_run_u8 hn
  refine ⟨trivial, ?_⟩
  split_ifs at hb with h₁ h₂ h₃
  · obtain ⟨x, mid', hx, hc⟩ := Decoder.run_bind_eq_ok_iff.1 hb
    obtain rfl := eq_of_run_u64 hx
    split_ifs at hc with h
    · cases hc
    · cases hc
      subst h₁
      exact ⟨_, congrArg Outcome.ok (VarInt.written_u64 (by omega)), by simp⟩
  · obtain ⟨x, mid', hx, hc⟩ := Decoder.run_bind_eq_ok_iff.1 hb
    obtain rfl := eq_of_run_u32 hx
    split_ifs at hc with h
    · cases hc
    · cases hc
      subst h₂
      exact ⟨_, congrArg Outcome.ok (VarInt.written_u32 (by omega)), by simp⟩
  · obtain ⟨x, mid', hx, hc⟩ := Decoder.run_bind_eq_ok_iff.1 hb
    obtain rfl := eq_of_run_u16 hx
    split_ifs at hc with h
    · cases hc
    · cases hc
      subst h₃
      exact ⟨_, congrArg Outcome.ok (VarInt.written_u16 (by omega)), by simp⟩
  · cases hb
    have hn' : n.toNat ≤ 0xFC := by
      have h := n.toNat_lt
      have e : ∀ c : UInt8, n ≠ c → n.toNat ≠ c.toNat := fun c h h' => h (UInt8.toNat_inj.1 h')
      have e₁ : n.toNat ≠ 0xFF := e _ h₁
      have e₂ : n.toNat ≠ 0xFE := e _ h₂
      have e₃ : n.toNat ≠ 0xFD := e _ h₃
      omega
    exact ⟨_, congrArg Outcome.ok (VarInt.written_u8 hn'), rfl⟩

/-- The first byte of each longer form, and how many bytes hold the number. -/
def VarInt.longForms : List (UInt8 × ℕ) := [(0xFD, 2), (0xFE, 4), (0xFF, 8)]

/-- A number that fits a shorter form is refused in a longer one. -/
theorem VarInt.run_longForm (v : VarInt) {form : UInt8 × ℕ} (hform : form ∈ VarInt.longForms) (hv : v.size ≤ form.2)
    (rest : Bytes) :
    VarInt.consensusDecode.run (form.1 :: leBytes form.2 v.val.toNat ++ rest) = .err .nonMinimalVarInt := by
  have hn (n : UInt8) (bs : Bytes) : n :: bs = leBytes 1 n.toNat ++ bs := by simp [leBytes]
  rw [VarInt.size] at hv
  rw [VarInt.consensusDecode, List.cons_append, hn]
  simp only [VarInt.longForms, List.mem_cons, List.not_mem_nil, or_false] at hform
  rcases hform with rfl | rfl | rfl
  · have hlt : v.val.toNat < 0xFD := by
      split_ifs at hv <;> omega
    have hx : (UInt16.ofNat v.val.toNat).toNat = v.val.toNat :=
      UInt16.toNat_ofNat_of_lt' (Nat.lt_trans hlt (by decide))
    have hread := run_u16 (UInt16.ofNat v.val.toNat) rest
    rw [hx] at hread
    rw [Decoder.run_bind_of_ok (run_u8 0xFD _), if_neg (by decide), if_neg (by decide), if_pos rfl,
      Decoder.run_bind_of_ok hread, hx, if_pos hlt, Decoder.run_fail]
  · have hlt : v.val.toNat < 0x10000 := by
      split_ifs at hv <;> omega
    have hx : (UInt32.ofNat v.val.toNat).toNat = v.val.toNat :=
      UInt32.toNat_ofNat_of_lt' (Nat.lt_trans hlt (by decide))
    have hread := run_u32 (UInt32.ofNat v.val.toNat) rest
    rw [hx] at hread
    rw [Decoder.run_bind_of_ok (run_u8 0xFE _), if_neg (by decide), if_pos rfl, Decoder.run_bind_of_ok hread, hx,
      if_pos hlt, Decoder.run_fail]
  · have hlt : v.val.toNat < 0x100000000 := by
      split_ifs at hv <;> omega
    rw [Decoder.run_bind_of_ok (run_u8 0xFF _), if_pos rfl, Decoder.run_bind_of_ok (run_u64 v.val rest), if_pos hlt,
      Decoder.run_fail]

theorem VarInt.lawful : VarInt.codec.IsLawful fun _ => True :=
  .ofDecode ⟨VarInt.counts, VarInt.roundTrips, VarInt.canonical⟩

/-! ## Vectors -/

/-- `VarInt(len as u64)` of the length of a collection; no collection is longer than `usize`. -/
def encodeLen : Encoder ℕ := fun n =>
  if n < 2 ^ 64 then VarInt.consensusEncode ⟨UInt64.ofNat n⟩ else .panic .overflow

/-- The length in front of a collection. -/
def decodeLen : Read ℕ := (fun v => v.val.toNat) <$> VarInt.consensusDecode

theorem encodeLen_eq_ok_iff {n : ℕ} {w : Written} :
    encodeLen n = .ok w ↔ n < 2 ^ 64 ∧ VarInt.consensusEncode ⟨UInt64.ofNat n⟩ = .ok w := by
  unfold encodeLen
  split_ifs with h
  · exact ⟨fun e => ⟨h, e⟩, fun e => e.2⟩
  · exact ⟨(by cases ·), fun e => absurd e.1 h⟩

theorem exists_encodeLen {n : ℕ} (h : n < 2 ^ 64) : ∃ w, encodeLen n = .ok w :=
  ⟨_, encodeLen_eq_ok_iff.2 ⟨h, rfl⟩⟩

theorem length_encodeLen {n : ℕ} {w : Written} (h : encodeLen n = .ok w) :
    w.bytes.length = (VarInt.mk (UInt64.ofNat n)).size := by
  obtain ⟨-, h⟩ := encodeLen_eq_ok_iff.1 h
  obtain rfl := Outcome.ok.inj h
  exact VarInt.length_written _

theorem length_encodeLen_le {n : ℕ} {w : Written} (h : encodeLen n = .ok w) : w.bytes.length ≤ 9 := by
  rw [length_encodeLen h]
  exact VarInt.size_le _

theorem length_encodeLen_pos {n : ℕ} {w : Written} (h : encodeLen n = .ok w) : 0 < w.bytes.length := by
  rw [length_encodeLen h]
  exact VarInt.size_pos _

theorem lawful_len : Lawful encodeLen decodeLen fun _ => True := by
  refine ⟨?_, ?_, ?_⟩
  · intro n w e
    exact VarInt.counts _ _ (encodeLen_eq_ok_iff.1 e).2
  · intro n w _ e rest
    obtain ⟨hn, e⟩ := encodeLen_eq_ok_iff.1 e
    exact Decoder.run_map_eq_ok_iff.2
      ⟨_, VarInt.roundTrips _ w trivial e rest, UInt64.toNat_ofNat_of_lt' hn⟩
  · intro bs n rest hr
    obtain ⟨v, hv, rfl⟩ := Decoder.run_map_eq_ok_iff.1 hr
    obtain ⟨-, w, e, rfl⟩ := VarInt.canonical _ _ _ hv
    refine ⟨trivial, w, encodeLen_eq_ok_iff.2 ⟨v.val.toNat_lt, ?_⟩, rfl⟩
    rwa [UInt64.ofNat_toNat]

/-- `impl_vec!`. -/
def vec {α : Type} (c : Codec α) : Codec (List α) :=
  .ofFinite (encodeLen.counted c.consensusEncode)
    (Decoder.counted decodeLen c.consensusDecodeFromFiniteReader)

theorem lawful_vec {α : Type} {c : Codec α} {P : α → Prop} (h : c.IsLawful P) :
    (vec c).IsLawful fun as => ∀ a ∈ as, P a :=
  .ofFinite ((lawful_len.counted h.finite).congr fun _ => by simp)

/-- The bytes of `data` with their number in front. -/
def consensusEncodeWithSize : Encoder Bytes := fun data => do
  let viLen ← encodeLen data.length
  return viLen ++ .ofBytes data

/-- The loop of `read_bytes_from_finite_reader`; every turn takes at least one byte off `len`. -/
def readBytesFromFiniteReaderLoop (chunkSize : ℕ) : ℕ → ℕ → Bytes → Read Bytes
  | 0, _, ret => return ret
  | fuel + 1, len, ret =>
    if 0 < len then do
      let chunk ← readSlice (min len chunkSize)
      readBytesFromFiniteReaderLoop chunkSize fuel (len - min len chunkSize) (ret ++ chunk)
    else return ret

/-- Read `len` bytes, in chunks of at most `chunkSize`. -/
def readBytesFromFiniteReader (len chunkSize : ℕ) : Read Bytes := do
  Decoder.ofOutcome (.require (chunkSize ≠ 0) .assertion)
  readBytesFromFiniteReaderLoop chunkSize len len []

/-- `Vec<u8>`. -/
def vecU8 : Codec Bytes :=
  .ofFinite consensusEncodeWithSize do
    let len ← decodeLen
    readBytesFromFiniteReader len (128 * 1024)

/-- In the loop, what has been read and what is still wanted add up. -/
theorem run_readBytesFromFiniteReaderLoop {chunkSize : ℕ} (hc : 0 < chunkSize) (fuel len : ℕ)
    (ret bs : Bytes) (hf : len ≤ fuel) :
    (readBytesFromFiniteReaderLoop chunkSize fuel len ret).run bs =
      if len ≤ bs.length then .ok (ret ++ bs.take len, bs.drop len) else .err .io := by
  induction fuel generalizing len ret bs with
  | zero =>
    obtain rfl := Nat.le_zero.1 hf
    simp [readBytesFromFiniteReaderLoop]
  | succ fuel ih =>
    rw [readBytesFromFiniteReaderLoop]
    by_cases hpos : 0 < len
    · have hsplit : len = min len chunkSize + (len - min len chunkSize) := by omega
      generalize hk : min len chunkSize = k at hsplit ⊢
      rw [if_pos hpos, StateT.run_bind, Decoder.run_readExact]
      by_cases hkbs : k ≤ bs.length
      · rw [if_pos hkbs, Outcome.ok_bind, ih _ _ _ (by omega), List.length_drop, List.append_assoc,
          ← List.take_add, List.drop_drop, ← hsplit]
        exact if_congr (by omega) rfl rfl
      · rw [if_neg hkbs, if_neg (by omega), Outcome.err_bind]
    · obtain rfl : len = 0 := by omega
      simp

/-- Chunks make no difference to what is read. -/
theorem run_readBytesFromFiniteReader {chunkSize : ℕ} (hc : 0 < chunkSize) (len : ℕ) (bs : Bytes) :
    (readBytesFromFiniteReader len chunkSize).run bs = (readSlice len).run bs := by
  rw [readBytesFromFiniteReader, StateT.run_bind, Decoder.run_ofOutcome,
    Outcome.require_of (Nat.ne_of_gt hc), Outcome.ok_bind, Outcome.ok_bind,
    run_readBytesFromFiniteReaderLoop hc len len [] bs le_rfl, List.nil_append,
    Decoder.run_readExact]

theorem consensusEncodeWithSize_eq_ok_iff {data : Bytes} {w : Written} :
    consensusEncodeWithSize data = .ok w ↔
      ∃ u, encodeLen data.length = .ok u ∧ w = u ++ .ofBytes data := by
  unfold consensusEncodeWithSize
  rw [Outcome.bind_eq_ok_iff]
  simp only [Outcome.pure_eq_ok, Outcome.ok.injEq, eq_comm]

theorem exists_vecU8 {data : Bytes} (h : data.length < 2 ^ 64) :
    ∃ w, vecU8.consensusEncode data = .ok w := by
  obtain ⟨u, hu⟩ := exists_encodeLen h
  exact ⟨_, consensusEncodeWithSize_eq_ok_iff.2 ⟨u, hu, rfl⟩⟩

theorem lawful_vecU8 : vecU8.IsLawful fun _ => True := by
  refine .ofFinite ⟨?_, ?_, ?_⟩
  · intro data w e
    obtain ⟨u, hu, rfl⟩ := consensusEncodeWithSize_eq_ok_iff.1 e
    simp [lawful_len.counts _ _ hu]
  · intro data w _ e rest
    obtain ⟨u, hu, rfl⟩ := consensusEncodeWithSize_eq_ok_iff.1 e
    rw [Written.bytes_append, Written.bytes_ofBytes, List.append_assoc,
      Decoder.run_bind_of_ok (lawful_len.roundTrips _ u trivial hu _),
      run_readBytesFromFiniteReader (by decide), Decoder.run_readExact_append _ rfl]
  · intro bs data rest hr
    obtain ⟨len, mid, hl, hd⟩ := Decoder.run_bind_eq_ok_iff.1 hr
    obtain ⟨-, u, hu, rfl⟩ := lawful_len.canonical _ _ _ hl
    rw [run_readBytesFromFiniteReader (by decide)] at hd
    obtain ⟨rfl, rfl⟩ := Decoder.run_readExact_eq_ok_iff.1 hd
    exact ⟨trivial, _, consensusEncodeWithSize_eq_ok_iff.2 ⟨u, hu, rfl⟩, by simp⟩

/-! ## Strings and booleans -/

/-- `str::as_bytes`. -/
def asBytes (s : String) : Bytes := s.toByteArray.data.toList

/-- `String::from_utf8`. -/
def fromUtf8 (bs : Bytes) : Option String := String.fromUTF8? ⟨bs.toArray⟩

def string : Codec String :=
  .ofDecode (fun s => consensusEncodeWithSize (asBytes s)) do
    match fromUtf8 (← vecU8.consensusDecode) with
    | some s => return s
    | none => Decoder.fail (.parseFailed "String was not valid UTF8")

/-- `bool`; every byte but zero is read as `true`. -/
def bool : Codec Bool :=
  .ofDecode (fun b => .ok ⟨[if b then 1 else 0], 1⟩) do return decide ((← u8.consensusDecode) ≠ 0)

theorem fromUtf8_eq_some_iff {bs : Bytes} {s : String} : fromUtf8 bs = some s ↔ asBytes s = bs := by
  unfold fromUtf8 asBytes String.fromUTF8?
  constructor
  · intro h
    split_ifs at h
    obtain rfl := Option.some.inj h
    rfl
  · rintro rfl
    rw [dif_pos s.isValidUTF8]
    rfl

theorem asBytes_injective {s t : String} (h : asBytes s = asBytes t) : s = t :=
  Option.some.inj ((fromUtf8_eq_some_iff.2 h).symm.trans (fromUtf8_eq_some_iff.2 rfl))

theorem asBytes_ofList (l : List Char) : asBytes (String.ofList l) = l.flatMap String.utf8EncodeChar := by
  simp [asBytes, List.utf8Encode]

theorem lawful_string :
    string.IsLawful fun s => Fits consensusEncodeWithSize MAX_VEC_SIZE (asBytes s) := by
  have hv := lawful_vecU8.decode (Codec.bounded_ofFinite _ _)
  refine .ofDecode ⟨fun s w e => hv.counts _ w e, ?_, ?_⟩
  · intro s w hs e rest
    rw [Decoder.run_bind_of_ok (hv.roundTrips _ w ⟨trivial, hs⟩ e rest),
      fromUtf8_eq_some_iff.2 rfl, Decoder.run_pure_eq]
  · intro bs s rest hr
    obtain ⟨b, mid, hb, hs⟩ := Decoder.run_bind_eq_ok_iff.1 hr
    obtain ⟨⟨-, hfit⟩, w, e, rfl⟩ := hv.canonical _ _ _ hb
    cases hu : fromUtf8 b with
    | none =>
      rw [hu] at hs
      cases hs
    | some t =>
      rw [hu] at hs
      cases hs
      obtain rfl := fromUtf8_eq_some_iff.1 hu
      exact ⟨hfit, w, e, rfl⟩

theorem roundTrips_bool : RoundTrips bool.consensusEncode bool.consensusDecode fun _ => True := by
  intro b w _ e rest
  obtain rfl := Outcome.ok.inj e
  cases b
  · exact Decoder.run_bind_of_ok (run_u8 0 rest)
  · exact Decoder.run_bind_of_ok (run_u8 1 rest)

end RustDogecoin
