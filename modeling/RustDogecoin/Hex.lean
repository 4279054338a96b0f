import RustDogecoin.Consensus.Encode
import RustDogecoin.Units.HexParse

/-!
# Bytes as hexadecimal texts

Texts are read and written by the `hex-conservative` crate, which is not part of the repository.  `HexCrate` is
what is used of it and `HexCrate.Documented` what it documents: two digits of either case are a byte, the high
half first, and lower case is written.
-/

namespace RustDogecoin

open RustDogecoin.Units

/-- The digit of a number below 16. -/
def hexChar (upper : Bool) (x : ℕ) : Char :=
  if x < 10 then Char.ofNat (48 + x) else Char.ofNat ((if upper then 55 else 87) + x)

/-- The digits of bytes. -/
def hexText (upper : Bool) (bs : Bytes) : Str :=
  bs.flatMap fun b => [hexChar upper (b.toNat / 16), hexChar upper (b.toNat % 16)]

/-- The bytes that pairs of digits stand for. -/
def hexBytes : Str → Option Bytes
  | [] => some []
  | [_] => none
  | c :: d :: s => do
    let x ← toDigit c
    let y ← toDigit d
    let bs ← hexBytes s
    return UInt8.ofNat (16 * x + y) :: bs

/-- What is used of the `hex-conservative` crate. -/
structure HexCrate where
  HexToArrayError : Type
  OddLengthStringError : Type
  InvalidCharError : Type
  /-- `<[u8; 32]>::from_hex`. -/
  arrayFromHex : Str → Except HexToArrayError (U8Array 32)
  /-- `fmt_hex_exact!` in lower case. -/
  fmtHexExact : Bytes → Str
  /-- `HexSliceToBytesIter::new`, with the items that the iterator yields. -/
  bytesIter : Str → Except OddLengthStringError (List (Except InvalidCharError UInt8))

/-- What the crate documents. -/
structure HexCrate.Documented (H : HexCrate) : Prop where
  arrayFromHex_iff : ∀ s a, H.arrayFromHex s = .ok a ↔ hexBytes s = some a.toList
  fmtHexExact_eq : ∀ bs, H.fmtHexExact bs = hexText false bs
  bytesIter_hexText : ∀ upper bs, H.bytesIter (hexText upper bs) = .ok (bs.map .ok)

/-! ## Writers -/

/-- `fmt::Error`. -/
structure FmtError where
  deriving DecidableEq, Repr

/-- `fmt::Write` for `String`, which does not fail. -/
def pushStr (f s : Str) : Except FmtError Str := .ok (f ++ s)

theorem pushStr_bind {α : Type} (f s : Str) (k : Str → Except FmtError α) : pushStr f s >>= k = k (f ++ s) :=
  rfl

/-! ## Digits -/

theorem toDigit_hexChar (upper : Bool) {x : ℕ} (hx : x < 16) : toDigit (hexChar upper x) = some x := by
  have hall : ∀ y < 16, toDigit (hexChar false y) = some y ∧ toDigit (hexChar true y) = some y := by decide
  cases upper with
  | false => exact (hall x hx).1
  | true => exact (hall x hx).2

theorem hexText_cons (upper : Bool) (b : UInt8) (bs : Bytes) : hexText upper (b :: bs) =
    hexChar upper (b.toNat / 16) :: hexChar upper (b.toNat % 16) :: hexText upper bs := rfl

theorem hexBytes_cons {c d : Char} {x y : ℕ} (hc : toDigit c = some x) (hd : toDigit d = some y) (s : Str) :
    hexBytes (c :: d :: s) = (hexBytes s).map (UInt8.ofNat (16 * x + y) :: ·) := by
  rw [hexBytes, hc, hd]
  cases hexBytes s <;> rfl

/-- Digits that were written stand for the bytes. -/
theorem hexBytes_hexText (upper : Bool) (bs : Bytes) : hexBytes (hexText upper bs) = some bs := by
  induction bs with
  | nil => rfl
  | cons b bs ih =>
    have hb := b.toNat_lt
    have hhigh := toDigit_hexChar upper (by omega : b.toNat / 16 < 16)
    have hlow := toDigit_hexChar upper (by omega : b.toNat % 16 < 16)
    have hsum : 16 * (b.toNat / 16) + b.toNat % 16 = b.toNat := by omega
    rw [hexText_cons, hexBytes_cons hhigh hlow, ih, hsum, UInt8.ofNat_toNat]
    rfl

/-- Exactly the texts of digits, two for a byte, stand for bytes. -/
theorem exists_hexBytes_iff {s : Str} {n : ℕ} :
    (∃ bs, hexBytes s = some bs ∧ bs.length = n) ↔ HexDigits s ∧ s.length = 2 * n := by
  induction s using hexBytes.induct generalizing n with
  | case1 =>
    have hnil : HexDigits [] := List.forall_mem_nil _
    simp only [hexBytes, Option.some.injEq, exists_eq_left', List.length_nil]
    constructor
    · rintro rfl
      exact ⟨hnil, rfl⟩
    · rintro ⟨-, h⟩
      omega
  | case2 c =>
    simp only [hexBytes, List.length_singleton]
    apply iff_of_false
    · simp
    · omega
  | case3 c d s ih =>
    rw [HexDigits.cons_iff, HexDigits.cons_iff, List.length_cons, List.length_cons]
    constructor
    · rintro ⟨bs, hbs, rfl⟩
      simp only [hexBytes, Option.bind_eq_bind, Option.bind_eq_some_iff] at hbs
      obtain ⟨x, hx, y, hy, rest, hrest, hcons⟩ := hbs
      cases hcons
      obtain ⟨hdigits, hlen⟩ := ih.1 ⟨rest, hrest, rfl⟩
      rw [hx, hy, List.length_cons, hlen]
      exact ⟨⟨rfl, rfl, hdigits⟩, by ring⟩
    · rintro ⟨⟨hc, hd, hdigits⟩, hlen⟩
      obtain ⟨x, hx⟩ := Option.isSome_iff_exists.1 hc
      obtain ⟨y, hy⟩ := Option.isSome_iff_exists.1 hd
      obtain ⟨n, rfl⟩ := Nat.exists_eq_add_one_of_ne_zero (by omega : n ≠ 0)
      obtain ⟨rest, hrest, hlenr⟩ := (ih (n := n)).2 ⟨hdigits, by omega⟩
      refine ⟨UInt8.ofNat (16 * x + y) :: rest, ?_, by rw [List.length_cons, hlenr]⟩
      rw [hexBytes_cons hx hy, hrest]
      rfl

/-! ## The crate on its own terms -/

/-- What the iterator yields for pairs of characters. -/
def hexItems : Str → List (Except Unit UInt8)
  | c :: d :: s =>
    (match toDigit c, toDigit d with
      | some x, some y => .ok (UInt8.ofNat (16 * x + y))
      | _, _ => .error ()) :: hexItems s
  | _ => []

theorem hexItems_of_hexBytes {s : Str} {bs : Bytes} (h : hexBytes s = some bs) : hexItems s = bs.map .ok := by
  induction s using hexBytes.induct generalizing bs with
  | case1 =>
    cases h
    rfl
  | case2 c => cases h
  | case3 c d s ih =>
    simp only [hexBytes, Option.bind_eq_bind, Option.bind_eq_some_iff] at h
    obtain ⟨x, hx, y, hy, rest, hrest, hcons⟩ := h
    cases hcons
    rw [hexItems, hx, hy, ih hrest]
    rfl

/-- A crate that does what is documented, with a single error of each kind. -/
def HexCrate.plain : HexCrate where
  HexToArrayError := Unit
  OddLengthStringError := Unit
  InvalidCharError := Unit
  arrayFromHex s :=
    match hexBytes s with
    | some bs => if h : bs.length = 32 then .ok ⟨bs, h⟩ else .error ()
    | none => .error ()
  fmtHexExact := hexText false
  bytesIter s := if s.length % 2 = 0 then .ok (hexItems s) else .error ()

theorem length_hexText (upper : Bool) (bs : Bytes) : (hexText upper bs).length = 2 * bs.length :=
  (exists_hexBytes_iff.1 ⟨bs, hexBytes_hexText upper bs, rfl⟩).2

theorem HexCrate.plain_documented : HexCrate.plain.Documented where
  arrayFromHex_iff s a := by
    simp only [plain]
    cases h : hexBytes s with
    | none => simp
    | some bs =>
      dsimp only
      split_ifs with hlen
      · simp [U8Array.ext_iff]
      · apply iff_of_false (by simp)
        rintro heq
        exact hlen (by rw [Option.some.inj heq, a.length_eq])
  fmtHexExact_eq _ := rfl
  bytesIter_hexText upper bs := by
    simp only [plain]
    rw [if_pos (by rw [length_hexText]; omega), hexItems_of_hexBytes (hexBytes_hexText upper bs)]

end RustDogecoin
