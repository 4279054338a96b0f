import RustDogecoin.Blockdata.Transaction
import RustDogecoin.Hex
import RustDogecoin.Units.IntParse

/-!
# Outpoints as texts

`Display` and `FromStr` of `OutPoint`: the transaction id in hexadecimal digits, its bytes in reverse order, a
colon, and the index in decimal.  The parser takes the colon for the only one and the index for one without
signs and leading zeros, so that it reads the digits of the id in either case and nothing else besides what is
written (`OutPoint.fromStr_eq_ok_iff`).
-/

namespace RustDogecoin

open RustDogecoin.Units

variable (H : HexCrate)

/-- `ParseOutPointError`. -/
inductive ParseOutPointError where
  | txid (e : H.HexToArrayError)
  | vout (e : ParseIntError)
  | format
  | tooLong
  | voutNotCanonical

variable {H}

/-- The array with its bytes in reverse order. -/
def U8Array.reverse {n : ℕ} (a : U8Array n) : U8Array n := ⟨a.toList.reverse, by simp⟩

/-- `FromStr for Txid`. -/
def Txid.fromStr (s : Str) : Except H.HexToArrayError Txid := U8Array.reverse <$> H.arrayFromHex s

variable (H) in
/-- `Display for Txid`. -/
def Txid.fmt (txid : Txid) : Str := H.fmtHexExact txid.toList.reverse

/-- `parse_vout`. -/
def parseVout (s : Str) : Outcome (ParseOutPointError H) UInt32 := do
  (if 1 < s.len then
    match s with
    | [] => .panic .unwrap
    | first :: _ => .ensure (¬(first = '0' ∨ first = '+')) .voutNotCanonical
  else .ok ())
  (Outcome.ofExcept (Units.int s)).mapErr .vout

namespace OutPoint

variable (H) in
/-- `Display for OutPoint`. -/
def fmt (o : OutPoint) : Str := Txid.fmt H o.txid ++ ':' :: Nat.toDigits 10 o.vout.toNat

/-- `FromStr for OutPoint`. -/
def fromStr (s : Str) : Outcome (ParseOutPointError H) OutPoint := do
  .ensure (s.len ≤ 75) .tooLong
  let find := s.find (· == ':')
  .ensure (¬(find = none ∨ find ≠ s.rfind (· == ':'))) .format
  match find with
  | none => .panic .unwrap
  | some colon => do
    .require (1 ≤ s.len) .overflow
    .ensure (¬(colon = 0 ∨ colon = s.len - 1)) .format
    let id ← s.sliceTo colon
    let txid ← (Outcome.ofExcept (Txid.fromStr id)).mapErr .txid
    let index ← s.sliceFrom (colon + 1)
    let vout ← parseVout index
    return ⟨txid, vout⟩

end OutPoint

/-! ## The index -/

theorem int_eq_ok_iff {s : Str} {v : UInt32} :
    Units.int s = .ok v ↔ ∃ d : Str, (s = d ∨ s = '+' :: d) ∧ d ≠ [] ∧ Digits d ∧ valueFrom 0 d = v.toNat := by
  have hint : Units.int s = .ok v ↔ parseUint 32 s = .ok v.toNat := by
    rw [Units.int, parseU32]
    cases hparse : parseUint 32 s with
    | error e => simp [Except.mapError]
    | ok n =>
      obtain ⟨d, -, -, -, -, hlt⟩ := parseUint_eq_ok_iff.1 hparse
      have hback : (UInt32.ofNat n).toNat = n := UInt32.toNat_ofNat_of_lt' hlt
      simp only [Except.map_ok, Except.mapError, Except.ok.injEq]
      constructor
      · rintro rfl
        exact hback.symm
      · rintro rfl
        exact UInt32.ofNat_toNat
  rw [hint, parseUint_eq_ok_iff]
  constructor
  · rintro ⟨d, hs, hne, hdigits, hvalue, -⟩
    exact ⟨d, hs, hne, hdigits, hvalue⟩
  · rintro ⟨d, hs, hne, hdigits, hvalue⟩
    exact ⟨d, hs, hne, hdigits, hvalue, v.toNat_lt⟩

/-- An index is read exactly from what it is written as. -/
theorem parseVout_eq_ok_iff {s : Str} {v : UInt32} :
    (parseVout s : Outcome (ParseOutPointError H) _) = .ok v ↔ s = Nat.toDigits 10 v.toNat := by
  unfold parseVout
  rw [Outcome.bind_eq_ok_iff]
  simp only [Outcome.mapErr_eq_ok_iff, Outcome.ofExcept_eq_ok_iff, int_eq_ok_iff]
  constructor
  · rintro ⟨u, hcheck, d, hs, hne, hdigits, hvalue⟩
    have hlong : 1 < s.len → s.head? ≠ some '0' ∧ s.head? ≠ some '+' := by
      intro hlen
      rw [if_pos hlen] at hcheck
      cases s with
      | nil => cases hcheck
      | cons c s => simpa [not_or] using Outcome.ensure_eq_ok_iff.1 hcheck
    rcases hs with rfl | rfl
    · rw [← hvalue]
      refine eq_toDigits hne hdigits fun hzero => ?_
      have hshort : s.length ≤ 1 := by
        rw [← hdigits.len_eq]
        exact not_lt.1 fun hlen => (hlong hlen).1 hzero
      obtain ⟨c, s, rfl⟩ := List.exists_cons_of_ne_nil hne
      rw [List.head?_cons, Option.some.injEq] at hzero
      rw [List.length_cons] at hshort
      rw [hzero, List.length_eq_zero_iff.1 (by omega : s.length = 0)]
    · refine absurd rfl (hlong ?_).2
      have hpos := List.length_pos_iff.2 hne
      rw [Str.len, hdigits.len_eq]
      change 1 < 1 + d.length
      omega
  · rintro rfl
    refine ⟨(), ?_, _, .inl rfl, Nat.toDigits_ne_nil, digits_toDigits _, valueFrom_toDigits _⟩
    split_ifs with hlen
    · have hdigits := digits_toDigits v.toNat
      have hzero := @toDigits_of_head v.toNat
      rw [hdigits.len_eq] at hlen
      cases hs : Nat.toDigits 10 v.toNat with
      | nil => exact absurd hs Nat.toDigits_ne_nil
      | cons c s =>
        rw [hs] at hlen hdigits hzero
        refine Outcome.ensure_of ?_ _
        rintro (rfl | rfl)
        · rw [hzero rfl] at hlen
          exact absurd hlen (lt_irrefl 1)
        · exact absurd (hdigits '+' List.mem_cons_self) (by decide)
    · rfl

theorem noPanic_parseVout (s : Str) : (parseVout s : Outcome (ParseOutPointError H) _).NoPanic := by
  unfold parseVout
  refine Outcome.NoPanic.bind ?_ fun _ _ => (Outcome.noPanic_ofExcept _).mapErr _
  split_ifs with hlen
  · cases s with
    | nil => cases hlen
    | cons c s => exact Outcome.noPanic_ensure _
  · exact Outcome.noPanic_ok _

/-! ## The colon -/

theorem colon_or (s : Str) : ':' ∉ s ∨ ∃ a b, ':' ∉ a ∧ s = a ++ ':' :: b := by
  by_cases h : ':' ∈ s
  · obtain ⟨a, b, rfl, ha⟩ := List.eq_append_cons_of_mem h
    exact .inr ⟨a, b, ha, rfl⟩
  · exact .inl h

theorem not_colon {s : Str} (h : ':' ∉ s) : ∀ c ∈ s, ¬(c == ':') = true := by
  intro c hc hcolon
  rw [beq_iff_eq] at hcolon
  exact h (hcolon ▸ hc)

namespace OutPoint

/-- Without a colon, or with two of them, there is an error. -/
theorem fromStr_of_find {s : Str} (h : s.find (· == ':') = none ∨ s.find (· == ':') ≠ s.rfind (· == ':')) :
    ∃ e, (fromStr s : Outcome (ParseOutPointError H) _) = .err e := by
  unfold fromStr
  by_cases hlen : s.len ≤ 75
  · rw [Outcome.ensure_of hlen, Outcome.ok_bind]
    dsimp only
    rw [Outcome.ensure_of_not (not_not.2 h), Outcome.err_bind]
    exact ⟨_, rfl⟩
  · rw [Outcome.ensure_of_not hlen, Outcome.err_bind]
    exact ⟨_, rfl⟩

theorem fromStr_noColon {s : Str} (h : ':' ∉ s) :
    ∃ e, (fromStr s : Outcome (ParseOutPointError H) _) = .err e :=
  fromStr_of_find (.inl (Str.find_eq_none_iff.2 (not_colon h)))

theorem fromStr_colons {a b : Str} (ha : ':' ∉ a) (hb : ':' ∈ b) :
    ∃ e, (fromStr (a ++ ':' :: b) : Outcome (ParseOutPointError H) _) = .err e := by
  -- the last colon stands behind the first
  obtain ⟨b₂, b₁, hrev, hb₂⟩ := List.eq_append_cons_of_mem (List.mem_reverse.2 hb)
  obtain rfl : b = b₁.reverse ++ ':' :: b₂.reverse := by
    rw [← List.reverse_reverse b, hrev]
    simp
  refine fromStr_of_find (.inr ?_)
  have hlast : ':' ∉ b₂.reverse := fun h => hb₂ (List.mem_reverse.1 h)
  rw [Str.find_append (not_colon ha) rfl, ← List.cons_append, ← List.append_assoc,
    Str.rfind_append (not_colon hlast) rfl, Str.len_append, Str.len]
  intro h
  have hlen := Option.some.inj h
  have hpos := Char.utf8Size_pos ':'
  omega

/-- A text with one colon. -/
theorem fromStr_colon {a b : Str} (ha : ':' ∉ a) (hb : ':' ∉ b) :
    (fromStr (a ++ ':' :: b) : Outcome (ParseOutPointError H) _) = (do
      .ensure ((a ++ ':' :: b).len ≤ 75) .tooLong
      .ensure (a ≠ [] ∧ b ≠ []) .format
      let txid ← (Outcome.ofExcept (Txid.fromStr a)).mapErr .txid
      let vout ← parseVout b
      return ⟨txid, vout⟩) := by
  have hfind : (a ++ ':' :: b).find (· == ':') = some a.len := Str.find_append (not_colon ha) rfl
  have hrfind : Str.rfind (· == ':') (a ++ ':' :: b) = some a.len := Str.rfind_append (not_colon hb) rfl
  have hlen : (a ++ ':' :: b).len = a.len + 1 + b.len := by
    rw [Str.len_append, Str.len, Nat.add_assoc]
    rfl
  have hends : (¬(a.len = 0 ∨ a.len = (a ++ ':' :: b).len - 1)) = (a ≠ [] ∧ b ≠ []) := by
    rw [eq_iff_iff, ne_eq, ne_eq, ← Str.len_eq_zero_iff, ← @Str.len_eq_zero_iff b, hlen]
    omega
  have hfrom : ∀ {ε : Type}, (Str.sliceFrom (a ++ ':' :: b) (a.len + 1) : Outcome ε Str) = .ok b := by
    intro ε
    have hcolon : Str.len (a ++ [':']) = a.len + 1 := by
      rw [Str.len_append]
      rfl
    rw [← hcolon, ← List.singleton_append, ← List.append_assoc]
    exact Str.sliceFrom_append _ _
  unfold fromStr
  simp only [hfind, hrfind, reduceCtorEq, ne_eq, not_true_eq_false, or_self, not_false_eq_true,
    Outcome.ensure_of, Outcome.ok_bind, Outcome.require_of (by omega : 1 ≤ (a ++ ':' :: b).len),
    hends, Str.sliceTo_append, hfrom]

theorem noPanic_fromStr (s : Str) : (fromStr s : Outcome (ParseOutPointError H) _).NoPanic := by
  have herr : ∀ {x : Outcome (ParseOutPointError H) OutPoint}, (∃ e, x = .err e) → x.NoPanic := by
    rintro _ ⟨e, rfl⟩
    exact Outcome.noPanic_err e
  rcases colon_or s with h | ⟨a, b, ha, rfl⟩
  · exact herr (fromStr_noColon h)
  by_cases hb : ':' ∈ b
  · exact herr (fromStr_colons ha hb)
  rw [fromStr_colon ha hb]
  refine (Outcome.noPanic_ensure _).bind fun _ _ => (Outcome.noPanic_ensure _).bind fun _ _ => ?_
  refine ((Outcome.noPanic_ofExcept _).mapErr _).bind fun _ _ => ?_
  exact (noPanic_parseVout _).bind fun _ _ => Outcome.noPanic_ok _

/-! ## Which texts are read -/

theorem txid_fromStr_eq_ok_iff (hH : H.Documented) {s : Str} {txid : Txid} :
    (Txid.fromStr s : Except H.HexToArrayError _) = .ok txid ↔ hexBytes s = some txid.toList.reverse := by
  have hreverse : ∀ a : U8Array 32, a.reverse = txid ↔ a = txid.reverse := by
    intro a
    rw [U8Array.ext_iff, U8Array.ext_iff]
    exact List.reverse_eq_iff
  have hbytes := hH.arrayFromHex_iff s txid.reverse
  rw [Txid.fromStr, ← show txid.reverse.toList = txid.toList.reverse from rfl, ← hbytes]
  cases H.arrayFromHex s with
  | error e => simp
  | ok a => rw [Except.map_ok, Except.ok.injEq, Except.ok.injEq, hreverse]

theorem colon_notMem_toDigits (n : ℕ) : ':' ∉ Nat.toDigits 10 n := fun h =>
  absurd (digits_toDigits n _ h) (by decide)

/-- The id in digits of either case, a colon, and the index as it is written. -/
theorem fromStr_eq_ok_iff (hH : H.Documented) {s : Str} {o : OutPoint} :
    (fromStr s : Outcome (ParseOutPointError H) _) = .ok o ↔
      ∃ h, s = h ++ ':' :: Nat.toDigits 10 o.vout.toNat ∧ hexBytes h = some o.txid.toList.reverse := by
  constructor
  · intro hread
    rcases colon_or s with hs | ⟨a, b, ha, rfl⟩
    · obtain ⟨e, herr⟩ := @fromStr_noColon H s hs
      rw [herr] at hread
      cases hread
    by_cases hb : ':' ∈ b
    · obtain ⟨e, herr⟩ := @fromStr_colons H a b ha hb
      rw [herr] at hread
      cases hread
    rw [fromStr_colon ha hb] at hread
    obtain ⟨-, hread⟩ := Outcome.ensure_bind_eq_ok_iff.1 hread
    obtain ⟨-, hread⟩ := Outcome.ensure_bind_eq_ok_iff.1 hread
    obtain ⟨txid, htxid, hread⟩ := Outcome.bind_eq_ok_iff.1 hread
    obtain ⟨vout, hvout, hread⟩ := Outcome.bind_eq_ok_iff.1 hread
    cases hread
    rw [Outcome.mapErr_eq_ok_iff, Outcome.ofExcept_eq_ok_iff, txid_fromStr_eq_ok_iff hH] at htxid
    rw [parseVout_eq_ok_iff] at hvout
    exact ⟨a, by rw [← hvout], htxid⟩
  · rintro ⟨h, rfl, hbytes⟩
    obtain ⟨hdigits, hlen⟩ := exists_hexBytes_iff.1 ⟨_, hbytes, rfl⟩
    have hh : ':' ∉ h := fun hmem => absurd (hdigits _ hmem) (by decide)
    have hindex : (Nat.toDigits 10 o.vout.toNat).length ≤ 10 :=
      (Nat.length_toDigits_le_iff (by decide) (by decide)).2 (lt_trans o.vout.toNat_lt (by decide))
    have hshort : (h ++ ':' :: Nat.toDigits 10 o.vout.toNat).len ≤ 75 := by
      rw [Str.len_append, Str.len, hdigits.len_eq, (digits_toDigits _).len_eq, hlen, List.length_reverse,
        U8Array.length_eq]
      change 2 * 32 + (1 + _) ≤ 75
      omega
    have hne : h ≠ [] := by
      rw [← List.length_pos_iff, hlen, List.length_reverse, U8Array.length_eq]
      decide
    rw [fromStr_colon hh (colon_notMem_toDigits _), Outcome.ensure_of hshort, Outcome.ok_bind,
      Outcome.ensure_of ⟨hne, Nat.toDigits_ne_nil⟩, Outcome.ok_bind, (txid_fromStr_eq_ok_iff hH).2 hbytes,
      Outcome.ofExcept_ok, Outcome.mapErr_ok, Outcome.ok_bind, parseVout_eq_ok_iff.2 rfl, Outcome.ok_bind]
    rfl

/-- The canonical decimal form of a `u32`: digits without a zero in front, except that zero is one. -/
def Canonical (d : Str) : Prop :=
  d ≠ [] ∧ Digits d ∧ (d.head? = some '0' → d = ['0']) ∧ valueFrom 0 d < 2 ^ 32

theorem canonical_iff {d : Str} : Canonical d ↔ ∃ v : UInt32, d = Nat.toDigits 10 v.toNat := by
  constructor
  · rintro ⟨hne, hdigits, hzero, hlt⟩
    refine ⟨UInt32.ofNat (valueFrom 0 d), ?_⟩
    rw [UInt32.toNat_ofNat_of_lt' hlt]
    exact eq_toDigits hne hdigits hzero
  · rintro ⟨v, rfl⟩
    refine ⟨Nat.toDigits_ne_nil, digits_toDigits _, toDigits_of_head, ?_⟩
    rw [valueFrom_toDigits]
    exact v.toNat_lt

/-- Exactly 64 hexadecimal digits, a colon and the canonical decimal form of a `u32` are read; no text makes
the parser panic; and an outpoint is read from what it is written as. -/
theorem fromStr_spec (hH : H.Documented) :
    (∀ s : Str, (∃ o, (fromStr s : Outcome (ParseOutPointError H) _) = .ok o) ↔
      ∃ h d, s = h ++ ':' :: d ∧ HexDigits h ∧ h.length = 64 ∧ Canonical d) ∧
    (∀ s : Str, (fromStr s : Outcome (ParseOutPointError H) _).NoPanic) ∧
    ∀ o : OutPoint, (fromStr (fmt H o) : Outcome (ParseOutPointError H) _) = .ok o := by
  refine ⟨fun s => ?_, noPanic_fromStr, fun o => ?_⟩
  · simp only [fromStr_eq_ok_iff hH]
    constructor
    · rintro ⟨o, h, rfl, hbytes⟩
      obtain ⟨hdigits, hlen⟩ := exists_hexBytes_iff.1 ⟨_, hbytes, rfl⟩
      rw [List.length_reverse, U8Array.length_eq] at hlen
      exact ⟨h, _, rfl, hdigits, hlen, canonical_iff.2 ⟨o.vout, rfl⟩⟩
    · rintro ⟨h, d, rfl, hdigits, hlen, hcanonical⟩
      obtain ⟨v, rfl⟩ := canonical_iff.1 hcanonical
      obtain ⟨bs, hbytes, hbs⟩ := (exists_hexBytes_iff (n := 32)).2 ⟨hdigits, hlen⟩
      refine ⟨⟨U8Array.reverse ⟨bs, hbs⟩, v⟩, h, rfl, ?_⟩
      rw [U8Array.reverse, List.reverse_reverse, hbytes]
  · rw [fromStr_eq_ok_iff hH]
    refine ⟨_, rfl, ?_⟩
    rw [Txid.fmt, hH.fmtHexExact_eq, hexBytes_hexText]

/-- An outpoint whose index is 0, read from its text. -/
theorem fromStr_spec_sample : (fromStr (fmt HexCrate.plain ⟨.replicate 32 0xab, 0⟩) :
    Outcome (ParseOutPointError HexCrate.plain) _) = .ok ⟨.replicate 32 0xab, 0⟩ :=
  (fromStr_spec HexCrate.plain_documented).2.2 _

end OutPoint

end RustDogecoin
