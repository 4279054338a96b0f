import RustDogecoin.Pow.Work
import RustDogecoin.Units.HexParse

/-!
# Hexadecimal targets and work

`from_hex` and `from_unprefixed_hex` of `pow.rs` cut a text of more than 32 bytes into two and read
both parts with `parse::hex_u128`.  They read the hexadecimal numbers of at most 64 digits, unless
the cut falls inside a character, a part carries a prefix or a plus sign of its own, or the number
has more leading zeros than fit.
-/

open RustDogecoin.Units

namespace RustDogecoin

/-- Error returned when parsing integer from an supposedly prefixed hex string. -/
inductive PrefixedHexError where
  | missingPrefix (hex : Str)
  | parseInt (e : ParseIntError)
  deriving DecidableEq, Repr

/-- Error returned when parsing integer from an supposedly un-prefixed hex string. -/
inductive UnprefixedHexError where
  | containsPrefix (hex : Str)
  | parseInt (e : ParseIntError)
  deriving DecidableEq, Repr

namespace U256

/-- Caller to ensure `s` does not contain a prefix. -/
def fromHexInternal (s : Str) : Outcome ParseIntError U256 :=
  if s.len ≤ 32 then do
    let low ← .ofExcept (hexU128 s)
    return ⟨0, low⟩
  else do
    let highLen := s.len - 32
    let highS ← s.sliceTo highLen
    let lowS ← s.sliceFrom highLen
    let high ← .ofExcept (hexU128 highS)
    let low ← .ofExcept (hexU128 lowS)
    return ⟨high, low⟩

/-- Creates a `U256` from a prefixed hex string. -/
def fromHex (s : Str) : Outcome PrefixedHexError U256 :=
  match s.stripPrefix ['0', 'x'] with
  | some stripped => (fromHexInternal stripped).mapErr .parseInt
  | none =>
    match s.stripPrefix ['0', 'X'] with
    | some stripped => (fromHexInternal stripped).mapErr .parseInt
    | none => .err (.missingPrefix s)

/-- Creates a `U256` from an unprefixed hex string. -/
def fromUnprefixedHex (s : Str) : Outcome UnprefixedHexError U256 :=
  if (s.stripPrefix ['0', 'x']).isSome ∨ (s.stripPrefix ['0', 'X']).isSome then
    .err (.containsPrefix s)
  else (fromHexInternal s).mapErr .parseInt

end U256

def Target.fromHex (s : Str) : Outcome PrefixedHexError Target := U256.fromHex s

def Target.fromUnprefixedHex (s : Str) : Outcome UnprefixedHexError Target :=
  U256.fromUnprefixedHex s

def Work.fromHex (s : Str) : Outcome PrefixedHexError Work := U256.fromHex s

def Work.fromUnprefixedHex (s : Str) : Outcome UnprefixedHexError Work := U256.fromUnprefixedHex s

namespace U256

/-! ## What there is to read -/

/-- A hexadecimal number that fits. -/
structure IsNumeral (d : Str) : Prop where
  nonempty : d ≠ []
  digits : HexDigits d
  length_le : d.length ≤ 64

/-- The run reads `d`: it does not panic, and it returns the value of `d` exactly if `d` is a
number. -/
def ReadsDigits {ε : Type} (x : Outcome ε U256) (d : Str) : Prop :=
  x.NoPanic ∧ ∀ v, x = .ok v ↔ IsNumeral d ∧ hexValue d = v.toNat

/-- The parser reads the number that `s` is a text of, if `IsText s d` says that `d` are the
characters in `s` to read as digits. -/
def ReadsHex {ε : Type} (f : Str → Outcome ε U256) (IsText : Str → Str → Prop) (s : Str) : Prop :=
  (f s).NoPanic ∧ ∀ v, f s = .ok v ↔ ∃ d, IsText s d ∧ IsNumeral d ∧ hexValue d = v.toNat

/-- `d` behind the required prefix. -/
def Prefixed (s d : Str) : Prop := s = ['0', 'x'] ++ d ∨ s = ['0', 'X'] ++ d

/-- `d` without a prefix. -/
def Unprefixed (s d : Str) : Prop := s = d ∧ ∀ t, ¬ Prefixed s t

/-- The last 32 bytes do not begin with a character. -/
def IsTorn (d : Str) : Prop := 32 < d.len ∧ ∀ a b : Str, d = a ++ b → b.len ≠ 32

/-- Digits with a prefix or a plus sign in front of them, in one of the parts that `d` is read in. -/
def IsDecorated (d : Str) : Prop :=
  (d.len ≤ 32 ∧ ∃ m ∈ marks, m ≠ [] ∧ ∃ n, Reads 128 m d n) ∨
    ∃ a b : Str, d = a ++ b ∧ a ≠ [] ∧ b.len = 32 ∧ ∃ m ∈ marks, ∃ m' ∈ marks,
      (m ≠ [] ∨ m' ≠ []) ∧ (∃ n, Reads 128 m a n) ∧ ∃ n, Reads 128 m' b n

/-- A number that fits, with too many digits. -/
def IsOverlong (d : Str) : Prop := HexDigits d ∧ 64 < d.length ∧ hexValue d < 2 ^ 256

/-- None of what the cut into two parts goes wrong on. -/
structure IsClean (d : Str) : Prop where
  notTorn : ¬ IsTorn d
  notDecorated : ¬ IsDecorated d
  notOverlong : ¬ IsOverlong d

theorem not_hexDigits_of_mark {m : Str} (hm : m ∈ marks) (hne : m ≠ []) (h : Str) :
    ¬ HexDigits (m ++ h) := by
  have hplus : ¬ (toDigit '+').isSome := by decide
  have hlower : ¬ (toDigit 'x').isSome := by decide
  have hupper : ¬ (toDigit 'X').isSome := by decide
  have hall : ∀ m ∈ marks, m ≠ [] → ¬ HexDigits m := by
    simp [marks, HexDigits.cons_iff, hplus, hlower, hupper]
  exact fun hdigits => hall m hm hne (HexDigits.append_iff.mp hdigits).1

theorem mark_eq_nil {m d : Str} {n : ℕ} (hm : m ∈ marks) (hread : Reads 128 m d n)
    (hdigits : HexDigits d) : m = [] := by
  by_contra hne
  obtain ⟨⟨h, rfl, -⟩, -⟩ := hread
  exact not_hexDigits_of_mark hm hne h hdigits

/-- A part without a mark is read as its value. -/
theorem reads_nil_iff {d : Str} {n : ℕ} :
    Reads 128 [] d n ↔ d ≠ [] ∧ HexDigits d ∧ hexValue d = n ∧ n < 2 ^ 128 := by
  rw [Reads, digitsBehind_nil, and_assoc, and_assoc]

/-! ## One part -/

theorem ofExcept_hexU128_eq_ok_iff {s : Str} {v : BitVec 128} :
    (Outcome.ofExcept (hexU128 s)) = .ok v ↔ ∃ m ∈ marks, Reads 128 m s v.toNat := by
  rw [Outcome.ofExcept_eq_ok_iff, hexU128, hexUint_eq_ok_iff]

theorem fromHexInternal_short {d : Str} (h : d.len ≤ 32) {v : U256} :
    fromHexInternal d = .ok v ↔ v.hi = 0 ∧ ∃ m ∈ marks, Reads 128 m d v.lo.toNat := by
  rw [fromHexInternal, if_pos h, Outcome.bind_eq_ok_iff]
  constructor
  · rintro ⟨low, hlow, hv⟩
    obtain rfl := Outcome.ok.inj hv
    exact ⟨rfl, ofExcept_hexU128_eq_ok_iff.mp hlow⟩
  · rintro ⟨hhi, hread⟩
    refine ⟨v.lo, ofExcept_hexU128_eq_ok_iff.mpr hread, ?_⟩
    rw [← hhi]
    rfl

theorem readsDigits_short {d : Str} (h : d.len ≤ 32) :
    ReadsDigits (fromHexInternal d) d ↔ ∀ m ∈ marks, m ≠ [] → ∀ n, ¬ Reads 128 m d n := by
  constructor
  · rintro ⟨-, hok⟩ m hm hne n hread
    have hval : (BitVec.ofNat 128 n).toNat = n := Nat.mod_eq_of_lt hread.2
    have hv : fromHexInternal d = .ok ⟨0, BitVec.ofNat 128 n⟩ :=
      (fromHexInternal_short h).mpr ⟨rfl, m, hm, hval.symm ▸ hread⟩
    exact hne (mark_eq_nil hm hread ((hok _).mp hv).1.digits)
  · intro hplain
    refine ⟨?_, fun v => ?_⟩
    · rw [fromHexInternal, if_pos h]
      exact (Outcome.noPanic_ofExcept _).bind fun low _ => Outcome.noPanic_ok _
    · rw [fromHexInternal_short h]
      constructor
      · rintro ⟨hhi, m, hm, hread⟩
        obtain rfl : m = [] := by
          by_contra hne
          exact hplain m hm hne _ hread
        obtain ⟨hne, hdigits, hval, -⟩ := reads_nil_iff.mp hread
        have hlen := hdigits.len_eq
        refine ⟨⟨hne, hdigits, by omega⟩, ?_⟩
        rw [hval, toNat, hhi, toNat_zero, Nat.zero_mul, Nat.zero_add]
      · rintro ⟨hnum, hval⟩
        have hlen := hnum.digits.len_eq
        have hlt : hexValue d < 2 ^ 128 := by
          apply (hexValue_lt hnum.digits).trans_le
          rw [show (2 : ℕ) ^ 128 = 16 ^ 32 from rfl]
          exact Nat.pow_le_pow_right (by decide) (by omega)
        have hhi : v.hi.toNat = 0 := by
          rw [hval, toNat] at hlt
          omega
        have hlo : v.lo.toNat = hexValue d := by rw [hval, toNat, hhi, Nat.zero_mul, Nat.zero_add]
        refine ⟨BitVec.eq_of_toNat_eq hhi, [], List.mem_cons_self, ?_⟩
        exact reads_nil_iff.mpr ⟨hnum.nonempty, hnum.digits, hlo.symm, v.lo.isLt⟩

/-! ## Two parts -/

theorem fromHexInternal_torn {d : Str} (h : IsTorn d) :
    fromHexInternal d = .panic .outOfBounds := by
  have hcut : ∀ a b : Str, d = a ++ b → a.len ≠ d.len - 32 := by
    intro a b hd ha
    have hlen : d.len = a.len + b.len := hd ▸ Str.len_append a b
    have hlong := h.1
    exact h.2 a b hd (by omega)
  rw [fromHexInternal, if_neg (Nat.not_le_of_lt h.1)]
  show d.sliceTo (d.len - 32) >>= _ = _
  rw [Str.slice_panics hcut]
  rfl

theorem len_pos {a : Str} (ha : a ≠ []) : 0 < a.len :=
  Nat.pos_of_ne_zero fun h => ha (Str.len_eq_zero_iff.mp h)

theorem fromHexInternal_append {a b : Str} (ha : a ≠ []) (hb : b.len = 32) :
    fromHexInternal (a ++ b) = (do
      let high ← .ofExcept (hexU128 a)
      let low ← .ofExcept (hexU128 b)
      return ⟨high, low⟩) := by
  have hpos := len_pos ha
  have hlen : (a ++ b).len = a.len + 32 := by rw [Str.len_append, hb]
  rw [fromHexInternal, if_neg (by omega)]
  show ((a ++ b).sliceTo ((a ++ b).len - 32) >>= fun highS =>
    (a ++ b).sliceFrom ((a ++ b).len - 32) >>= fun lowS => _) = _
  rw [hlen, Nat.add_sub_cancel, Str.sliceTo_append, Str.sliceFrom_append]
  rfl

theorem fromHexInternal_long {a b : Str} (ha : a ≠ []) (hb : b.len = 32) {v : U256} :
    fromHexInternal (a ++ b) = .ok v ↔
      (∃ m ∈ marks, Reads 128 m a v.hi.toNat) ∧ ∃ m ∈ marks, Reads 128 m b v.lo.toNat := by
  rw [fromHexInternal_append ha hb, Outcome.bind_eq_ok_iff]
  constructor
  · rintro ⟨high, hhigh, h⟩
    obtain ⟨low, hlow, hv⟩ := Outcome.bind_eq_ok_iff.mp h
    obtain rfl := Outcome.ok.inj hv
    exact ⟨ofExcept_hexU128_eq_ok_iff.mp hhigh, ofExcept_hexU128_eq_ok_iff.mp hlow⟩
  · rintro ⟨hhigh, hlow⟩
    refine ⟨v.hi, ofExcept_hexU128_eq_ok_iff.mpr hhigh, ?_⟩
    rw [ofExcept_hexU128_eq_ok_iff.mpr hlow]
    rfl

/-- The cut behind which 32 bytes stand is the only one. -/
theorem append_inj_of_len {a b a' b' : Str} (h : a ++ b = a' ++ b') (hb : b.len = b'.len) :
    a = a' ∧ b = b' := by
  have hlen : a.len = a'.len := by
    have := congrArg Str.len h
    rw [Str.len_append, Str.len_append] at this
    omega
  have hsplit := Str.splitAt_append a b
  rw [h, hlen, Str.splitAt_append] at hsplit
  have hpair := Option.some.inj hsplit
  exact ⟨(congrArg Prod.fst hpair).symm, (congrArg Prod.snd hpair).symm⟩

theorem hexValue_long {a b : Str} (hb : HexDigits b) (hlen : b.len = 32) :
    hexValue (a ++ b) = hexValue a * 2 ^ 128 + hexValue b ∧ hexValue b < 2 ^ 128 := by
  have hpow : (16 : ℕ) ^ b.length = 2 ^ 128 := by
    rw [← hb.len_eq, hlen]
    rfl
  refine ⟨?_, hpow ▸ hexValue_lt hb⟩
  rw [hexValue_append, hpow]

/-- The words of a value are those of its parts. -/
theorem toNat_eq_iff_words {v : U256} {x y : ℕ} (hy : y < 2 ^ 128) :
    x * 2 ^ 128 + y = v.toNat ↔ x = v.hi.toNat ∧ y = v.lo.toNat := by
  have hlo := v.lo.isLt
  rw [toNat]
  omega

theorem readsDigits_long_plain {a b : Str} (ha : a ≠ []) (hb : b.len = 32)
    (h : ReadsDigits (fromHexInternal (a ++ b)) (a ++ b)) :
    ¬ IsDecorated (a ++ b) ∧ ¬ IsOverlong (a ++ b) := by
  obtain ⟨-, hok⟩ := h
  have hpos := len_pos ha
  have hlen := Str.len_append a b
  -- what is read although it is no number is a value that should not have been returned
  have hread : ∀ m ∈ marks, ∀ m' ∈ marks, ∀ n n', Reads 128 m a n → Reads 128 m' b n' →
      IsNumeral (a ++ b) := by
    intro m hm m' hm' n n' hreada hreadb
    have hvala : (BitVec.ofNat 128 n).toNat = n := Nat.mod_eq_of_lt hreada.2
    have hvalb : (BitVec.ofNat 128 n').toNat = n' := Nat.mod_eq_of_lt hreadb.2
    have hv : fromHexInternal (a ++ b) = .ok ⟨BitVec.ofNat 128 n, BitVec.ofNat 128 n'⟩ :=
      (fromHexInternal_long ha hb).mpr ⟨⟨m, hm, hvala.symm ▸ hreada⟩, m', hm', hvalb.symm ▸ hreadb⟩
    exact ((hok _).mp hv).1
  constructor
  · rintro (⟨hshort, -⟩ | ⟨a', b', hd, -, hb', m, hm, m', hm', hmark, ⟨n, hreada⟩, n', hreadb⟩)
    · omega
    · obtain ⟨rfl, rfl⟩ := append_inj_of_len hd (hb.trans hb'.symm)
      have hdigits := HexDigits.append_iff.mp (hread m hm m' hm' n n' hreada hreadb).digits
      rcases hmark with hmark | hmark
      · exact hmark (mark_eq_nil hm hreada hdigits.1)
      · exact hmark (mark_eq_nil hm' hreadb hdigits.2)
  · rintro ⟨hdigits, hlong, hval⟩
    obtain ⟨hdigitsa, hdigitsb⟩ := HexDigits.append_iff.mp hdigits
    obtain ⟨hsplit, hlow⟩ := hexValue_long (a := a) hdigitsb hb
    have hhigh : hexValue a < 2 ^ 128 := by omega
    have hbne : b ≠ [] := by
      rintro rfl
      cases hb
    have hnum := hread [] List.mem_cons_self [] List.mem_cons_self _ _
      (reads_nil_iff.mpr ⟨ha, hdigitsa, rfl, hhigh⟩) (reads_nil_iff.mpr ⟨hbne, hdigitsb, rfl, hlow⟩)
    exact Nat.not_lt_of_le hnum.length_le hlong

theorem readsDigits_of_plain {a b : Str} (ha : a ≠ []) (hb : b.len = 32)
    (hdecorated : ¬ IsDecorated (a ++ b)) (hoverlong : ¬ IsOverlong (a ++ b)) :
    ReadsDigits (fromHexInternal (a ++ b)) (a ++ b) := by
  have hbne : b ≠ [] := by
    rintro rfl
    cases hb
  constructor
  · rw [fromHexInternal_append ha hb]
    apply (Outcome.noPanic_ofExcept _).bind
    intro high _
    exact (Outcome.noPanic_ofExcept _).bind fun low _ => Outcome.noPanic_ok _
  · intro v
    rw [fromHexInternal_long ha hb]
    constructor
    · rintro ⟨⟨m, hm, hreada⟩, m', hm', hreadb⟩
      have hnil : m = [] ∧ m' = [] := by
        by_contra hmark
        refine hdecorated (.inr ⟨a, b, rfl, ha, hb, m, hm, m', hm', ?_, ⟨_, hreada⟩, _, hreadb⟩)
        tauto
      obtain ⟨rfl, rfl⟩ := hnil
      obtain ⟨-, hdigitsa, hvala, -⟩ := reads_nil_iff.mp hreada
      obtain ⟨-, hdigitsb, hvalb, -⟩ := reads_nil_iff.mp hreadb
      have hdigits := HexDigits.append_iff.mpr ⟨hdigitsa, hdigitsb⟩
      obtain ⟨hsplit, hlow⟩ := hexValue_long (a := a) hdigitsb hb
      have hval : hexValue (a ++ b) = v.toNat :=
        hsplit.trans ((toNat_eq_iff_words hlow).mpr ⟨hvala, hvalb⟩)
      refine ⟨⟨List.append_ne_nil_of_right_ne_nil a hbne, hdigits, ?_⟩, hval⟩
      by_contra hlong
      exact hoverlong ⟨hdigits, Nat.lt_of_not_le hlong, hval ▸ v.toNat_lt⟩
    · rintro ⟨hnum, hval⟩
      obtain ⟨hdigitsa, hdigitsb⟩ := HexDigits.append_iff.mp hnum.digits
      obtain ⟨hsplit, hlow⟩ := hexValue_long (a := a) hdigitsb hb
      obtain ⟨hhi, hlo⟩ := (toNat_eq_iff_words hlow).mp (hsplit.symm.trans hval)
      refine ⟨⟨[], List.mem_cons_self, ?_⟩, [], List.mem_cons_self, ?_⟩
      · exact reads_nil_iff.mpr ⟨ha, hdigitsa, hhi, v.hi.isLt⟩
      · exact reads_nil_iff.mpr ⟨hbne, hdigitsb, hlo, v.lo.isLt⟩

/-! ## The parsers -/

theorem fromHexInternal_readsDigits_iff (d : Str) :
    ReadsDigits (fromHexInternal d) d ↔ IsClean d := by
  by_cases hshort : d.len ≤ 32
  · rw [readsDigits_short hshort]
    constructor
    · intro hplain
      refine ⟨fun htorn => Nat.not_lt_of_le hshort htorn.1, ?_, ?_⟩
      · rintro (⟨-, m, hm, hne, n, hread⟩ | ⟨a, b, rfl, ha, hb, -⟩)
        · exact hplain m hm hne n hread
        · have hpos := len_pos ha
          rw [Str.len_append] at hshort
          omega
      · rintro ⟨hdigits, hlong, -⟩
        have hlen := hdigits.len_eq
        omega
    · exact fun hclean m hm hne n hread =>
        hclean.notDecorated (.inl ⟨hshort, m, hm, hne, n, hread⟩)
  · by_cases htorn : IsTorn d
    · rw [fromHexInternal_torn htorn]
      exact iff_of_false (fun h => h.1 _ rfl) fun h => h.notTorn htorn
    · obtain ⟨a, b, rfl, hb⟩ : ∃ a b : Str, d = a ++ b ∧ b.len = 32 := by
        by_contra hno
        refine htorn ⟨Nat.lt_of_not_le hshort, fun a b hd hb => hno ⟨a, b, hd, hb⟩⟩
      have ha : a ≠ [] := by
        rintro rfl
        exact hshort (Nat.le_of_eq hb)
      constructor
      · intro h
        obtain ⟨hdecorated, hoverlong⟩ := readsDigits_long_plain ha hb h
        exact ⟨htorn, hdecorated, hoverlong⟩
      · exact fun h => readsDigits_of_plain ha hb h.notDecorated h.notOverlong

variable {ε : Type} {f : Str → Outcome ε U256} {IsText : Str → Str → Prop}

/-- A parser that hands the digits of its text on is as good as the common one on them. -/
theorem readsHex_iff_of_text {s d : Str} {e : ParseIntError → ε} (hd : IsText s d)
    (hunique : ∀ t, IsText s t → t = d) (hf : f s = (fromHexInternal d).mapErr e) :
    ReadsHex f IsText s ↔ ∀ t, IsText s t → IsClean t := by
  have hiff : ReadsHex f IsText s ↔ ReadsDigits (fromHexInternal d) d := by
    rw [ReadsHex, hf, ReadsDigits]
    refine and_congr ⟨fun h p hp => h p ?_, fun h => h.mapErr e⟩ (forall_congr' fun v => ?_)
    · rw [hp]
      rfl
    · rw [Outcome.mapErr_eq_ok_iff]
      refine iff_congr Iff.rfl ⟨?_, fun h => ⟨d, hd, h⟩⟩
      rintro ⟨t, ht, h⟩
      exact hunique t ht ▸ h
  rw [hiff, fromHexInternal_readsDigits_iff]
  exact ⟨fun h t ht => hunique t ht ▸ h, fun h => h d hd⟩

/-- A text that the parser is not made for is refused. -/
theorem readsHex_iff_of_refused {s : Str} {e : ε} (hno : ∀ t, ¬ IsText s t) (hf : f s = .err e) :
    ReadsHex f IsText s ↔ ∀ t, IsText s t → IsClean t := by
  refine iff_of_true ⟨hf ▸ Outcome.noPanic_err e, fun v => ?_⟩ fun t ht => absurd ht (hno t)
  rw [hf]
  refine iff_of_false (fun h => by cases h) ?_
  rintro ⟨t, ht, -⟩
  exact hno t ht

theorem prefixed_iff {s d : Str} : Prefixed s d ↔
    s.stripPrefix ['0', 'x'] = some d ∨ s.stripPrefix ['0', 'X'] = some d := by
  rw [Prefixed, Str.stripPrefix_eq_some_iff, Str.stripPrefix_eq_some_iff]

theorem prefixed_unique {s d t : Str} (hd : Prefixed s d) (ht : Prefixed s t) : t = d := by
  rcases hd with rfl | rfl <;> rcases ht with h | h <;> simp at h <;> exact h.symm

theorem fromHex_readsHex_iff (s : Str) :
    ReadsHex fromHex Prefixed s ↔ ∀ d, Prefixed s d → IsClean d := by
  cases hlower : s.stripPrefix ['0', 'x'] with
  | some d =>
    have hd : Prefixed s d := prefixed_iff.mpr (.inl hlower)
    apply readsHex_iff_of_text hd fun t ht => prefixed_unique hd ht
    rw [fromHex, hlower]
  | none =>
    cases hupper : s.stripPrefix ['0', 'X'] with
    | some d =>
      have hd : Prefixed s d := prefixed_iff.mpr (.inr hupper)
      apply readsHex_iff_of_text hd fun t ht => prefixed_unique hd ht
      rw [fromHex, hlower, hupper]
    | none =>
      apply readsHex_iff_of_refused (e := .missingPrefix s)
      · intro t ht
        rw [prefixed_iff, hlower, hupper] at ht
        simp at ht
      · rw [fromHex, hlower, hupper]

theorem fromUnprefixedHex_readsHex_iff (s : Str) :
    ReadsHex fromUnprefixedHex Unprefixed s ↔ ∀ d, Unprefixed s d → IsClean d := by
  have hsome : ((s.stripPrefix ['0', 'x']).isSome ∨ (s.stripPrefix ['0', 'X']).isSome) ↔
      ∃ t, Prefixed s t := by
    simp only [prefixed_iff, exists_or, Option.isSome_iff_exists]
  by_cases hprefix : ∃ t, Prefixed s t
  · apply readsHex_iff_of_refused (e := .containsPrefix s)
    · rintro t ⟨-, hno⟩
      obtain ⟨u, hu⟩ := hprefix
      exact hno u hu
    · rw [fromUnprefixedHex, if_pos (hsome.mpr hprefix)]
  · have hs : Unprefixed s s := ⟨rfl, fun t ht => hprefix ⟨t, ht⟩⟩
    apply readsHex_iff_of_text hs fun t ht => ht.1.symm
    rw [fromUnprefixedHex, if_neg fun h => hprefix (hsome.mp h)]

end U256

open U256

/-- Targets and work are read from exactly the texts whose digits the cut into parts does no harm
to. -/
theorem Target.hex_parsers_read_iff (s : Str) :
    (ReadsHex Target.fromHex Prefixed s ↔ ∀ d, Prefixed s d → IsClean d) ∧
    (ReadsHex Work.fromHex Prefixed s ↔ ∀ d, Prefixed s d → IsClean d) ∧
    (ReadsHex Target.fromUnprefixedHex Unprefixed s ↔ ∀ d, Unprefixed s d → IsClean d) ∧
    (ReadsHex Work.fromUnprefixedHex Unprefixed s ↔ ∀ d, Unprefixed s d → IsClean d) :=
  ⟨fromHex_readsHex_iff s, fromHex_readsHex_iff s, fromUnprefixedHex_readsHex_iff s,
    fromUnprefixedHex_readsHex_iff s⟩

/-- A text of 33 bytes whose first character takes two of them is cut inside that character; and
a second prefix, a plus sign and a number with 65 digits are read. -/
theorem Target.hex_parsers_misread :
    ¬ (∀ s, ReadsHex Target.fromHex Prefixed s ∧ ReadsHex Work.fromHex Prefixed s ∧
      ReadsHex Target.fromUnprefixedHex Unprefixed s ∧
      ReadsHex Work.fromUnprefixedHex Unprefixed s) ∧
    Target.fromUnprefixedHex ('é' :: List.replicate 31 '0') = .panic .outOfBounds ∧
    Work.fromHex ('0' :: 'x' :: 'é' :: List.replicate 31 '0') = .panic .outOfBounds ∧
    Target.fromHex ['0', 'x', '0', 'x', '1', 'f'] = .ok ⟨0, 31⟩ ∧
    Work.fromUnprefixedHex ['+', '1', 'f'] = .ok ⟨0, 31⟩ ∧
    Target.fromUnprefixedHex (List.replicate 64 '0' ++ ['1']) = .ok ⟨0, 1⟩ := by
  have hpanic : Target.fromUnprefixedHex ('é' :: List.replicate 31 '0') = .panic .outOfBounds := by
    decide
  refine ⟨fun h => (h ('é' :: List.replicate 31 '0')).2.2.1.1 _ hpanic, hpanic, ?_, ?_, ?_, ?_⟩ <;>
    decide

end RustDogecoin
