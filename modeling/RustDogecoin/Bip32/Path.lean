import RustDogecoin.Bip32.Codec
import RustDogecoin.Units.IntParse

/-!
# Derivation paths as texts

`Display` and `FromStr` of `ChildNumber` and `DerivationPath`.  A path is its child numbers with slashes between
them, and a hardened one ends with an apostrophe or the letter h; the parser does not tell the two apart
(`DerivationPath.fromStr_map`).
-/

namespace RustDogecoin

namespace Bip32

open RustDogecoin.Units

abbrev DerivationPath := List ChildNumber

/-- `bip32::Error`, as far as parsing a path returns it. -/
inductive PathError where
  | invalidChildNumber (index : UInt32)
  | invalidChildNumberFormat
  deriving DecidableEq, Repr

/-- The mark behind the index of a hardened child number. -/
def apostrophe : Char := Char.ofNat 0x27

namespace ChildNumber

/-- `ChildNumber::from_normal_idx`. -/
def fromNormalIdx (index : UInt32) : Outcome PathError ChildNumber :=
  if index &&& ((1 : UInt32) <<< 31) = 0 then .ok (normal index) else .err (.invalidChildNumber index)

/-- `ChildNumber::from_hardened_idx`. -/
def fromHardenedIdx (index : UInt32) : Outcome PathError ChildNumber :=
  if index &&& ((1 : UInt32) <<< 31) = 0 then .ok (hardened index) else .err (.invalidChildNumber index)

/-- `Display for ChildNumber`; the alternate form has the letter h. -/
def fmt (alternate : Bool) : ChildNumber → Str
  | hardened index => Nat.toDigits 10 index.toNat ++ [if alternate then 'h' else apostrophe]
  | normal index => Nat.toDigits 10 index.toNat

def isMark (c : Char) : Bool := c = apostrophe || c = 'h'

/-- `str::parse`, with any error replaced. -/
def parseIndex (s : Str) : Outcome PathError UInt32 :=
  (Outcome.ofExcept (parseU32 s)).mapErr fun _ => .invalidChildNumberFormat

/-- `FromStr for ChildNumber`. -/
def fromStr (inp : Str) : Outcome PathError ChildNumber := do
  let isHardened := inp.getLast?.any isMark
  if isHardened then
    let digits ← inp.sliceTo (inp.len - 1)
    let index ← parseIndex digits
    fromHardenedIdx index
  else
    let index ← parseIndex inp
    fromNormalIdx index

end ChildNumber

namespace DerivationPath

/-- `Display for DerivationPath`. -/
def fmt : DerivationPath → Str
  | [] => []
  | first :: path => first.fmt false ++ path.flatMap fun cn => '/' :: cn.fmt false

/-- `FromStr for DerivationPath`. -/
def fromStr (path : Str) : Outcome PathError DerivationPath :=
  if path = [] ∨ path = ['m'] ∨ path = ['m', '/'] then .ok []
  else
    let path := (path.stripPrefix ['m', '/']).getD path
    let parts := path.splitOn '/'
    parts.mapM ChildNumber.fromStr

/-- `DerivationPath::to_u32_vec`. -/
def toU32Vec (path : DerivationPath) : List UInt32 := path.map ChildNumber.toU32

end DerivationPath

/-! ## Child numbers -/

namespace ChildNumber

theorem and_bit_eq_zero_iff (index : UInt32) : index &&& ((1 : UInt32) <<< 31) = 0 ↔ index.toNat < 2 ^ 31 := by
  have hrange := inRange_ofU32 index
  have hback := toU32_ofU32 index
  unfold ofU32 at hrange hback
  split_ifs at hrange hback with hbit
  · refine iff_of_false hbit fun hlt => ?_
    rw [and_bit_ne_zero_iff, Nat.testBit_lt_two_pow hlt] at hbit
    cases hbit
  · exact iff_of_true (not_not.1 hbit) hrange

theorem fromNormalIdx_eq_ok_iff {index : UInt32} {c : ChildNumber} :
    fromNormalIdx index = .ok c ↔ index.toNat < 2 ^ 31 ∧ c = normal index := by
  rw [fromNormalIdx, ← and_bit_eq_zero_iff]
  split_ifs with h <;> simp [h, eq_comm]

theorem fromHardenedIdx_eq_ok_iff {index : UInt32} {c : ChildNumber} :
    fromHardenedIdx index = .ok c ↔ index.toNat < 2 ^ 31 ∧ c = hardened index := by
  rw [fromHardenedIdx, ← and_bit_eq_zero_iff]
  split_ifs with h <;> simp [h, eq_comm]

theorem utf8Size_of_isMark {c : Char} (h : isMark c = true) : c.utf8Size = 1 := by
  rw [isMark, Bool.or_eq_true, decide_eq_true_eq, decide_eq_true_eq] at h
  rcases h with rfl | rfl <;> rfl

/-- A text that ends with a mark is read without it. -/
theorem fromStr_mark {s : Str} {c : Char} (h : isMark c = true) :
    fromStr (s ++ [c]) = parseIndex s >>= fromHardenedIdx := by
  have hlen : Str.len (s ++ [c]) - 1 = Str.len s := by
    rw [Str.len_append, Str.len, Str.len, utf8Size_of_isMark h]
    omega
  rw [fromStr, List.getLast?_concat, Option.any_some, hlen, Str.sliceTo_append, h]
  rfl

theorem fromStr_of_not_isMark {s : Str} (h : ∀ c ∈ s.getLast?, isMark c = false) :
    fromStr s = parseIndex s >>= fromNormalIdx := by
  have hlast : s.getLast?.any isMark = false := by
    rw [Option.any_eq_false_iff_get]
    intro hsome
    exact h _ (Option.get_mem hsome)
  rw [fromStr, hlast]
  rfl

/-- What is read has its index in the range. -/
theorem inRange_of_fromStr {s : Str} {c : ChildNumber} (h : fromStr s = .ok c) : c.InRange := by
  unfold fromStr at h
  dsimp only at h
  split_ifs at h
  · obtain ⟨digits, -, h⟩ := Outcome.bind_eq_ok_iff.1 h
    obtain ⟨index, -, h⟩ := Outcome.bind_eq_ok_iff.1 h
    obtain ⟨hlt, rfl⟩ := fromHardenedIdx_eq_ok_iff.1 h
    exact hlt
  · obtain ⟨index, -, h⟩ := Outcome.bind_eq_ok_iff.1 h
    obtain ⟨hlt, rfl⟩ := fromNormalIdx_eq_ok_iff.1 h
    exact hlt

theorem not_isMark_of_isDigit {c : Char} (h : c.isDigit = true) : isMark c = false := by
  rw [isMark, Bool.or_eq_false_iff, decide_eq_false_iff_not, decide_eq_false_iff_not]
  constructor
  · rintro rfl
    cases h
  · rintro rfl
    cases h

theorem parseIndex_toDigits (n : UInt32) : parseIndex (Nat.toDigits 10 n.toNat) = .ok n := by
  rw [parseIndex, parseU32_toDigits, Outcome.ofExcept_ok, Outcome.mapErr_ok]

theorem fromStr_fmt {c : ChildNumber} (h : c.InRange) (alternate : Bool) : fromStr (c.fmt alternate) = .ok c := by
  cases c with
  | hardened index =>
    have hmark : isMark (if alternate then 'h' else apostrophe) = true := by cases alternate <;> decide
    rw [fmt, fromStr_mark hmark, parseIndex_toDigits, Outcome.ok_bind]
    exact fromHardenedIdx_eq_ok_iff.2 ⟨h, rfl⟩
  | normal index =>
    have hlast : ∀ c ∈ (Nat.toDigits 10 index.toNat).getLast?, isMark c = false := fun c hc =>
      not_isMark_of_isDigit (digits_toDigits _ c (List.mem_of_getLast? hc))
    rw [fmt, fromStr_of_not_isMark hlast, parseIndex_toDigits, Outcome.ok_bind]
    exact fromNormalIdx_eq_ok_iff.2 ⟨h, rfl⟩

/-! ## Marks -/

/-- The letter h turned into an apostrophe. -/
def plain (c : Char) : Char := if c = 'h' then apostrophe else c

/-- The apostrophe turned into the letter h. -/
def lettered (c : Char) : Char := if c = apostrophe then 'h' else c

theorem isMark_plain (c : Char) : isMark (plain c) = isMark c := by
  unfold plain
  split_ifs with h
  · rw [h]
    rfl
  · rfl

/-- Only marks are changed, and only to marks. -/
theorem plain_eq_iff {c d : Char} (hd : isMark d = false) : plain c = d ↔ c = d := by
  rw [isMark, Bool.or_eq_false_iff, decide_eq_false_iff_not, decide_eq_false_iff_not] at hd
  unfold plain
  split_ifs with h
  · subst h
    exact iff_of_false (fun h => hd.1 h.symm) fun h => hd.2 h.symm
  · rfl

theorem map_plain_eq_self {s : Str} (h : ∀ c ∈ s, isMark c = false) : s.map plain = s := by
  conv_rhs => rw [← List.map_id s]
  exact List.map_congr_left fun c hc => (plain_eq_iff (h c hc)).2 rfl

theorem map_plain_lettered (s : Str) : (s.map lettered).map plain = s.map plain := by
  rw [List.map_map]
  refine List.map_congr_left fun c _ => ?_
  rw [Function.comp_apply, lettered]
  split_ifs with h
  · rw [h]
    rfl
  · rfl

/-- No mark belongs to an index. -/
theorem parseIndex_of_isMark {s : Str} {c : Char} (hc : c ∈ s) (hmark : isMark c = true) :
    parseIndex s = .err .invalidChildNumberFormat := by
  have hno : ∀ n, parseUint 32 s ≠ .ok n := by
    intro n hn
    obtain ⟨d, hd, -, hdigits, -⟩ := parseUint_eq_ok_iff.1 hn
    have hdigit : ∀ x ∈ d, isMark x = false := fun x hx => not_isMark_of_isDigit (hdigits x hx)
    rcases hd with rfl | rfl
    · rw [hdigit c hc] at hmark
      cases hmark
    · rcases List.mem_cons.1 hc with rfl | hc
      · cases hmark
      · rw [hdigit c hc] at hmark
        cases hmark
  rw [parseIndex, parseU32]
  cases hparse : parseUint 32 s with
  | ok n => exact absurd hparse (hno n)
  | error e => rfl

theorem parseIndex_map_plain (s : Str) : parseIndex (s.map plain) = parseIndex s := by
  by_cases h : ∃ c ∈ s, isMark c = true
  · obtain ⟨c, hc, hmark⟩ := h
    rw [parseIndex_of_isMark hc hmark,
      parseIndex_of_isMark (List.mem_map_of_mem hc) ((isMark_plain c).trans hmark)]
  · push Not at h
    rw [map_plain_eq_self fun c hc => Bool.eq_false_iff.2 (h c hc)]

theorem fromStr_map_plain (s : Str) : fromStr (s.map plain) = fromStr s := by
  induction s using List.reverseRecOn with
  | nil => rfl
  | append_singleton s c _ =>
    cases hmark : isMark c with
    | true =>
      rw [List.map_append, List.map_singleton, fromStr_mark hmark,
        fromStr_mark ((isMark_plain c).trans hmark), parseIndex_map_plain]
    | false =>
      have hlast : ∀ d ∈ (s ++ [c]).getLast?, isMark d = false := by
        simpa using hmark
      have hplain : ∀ d ∈ ((s ++ [c]).map plain).getLast?, isMark d = false := by
        simpa using (isMark_plain c).trans hmark
      rw [fromStr_of_not_isMark hlast, fromStr_of_not_isMark hplain, parseIndex_map_plain]

end ChildNumber

/-! ## Paths -/

namespace DerivationPath

open ChildNumber

theorem fromStr_of_head {s : Str} (hs : s ≠ []) (hm : s.head? ≠ some 'm') :
    fromStr s = (s.splitOn '/').mapM ChildNumber.fromStr := by
  have hstrip : s.stripPrefix ['m', '/'] = none := by
    rw [Option.eq_none_iff_forall_ne_some]
    intro t ht
    rw [Str.stripPrefix_eq_some_iff.1 ht] at hm
    exact hm rfl
  have hneither : ¬(s = [] ∨ s = ['m'] ∨ s = ['m', '/']) := by
    rintro (rfl | rfl | rfl)
    · exact hs rfl
    · exact hm rfl
    · exact hm rfl
  rw [fromStr, if_neg hneither, hstrip]
  rfl

theorem fromStr_master {s : Str} (hs : s ≠ []) :
    fromStr ('m' :: '/' :: s) = (s.splitOn '/').mapM ChildNumber.fromStr := by
  have hneither : ¬(('m' :: '/' :: s) = [] ∨ ('m' :: '/' :: s) = ['m'] ∨ ('m' :: '/' :: s) = ['m', '/']) := by
    simpa using hs
  have hstrip : Str.stripPrefix ('m' :: '/' :: s) ['m', '/'] = some s := Str.stripPrefix_eq_some_iff.2 rfl
  rw [fromStr, if_neg hneither, hstrip]
  rfl

/-- Parts with slashes between them are split again. -/
theorem splitOn_flatMap {x : Str} {ps : List Str} (hx : '/' ∉ x) (hps : ∀ p ∈ ps, '/' ∉ p) :
    (x ++ ps.flatMap fun p => '/' :: p).splitOn '/' = x :: ps := by
  induction ps generalizing x with
  | nil => rw [List.flatMap_nil, List.append_nil, List.splitOn_eq_singleton hx]
  | cons p ps ih =>
    rw [List.forall_mem_cons] at hps
    rw [List.flatMap_cons, List.cons_append, List.splitOn_append_cons_self_of_not_mem hx, ih hps.1 hps.2]

theorem slash_notMem_fmt (c : ChildNumber) : '/' ∉ c.fmt false := by
  have hdigits : ∀ n : ℕ, '/' ∉ Nat.toDigits 10 n := fun n h => absurd (digits_toDigits n _ h) (by decide)
  cases c with
  | normal index => exact hdigits _
  | hardened index =>
    rw [ChildNumber.fmt, List.mem_append, List.mem_singleton]
    rintro (h | h)
    · exact hdigits _ h
    · cases h

theorem splitOn_fmt (c : ChildNumber) (path : DerivationPath) :
    (fmt (c :: path)).splitOn '/' = (c :: path).map (ChildNumber.fmt false) := by
  have hparts : ∀ t ∈ path.map (ChildNumber.fmt false), '/' ∉ t := by
    intro t ht
    obtain ⟨d, -, rfl⟩ := List.mem_map.1 ht
    exact slash_notMem_fmt d
  rw [fmt, ← List.flatMap_map, splitOn_flatMap (slash_notMem_fmt c) hparts]
  rfl

theorem mapM_fromStr_fmt {path : DerivationPath} (h : ∀ c ∈ path, c.InRange) :
    (path.map (ChildNumber.fmt false)).mapM ChildNumber.fromStr = .ok path := by
  induction path with
  | nil => rfl
  | cons c path ih =>
    rw [List.forall_mem_cons] at h
    rw [List.map_cons, List.mapM_cons, ChildNumber.fromStr_fmt h.1, Outcome.ok_bind, ih h.2]
    rfl

/-- A displayed path begins with a digit. -/
theorem head_fmt (c : ChildNumber) (path : DerivationPath) :
    fmt (c :: path) ≠ [] ∧ (fmt (c :: path)).head? ≠ some 'm' := by
  have hne : ∀ n : ℕ, Nat.toDigits 10 n ≠ [] := fun _ => Nat.toDigits_ne_nil
  have hhead : ∀ (n : ℕ) (t : Str), (Nat.toDigits 10 n ++ t).head? ≠ some 'm' := by
    intro n t hm
    rw [List.head?_append_of_ne_nil _ (hne n)] at hm
    exact absurd (digits_toDigits n _ (List.mem_of_head? hm)) (by decide)
  cases c with
  | normal index => exact ⟨by simp [fmt, ChildNumber.fmt, hne], hhead _ _⟩
  | hardened index =>
    refine ⟨by simp [fmt, ChildNumber.fmt], ?_⟩
    rw [fmt, ChildNumber.fmt, List.append_assoc]
    exact hhead _ _

theorem fromStr_fmt {path : DerivationPath} (h : ∀ c ∈ path, c.InRange) :
    fromStr (fmt path) = .ok path ∧ fromStr ('m' :: '/' :: fmt path) = .ok path := by
  cases path with
  | nil => exact ⟨rfl, rfl⟩
  | cons c path =>
    obtain ⟨hne, hhead⟩ := head_fmt c path
    rw [fromStr_of_head hne hhead, fromStr_master hne, splitOn_fmt, mapM_fromStr_fmt h]
    exact ⟨rfl, rfl⟩

/-! ## Either mark -/

theorem splitOn_map_plain (s : Str) : (s.map plain).splitOn '/' = (s.splitOn '/').map (List.map plain) := by
  induction s with
  | nil => rfl
  | cons c s ih =>
    rw [List.map_cons, List.splitOn_cons_eq_if_modifyHead, List.splitOn_cons_eq_if_modifyHead, ih]
    simp only [beq_iff_eq, plain_eq_iff (by decide : isMark '/' = false)]
    obtain ⟨part, parts, hparts⟩ := List.exists_cons_of_ne_nil (List.splitOn_ne_nil '/' s)
    rw [hparts]
    split_ifs <;> rfl

theorem stripPrefix_map_plain (s : Str) :
    Str.stripPrefix (s.map plain) ['m', '/'] = (s.stripPrefix ['m', '/']).map (List.map plain) := by
  have hm : ∀ c, 'm' = plain c ↔ 'm' = c := fun c => by
    rw [eq_comm, plain_eq_iff (by decide), eq_comm]
  have hslash : ∀ c, '/' = plain c ↔ '/' = c := fun c => by
    rw [eq_comm, plain_eq_iff (by decide), eq_comm]
  rcases s with _ | ⟨c, _ | ⟨d, s⟩⟩
  · rfl
  · simp only [List.map_cons, List.map_nil, Str.stripPrefix, hm]
    split_ifs <;> rfl
  · simp only [List.map_cons, Str.stripPrefix, hm, hslash]
    split_ifs <;> cases s <;> rfl

/-- The parser does not tell the two marks apart. -/
theorem fromStr_map_plain (s : Str) : fromStr (s.map plain) = fromStr s := by
  have hm : ∀ c, plain c = 'm' ↔ c = 'm' := fun c => plain_eq_iff (by decide)
  have hslash : ∀ c, plain c = '/' ↔ c = '/' := fun c => plain_eq_iff (by decide)
  have hshort : (s.map plain = [] ∨ s.map plain = ['m'] ∨ s.map plain = ['m', '/']) ↔
      (s = [] ∨ s = ['m'] ∨ s = ['m', '/']) := by
    rcases s with _ | ⟨c, _ | ⟨d, _ | ⟨e, s⟩⟩⟩
    · rfl
    · simp [hm]
    · simp [hm, hslash]
    · simp
  have hrest : (Str.stripPrefix (s.map plain) ['m', '/']).getD (s.map plain) =
      ((s.stripPrefix ['m', '/']).getD s).map plain := by
    rw [stripPrefix_map_plain]
    cases s.stripPrefix ['m', '/'] <;> rfl
  unfold fromStr
  dsimp only
  simp only [hshort, hrest, splitOn_map_plain, List.mapM_map]
  split_ifs
  · rfl
  · congr 1
    funext part
    exact ChildNumber.fromStr_map_plain part

/-- What is read has its indexes in the range. -/
theorem inRange_of_fromStr {s : Str} {path : DerivationPath} (h : fromStr s = .ok path) :
    ∀ c ∈ path, c.InRange := by
  unfold fromStr at h
  dsimp only at h
  split_ifs at h
  · cases h
    exact List.forall_mem_nil _
  · generalize List.splitOn '/' _ = parts at h
    induction parts generalizing path with
    | nil =>
      cases h
      exact List.forall_mem_nil _
    | cons part parts ih =>
      rw [List.mapM_cons] at h
      obtain ⟨c, hc, h⟩ := Outcome.bind_eq_ok_iff.1 h
      obtain ⟨path', hpath, h⟩ := Outcome.bind_eq_ok_iff.1 h
      cases h
      rw [List.forall_mem_cons]
      exact ⟨ChildNumber.inRange_of_fromStr hc, ih hpath⟩

theorem map_ofU32_toU32Vec {path : DerivationPath} (h : ∀ c ∈ path, c.InRange) :
    (toU32Vec path).map ofU32 = path := by
  rw [toU32Vec, List.map_map]
  conv_rhs => rw [← List.map_id path]
  exact List.map_congr_left fun c hc => ofU32_toU32 (h c hc)

/-- A displayed path is read back, with `m/` in front of it or not and with the letter h for any of its
apostrophes; and the indexes of a path that was read, or made of numbers, are in the range, so that the path
comes back from its numbers. -/
theorem derivationPath_roundTrip :
    (∀ path : DerivationPath, (∀ c ∈ path, c.InRange) →
      fromStr (fmt path) = .ok path ∧ fromStr ('m' :: '/' :: fmt path) = .ok path ∧
      fromStr ((fmt path).map lettered) = .ok path ∧
      fromStr ('m' :: '/' :: (fmt path).map lettered) = .ok path ∧
      ∀ s : Str, s.map plain = (fmt path).map plain → fromStr s = .ok path) ∧
    (∀ (s : Str) (path : DerivationPath), fromStr s = .ok path →
      (∀ c ∈ path, c.InRange) ∧ (toU32Vec path).map ofU32 = path) ∧
    ∀ numbers : List UInt32, (∀ c ∈ numbers.map ofU32, c.InRange) ∧
      (toU32Vec (numbers.map ofU32)).map ofU32 = numbers.map ofU32 := by
  refine ⟨fun path h => ?_, fun s path h => ?_, fun numbers => ?_⟩
  · obtain ⟨hplain, hmaster⟩ := fromStr_fmt h
    have hsame : ∀ s t : Str, s.map plain = t.map plain → fromStr s = fromStr t := by
      intro s t hst
      rw [← fromStr_map_plain s, hst, fromStr_map_plain]
    have hlettered : ∀ t : Str, ('m' :: '/' :: t.map lettered).map plain = ('m' :: '/' :: t).map plain := by
      intro t
      rw [List.map_cons, List.map_cons, map_plain_lettered]
      rfl
    refine ⟨hplain, hmaster, ?_, ?_, fun s hs => (hsame s _ hs).trans hplain⟩
    · exact (hsame _ _ (map_plain_lettered _)).trans hplain
    · exact (hsame _ _ (hlettered _)).trans hmaster
  · have hrange := inRange_of_fromStr h
    exact ⟨hrange, map_ofU32_toU32Vec hrange⟩
  · have hrange : ∀ c ∈ numbers.map ofU32, c.InRange := by
      intro c hc
      obtain ⟨n, -, rfl⟩ := List.mem_map.1 hc
      exact inRange_ofU32 n
    exact ⟨hrange, map_ofU32_toU32Vec hrange⟩

theorem derivationPath_roundTrip_sample :
    fromStr ['8', '4', apostrophe, '/', '0', 'h', '/', '1'] = .ok [hardened 84, hardened 0, normal 1] :=
  (derivationPath_roundTrip.1 [hardened 84, hardened 0, normal 1] (by decide)).2.2.2.2 _ (by decide)

end DerivationPath

end Bip32

end RustDogecoin
