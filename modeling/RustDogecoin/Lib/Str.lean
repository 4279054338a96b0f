import RustDogecoin.Lib.Outcome
import Mathlib.Algebra.Group.Int.Defs

/-!
# Strings and their byte positions

A string is a list of characters, but positions in it count the bytes of its UTF-8 form, so that a
slice can miss a character boundary and panic.  `find` and the slices are inverse to concatenation:
a string is split where a character was found.
-/

abbrev Str := List Char

namespace Str

/-- The length in bytes. -/
def len : Str → ℕ
  | [] => 0
  | c :: s => c.utf8Size + len s

/-- The characters with their positions, counted from `i` on. -/
def charIndices : ℕ → Str → List (ℕ × Char)
  | _, [] => []
  | i, c :: s => (i, c) :: charIndices (i + c.utf8Size) s

/-- The position of the first character that satisfies `p`. -/
def find (p : Char → Bool) (s : Str) : Option ℕ :=
  ((charIndices 0 s).find? fun x => p x.2).map Prod.fst

/-- The position of the last character that satisfies `p`. -/
def rfind (p : Char → Bool) (s : Str) : Option ℕ :=
  ((charIndices 0 s).reverse.find? fun x => p x.2).map Prod.fst

/-- The two parts of a string before and behind a character boundary. -/
def splitAt : ℕ → Str → Option (Str × Str)
  | 0, s => some ([], s)
  | _ + 1, [] => none
  | n + 1, c :: s =>
    if c.utf8Size ≤ n + 1 then (splitAt (n + 1 - c.utf8Size) s).map fun x => (c :: x.1, x.2)
    else none

variable {ε : Type}

/-- `&s[..n]`. -/
def sliceTo (s : Str) (n : ℕ) : Outcome ε Str :=
  match splitAt n s with
  | some x => .ok x.1
  | none => .panic .outOfBounds

/-- `&s[n..]`. -/
def sliceFrom (s : Str) (n : ℕ) : Outcome ε Str :=
  match splitAt n s with
  | some x => .ok x.2
  | none => .panic .outOfBounds

theorem len_append (a b : Str) : len (a ++ b) = len a + len b := by
  induction a with
  | nil => exact (Nat.zero_add _).symm
  | cons c a ih => rw [List.cons_append, len, len, ih, Nat.add_assoc]

theorem length_le_len (s : Str) : s.length ≤ len s := by
  induction s with
  | nil => exact Nat.le_refl 0
  | cons c s ih =>
    have hc := Char.utf8Size_pos c
    rw [List.length_cons, len]
    omega

theorem len_eq_zero_iff {s : Str} : len s = 0 ↔ s = [] := by
  constructor
  · intro h
    have hle := length_le_len s
    exact List.length_eq_zero_iff.mp (by omega)
  · rintro rfl
    rfl

theorem charIndices_append (i : ℕ) (a b : Str) :
    charIndices i (a ++ b) = charIndices i a ++ charIndices (i + len a) b := by
  induction a generalizing i with
  | nil => rfl
  | cons c a ih => rw [List.cons_append, charIndices, ih, charIndices, len, Nat.add_assoc,
      List.cons_append]

@[simp] theorem map_snd_charIndices (i : ℕ) (s : Str) : (charIndices i s).map Prod.snd = s := by
  induction s generalizing i with
  | nil => rfl
  | cons c s ih => rw [charIndices, List.map_cons, ih]

theorem mem_of_mem_charIndices {i : ℕ} {s : Str} {x : ℕ × Char} (h : x ∈ charIndices i s) :
    x.2 ∈ s := by
  have hmem := List.mem_map_of_mem (f := Prod.snd) h
  rw [map_snd_charIndices] at hmem
  exact hmem

/-- A string is split between two of its parts. -/
theorem splitAt_append (a b : Str) : splitAt (len a) (a ++ b) = some (a, b) := by
  induction a with
  | nil => cases b <;> rfl
  | cons c a ih =>
    have hc := Char.utf8Size_pos c
    obtain ⟨n, hn⟩ : ∃ n, len (c :: a) = n + 1 := ⟨len (c :: a) - 1, by rw [len]; omega⟩
    have hrest : n + 1 - c.utf8Size = len a := by
      rw [len] at hn
      omega
    have hle : c.utf8Size ≤ n + 1 := by
      rw [len] at hn
      omega
    rw [hn, List.cons_append, splitAt, if_pos hle, hrest, ih]
    rfl

theorem sliceTo_append (a b : Str) : (sliceTo (a ++ b) (len a) : Outcome ε Str) = .ok a := by
  rw [sliceTo, splitAt_append]

theorem sliceFrom_append (a b : Str) : (sliceFrom (a ++ b) (len a) : Outcome ε Str) = .ok b := by
  rw [sliceFrom, splitAt_append]

theorem append_of_splitAt {n : ℕ} {s : Str} {x : Str × Str} (h : splitAt n s = some x) :
    s = x.1 ++ x.2 ∧ len x.1 = n := by
  induction s generalizing n x with
  | nil =>
    cases n with
    | zero =>
      obtain rfl := Option.some.inj h
      exact ⟨rfl, rfl⟩
    | succ n => cases h
  | cons c s ih =>
    cases n with
    | zero =>
      obtain rfl := Option.some.inj h
      exact ⟨rfl, rfl⟩
    | succ n =>
      rw [splitAt] at h
      split_ifs at h with hc
      obtain ⟨y, hy, rfl⟩ := Option.map_eq_some_iff.mp h
      have hrest := ih hy
      refine ⟨congrArg (c :: ·) hrest.1, ?_⟩
      show c.utf8Size + len y.1 = n + 1
      omega

/-- A string is cut at a position exactly if a part of that length ends there. -/
theorem splitAt_eq_some_iff {n : ℕ} {s : Str} {x : Str × Str} :
    splitAt n s = some x ↔ s = x.1 ++ x.2 ∧ len x.1 = n := by
  refine ⟨append_of_splitAt, ?_⟩
  rintro ⟨rfl, rfl⟩
  exact splitAt_append x.1 x.2

theorem slice_panics {n : ℕ} {s : Str} (h : ∀ a b, s = a ++ b → len a ≠ n) :
    (sliceTo s n : Outcome ε Str) = .panic .outOfBounds := by
  have hnone : splitAt n s = none := by
    rw [Option.eq_none_iff_forall_ne_some]
    intro x hx
    rw [splitAt_eq_some_iff] at hx
    exact h x.1 x.2 hx.1 hx.2
  rw [sliceTo, hnone]

/-- `s.strip_prefix(p)`. -/
def stripPrefix : Str → Str → Option Str
  | s, [] => some s
  | [], _ :: _ => none
  | d :: s, c :: p => if c = d then stripPrefix s p else none

theorem stripPrefix_eq_some_iff {s p t : Str} : stripPrefix s p = some t ↔ s = p ++ t := by
  induction p generalizing s with
  | nil => cases s <;> simp [stripPrefix]
  | cons c p ih =>
    cases s with
    | nil => simp [stripPrefix]
    | cons d s =>
      by_cases h : c = d
      · simp [stripPrefix, h, ih]
      · simp [stripPrefix, h, Ne.symm h]

variable {p : Char → Bool}

theorem find_eq_none_iff {s : Str} : find p s = none ↔ ∀ c ∈ s, ¬ p c = true := by
  rw [find, Option.map_eq_none_iff, List.find?_eq_none]
  constructor
  · intro h c hc
    rw [← map_snd_charIndices 0 s] at hc
    obtain ⟨x, hx, rfl⟩ := List.mem_map.mp hc
    exact h x hx
  · intro h x hx
    exact h x.2 (mem_of_mem_charIndices hx)

/-- The first match lies behind the characters that do not match. -/
theorem find_append {a b : Str} {c : Char} (ha : ∀ x ∈ a, ¬ p x = true) (hc : p c = true) :
    find p (a ++ c :: b) = some (len a) := by
  have hnone : (charIndices 0 a).find? (fun x => p x.2) = none := by
    rw [List.find?_eq_none]
    exact fun x hx => ha x.2 (mem_of_mem_charIndices hx)
  have hfirst : ((0 + len a, c) :: charIndices (0 + len a + c.utf8Size) b).find?
      (fun x => p x.2) = some (0 + len a, c) := List.find?_cons_of_pos hc
  rw [find, charIndices_append, List.find?_append, hnone, Option.none_or, charIndices, hfirst,
    Nat.zero_add]
  rfl

/-- The last match lies before characters that do not match. -/
theorem rfind_append {a b : Str} {c : Char} (hb : ∀ x ∈ b, ¬ p x = true) (hc : p c = true) :
    rfind p (a ++ c :: b) = some (len a) := by
  have hnone : (charIndices (0 + len a + c.utf8Size) b).reverse.find? (fun x => p x.2) = none := by
    rw [List.find?_eq_none]
    exact fun x hx => hb x.2 (mem_of_mem_charIndices (List.mem_reverse.mp hx))
  have hlast : ((0 + len a, c) :: (charIndices 0 a).reverse).find? (fun x => p x.2) = some (0 + len a, c) :=
    List.find?_cons_of_pos hc
  rw [rfind, charIndices_append, charIndices, List.reverse_append, List.reverse_cons, List.append_assoc,
    List.find?_append, hnone, Option.none_or, List.singleton_append, hlast, Nat.zero_add]
  rfl

/-! ## Integers -/

/-- A value of `i64`, if it is one. -/
def toI64 (x : ℤ) : Option ℤ := if -2 ^ 63 ≤ x ∧ x < 2 ^ 63 then some x else none

/-- The number that a digit stands for. -/
def digitVal (c : Char) : ℕ := c.toNat - '0'.toNat

/-- A digit added to a number, or taken off it. -/
def addDigit (negative : Bool) (x : ℤ) (c : Char) : ℤ :=
  if negative then x - digitVal c else x + digitVal c

/-- The loop of `i64::from_str_radix` in base 10, which counts down for negative numbers. -/
def parseDigitsI64 (negative : Bool) : ℤ → Str → Option ℤ
  | acc, [] => some acc
  | acc, c :: s =>
    if c.isDigit then do
      let x ← toI64 (acc * 10)
      let x ← toI64 (addDigit negative x c)
      parseDigitsI64 negative x s
    else none

/-- `str::parse::<i64>`, which takes either sign in front of at least one digit. -/
def parseI64 : Str → Option ℤ
  | [] => none
  | c :: s =>
    if c = '+' ∨ c = '-' then if s = [] then none else parseDigitsI64 (c == '-') 0 s
    else parseDigitsI64 false 0 (c :: s)

theorem toI64_eq_some {x y : ℤ} (h : toI64 x = some y) : x = y := by
  unfold toI64 at h
  split_ifs at h
  exact Option.some.inj h

theorem parseDigitsI64_cons {negative : Bool} {acc r : ℤ} {c : Char} {s : Str}
    (h : parseDigitsI64 negative acc (c :: s) = some r) :
    c.isDigit = true ∧ parseDigitsI64 negative (addDigit negative (acc * 10) c) s = some r := by
  rw [parseDigitsI64] at h
  split_ifs at h with hc
  obtain ⟨x, hx, h⟩ := Option.bind_eq_some_iff.mp h
  obtain ⟨y, hy, h⟩ := Option.bind_eq_some_iff.mp h
  rw [← toI64_eq_some hy, ← toI64_eq_some hx] at h
  exact ⟨hc, h⟩

theorem eq_zero_of_digitVal {c : Char} (hc : c.isDigit = true) (h : digitVal c = 0) : c = '0' := by
  have hzero : '0'.toNat = 48 := rfl
  rw [Char.isDigit, Bool.and_eq_true, decide_eq_true_eq] at hc
  have hle : 48 ≤ c.toNat := UInt32.le_iff_toNat_le.mp hc.1
  rw [digitVal, hzero] at h
  apply Char.toNat_inj.mp
  omega

/-- Every digit only takes a number away from zero, so one that ends at zero has been there all
along. -/
theorem parseDigitsI64_eq_zero (negative : Bool) {acc : ℤ} {s : Str}
    (hacc : if negative then acc ≤ 0 else 0 ≤ acc) (h : parseDigitsI64 negative acc s = some 0) :
    acc = 0 ∧ ∀ c ∈ s, c = '0' := by
  induction s generalizing acc with
  | nil =>
    rw [parseDigitsI64, Option.some.injEq] at h
    exact ⟨h, fun c hc => absurd hc List.not_mem_nil⟩
  | cons c s ih =>
    obtain ⟨hc, hrest⟩ := parseDigitsI64_cons h
    have hnext := ih (by cases negative <;> simp [addDigit] at hacc ⊢ <;> omega) hrest
    have hval : acc = 0 ∧ digitVal c = 0 := by
      cases negative <;> simp [addDigit] at hacc hnext <;> omega
    refine ⟨hval.1, fun d hd => ?_⟩
    rcases List.mem_cons.mp hd with rfl | hd
    · exact eq_zero_of_digitVal hc hval.2
    · exact hnext.2 d hd

theorem parseDigitsI64_zeros (negative : Bool) {s : Str} (h : ∀ c ∈ s, c = '0') :
    parseDigitsI64 negative 0 s = some 0 := by
  induction s with
  | nil => rfl
  | cons c s ih =>
    obtain rfl := h c List.mem_cons_self
    have hrest := ih fun d hd => h d (List.mem_cons_of_mem _ hd)
    have htens : toI64 (0 * 10) = some 0 := by decide
    have hdigit : toI64 (addDigit negative 0 '0') = some 0 := by cases negative <;> decide
    rw [parseDigitsI64, if_pos (by decide), htens]
    show (toI64 (addDigit negative 0 '0')).bind (fun x => parseDigitsI64 negative x s) = some 0
    rw [hdigit]
    exact hrest

/-- The texts of zero: zeros, with a sign of either kind or without one. -/
theorem parseI64_eq_zero_iff {s : Str} :
    parseI64 s = some 0 ↔ ∃ z : Str, z ≠ [] ∧ (∀ c ∈ z, c = '0') ∧
      (s = z ∨ s = '+' :: z ∨ s = '-' :: z) := by
  constructor
  · intro h
    cases s with
    | nil => cases h
    | cons c s =>
      rw [parseI64] at h
      by_cases hsign : c = '+' ∨ c = '-'
      · rw [if_pos hsign] at h
        by_cases hs : s = []
        · rw [if_pos hs] at h
          cases h
        · rw [if_neg hs] at h
          have hz := (parseDigitsI64_eq_zero (c == '-') (by split_ifs <;> exact Int.le_refl 0) h).2
          refine ⟨s, hs, hz, .inr ?_⟩
          rcases hsign with rfl | rfl
          · exact .inl rfl
          · exact .inr rfl
      · rw [if_neg hsign] at h
        exact ⟨c :: s, List.cons_ne_nil c s, (parseDigitsI64_eq_zero false (Int.le_refl 0) h).2,
          .inl rfl⟩
  · rintro ⟨z, hne, hz, rfl | rfl | rfl⟩
    · obtain ⟨c, z, rfl⟩ := List.exists_cons_of_ne_nil hne
      obtain rfl := hz c List.mem_cons_self
      rw [parseI64, if_neg (by decide)]
      exact parseDigitsI64_zeros false hz
    · rw [parseI64, if_pos (.inl rfl), if_neg hne]
      exact parseDigitsI64_zeros _ hz
    · rw [parseI64, if_pos (.inr rfl), if_neg hne]
      exact parseDigitsI64_zeros _ hz

end Str
